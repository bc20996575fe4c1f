/-
# Mempool.Invariant -- bitmap, free ranges and outstanding grants

`Core s F G` is the representation invariant of the allocator `s` with free ranges `F`
and outstanding grants `G`: the containers represent `F`, no two ranges of `F` touch,
ranges and grants are disjoint (`Bare`), and the bitmap says so where `free` looks.
Bits inside a range or inside an unfilled grant may be stale, so the bitmap part
(`Marked`) says where a set bit can come from rather than what every bit is.

`Loose s F G P` is the same with a pending range `P` that is neither free nor granted.
An allocation loosens a free range, cuts it and grants what is left; `free` loosens a
granted range, merges it with its neighbours and inserts it.  `Bare` and `BarePending`
are the two without the bitmap, for the steps of `initial_add` that rebuild it.
-/
import MiniOsv.Mempool.Represents

namespace MiniOsv.Mempool

open Theory Extent
open Function
open Finset

open PageRangeAllocator

/-- A range handed out by `alloc` or `alloc_aligned`.  With `fill` every bit of the
range was cleared, so its pages may be freed one piece at a time. -/
structure Grant where
  start : ℕ
  size : ℕ
  fill : Bool
  deriving DecidableEq, Repr

namespace Grant

def extent (g : Grant) : Extent := (g.start, g.size)

/-- Page `p` lies inside an unfilled grant and is not one of its end pages. -/
def Interior (g : Grant) (p : ℕ) : Prop :=
  g.fill = false ∧ g.start < p * pageSize ∧ (p + 1) * pageSize < g.start + g.size

end Grant

def firstPage (r : Extent) : ℕ := r.1 / pageSize

def lastPage (r : Extent) : ℕ := (r.1 + r.2) / pageSize - 1

/-! ## The bitmap -/

/-- What the bitmap knows about free ranges and grants.  `stale` are the pages whose
bit may be set besides those of free ranges and the insides of unfilled grants. -/
structure Marked (bitmap : ℕ → Bool) (F : Finset Extent) (G : Finset Grant)
    (stale : ℕ → Prop) : Prop where
  first : ∀ r ∈ F, bitmap (firstPage r) = true
  last : ∀ r ∈ F, bitmap (lastPage r) = true
  grant : ∀ g ∈ G, bitmap (firstPage g.extent) = false ∧ bitmap (lastPage g.extent) = false
  filled : ∀ g ∈ G, g.fill = true → ∀ p, g.extent.Covers (p * pageSize) → bitmap p = false
  origin : ∀ p, bitmap p = true →
    (∃ r ∈ F, r.Covers (p * pageSize)) ∨ (∃ g ∈ G, g.Interior p) ∨ stale p

/-- Where free ranges and grants lie: whole pages below `bound`, pairwise disjoint. -/
structure Layout (bound : ℕ) (F : Finset Extent) (G : Finset Grant) : Prop where
  inside : ∀ r ∈ F, r.1 + r.2 ≤ bound
  grantWf : ∀ g ∈ G, PageExtent g.extent
  grantInside : ∀ g ∈ G, g.start + g.size ≤ bound
  grantsApart : ∀ g ∈ G, ∀ h ∈ G, g ≠ h → g.extent.Apart h.extent
  freeApart : ∀ r ∈ F, ∀ g ∈ G, r.Apart g.extent

/-- The invariant without the bitmap. -/
structure Bare (bound : ℕ) (s : PageRangeAllocator) (F : Finset Extent) (G : Finset Grant) :
    Prop where
  rep : Represents s F
  separate : ∀ r ∈ F, ∀ q ∈ F, r.1 + r.2 ≠ q.1
  layout : Layout bound F G

structure BarePending (bound : ℕ) (s : PageRangeAllocator) (F : Finset Extent)
    (G : Finset Grant) (P : Extent) : Prop where
  pend : Pending s F P
  separate : ∀ r ∈ F, ∀ q ∈ F, r.1 + r.2 ≠ q.1
  layout : Layout bound F G
  inside : P.1 + P.2 ≤ bound
  grantApart : ∀ g ∈ G, P.Apart g.extent

structure Core (s : PageRangeAllocator) (F : Finset Extent) (G : Finset Grant) : Prop where
  bare : Bare (s.bitmapSize * pageSize) s F G
  marked : Marked s.bitmap F G fun _ => False
  area : s.bitmapSize * pageSize ≤ memAreaSize
  inBounds : s.faulted = false

structure Loose (s : PageRangeAllocator) (F : Finset Extent) (G : Finset Grant)
    (P : Extent) : Prop where
  bare : BarePending (s.bitmapSize * pageSize) s F G P
  marked : Marked s.bitmap F G fun p => P.Covers (p * pageSize)
  area : s.bitmapSize * pageSize ≤ memAreaSize
  inBounds : s.faulted = false

/-! ## Bits of one range -/

theorem getBitmapIdx_eq {a : ℕ} (inArea : a < memAreaSize) : getBitmapIdx a = a / pageSize := by
  simp only [getBitmapIdx, memAreaSize, pageSize] at *
  omega

theorem fillBits_apply (bitmap : ℕ → Bool) (idx : ℕ) (value : Bool) (count p : ℕ) :
    fillBits bitmap idx value count p =
      if idx ≤ p ∧ p < idx + count then value else bitmap p := by
  induction count with
  | zero => rw [fillBits, if_neg (by omega)]
  | succ count ih =>
    rw [fillBits]
    by_cases same : p = idx + count
    · rw [same, update_self, if_pos (by omega)]
    · rw [update_of_ne same, ih]
      congr 1
      exact propext (by omega)

section Bits

variable {s : PageRangeAllocator} {P r : Extent}

theorem setBits_ends (wf : PageExtent P) (header : s.mem P.1 = P.2)
    (inArea : P.1 + P.2 ≤ memAreaSize) (value : Bool) (p : ℕ) :
    (s.setBits P.1 value false).bitmap p =
      if p = firstPage P ∨ p = lastPage P then value else s.bitmap p := by
  have pos := wf.pos
  have whole := wf.whole
  have idx : getBitmapIdx P.1 = firstPage P := getBitmapIdx_eq (by omega)
  have last : firstPage P + (P.2 / pageSize - 1) = lastPage P := by
    simp only [firstPage, lastPage, pageSize] at *
    omega
  simp only [setBits, Bool.false_eq_true, if_false, header, idx, last]
  by_cases isLast : p = lastPage P
  · simp [isLast]
  · by_cases isFirst : p = firstPage P
    · rw [update_of_ne isLast, isFirst, update_self, if_pos (.inl rfl)]
    · rw [update_of_ne isLast, update_of_ne isFirst, if_neg (by simp [isFirst, isLast])]

theorem setBits_filled (wf : PageExtent P) (header : s.mem P.1 = P.2)
    (inArea : P.1 + P.2 ≤ memAreaSize) (value : Bool) (p : ℕ) :
    (s.setBits P.1 value true).bitmap p =
      if P.Covers (p * pageSize) then value else s.bitmap p := by
  have pos := wf.pos
  have aligned := wf.aligned
  have whole := wf.whole
  have idx : getBitmapIdx P.1 = P.1 / pageSize := getBitmapIdx_eq (by omega)
  simp only [setBits, if_true, header, idx, fillBits_apply]
  congr 1
  simp only [Covers, pageSize] at *
  exact propext (by omega)

/-- The bits of a range below the end of the bitmap are stored inside it. -/
theorem setBits_faulted (wf : PageExtent P) (header : s.mem P.1 = P.2)
    (inside : P.1 + P.2 ≤ s.bitmapSize * pageSize) (inArea : P.1 + P.2 ≤ memAreaSize)
    (value fill : Bool) : (s.setBits P.1 value fill).faulted = s.faulted := by
  have pos := wf.pos
  have idx : getBitmapIdx P.1 = P.1 / pageSize := getBitmapIdx_eq (by omega)
  have below : ¬ s.bitmapSize ≤ P.1 / pageSize + (P.2 / pageSize - 1) := by
    have := wf.whole
    simp only [pageSize] at *
    omega
  simp only [setBits, header, idx, below]
  split <;> simp

theorem insert_bitmap (wf : PageExtent P) (header : s.mem P.1 = P.2)
    (inArea : P.1 + P.2 ≤ memAreaSize) (p : ℕ) :
    (s.insert true P.1).bitmap p =
      if p = firstPage P ∨ p = lastPage P then true else s.bitmap p := by
  have kept : update s.mem (P.1 + P.2 - 8) P.1 P.1 = P.2 := by
    rw [update_of_ne (wf.start_ne_back wf.aligned), header]
  simp only [PageRangeAllocator.insert, if_true, header]
  split <;> rw [setBits_ends wf kept inArea] <;> rfl

theorem insert_faulted (wf : PageExtent P) (header : s.mem P.1 = P.2)
    (inside : P.1 + P.2 ≤ s.bitmapSize * pageSize) (inArea : P.1 + P.2 ≤ memAreaSize) :
    (s.insert true P.1).faulted = s.faulted := by
  have kept : update s.mem (P.1 + P.2 - 8) P.1 P.1 = P.2 := by
    rw [update_of_ne (wf.start_ne_back wf.aligned), header]
  simp only [PageRangeAllocator.insert, if_true, header]
  split
  · refine (setBits_faulted wf ?_ ?_ inArea true false).trans rfl
    · exact kept
    · exact inside
  · refine (setBits_faulted wf ?_ ?_ inArea true false).trans rfl
    · exact kept
    · exact inside

end Bits

/-! ## Pages of disjoint ranges -/

section Pages

variable {r q : Extent} {p : ℕ}

theorem covers_firstPage (wf : PageExtent r) : r.Covers (firstPage r * pageSize) := by
  have := wf.aligned
  have := wf.pos
  simp only [Covers, firstPage, pageSize] at *
  omega

theorem covers_lastPage (wf : PageExtent r) : r.Covers (lastPage r * pageSize) := by
  have := wf.aligned
  have := wf.whole
  have := wf.pos
  simp only [Covers, lastPage, pageSize] at *
  omega

/-- An end page of one range is no page of a disjoint one. -/
theorem ne_end_of_covers (wf : PageExtent q) (apart : r.Apart q) (inR : r.Covers (p * pageSize)) :
    ¬ (p = firstPage q ∨ p = lastPage q) := by
  rintro (rfl | rfl)
  · exact apart.not_covers inR (covers_firstPage wf)
  · exact apart.not_covers inR (covers_lastPage wf)

end Pages

namespace Marked

variable {bitmap bitmap' : ℕ → Bool} {F : Finset Extent} {G : Finset Grant}
  {stale stale' : ℕ → Prop} {P : Extent}

theorem insert (marked : Marked bitmap F G stale) (wf : PageExtent P)
    (grantWf : ∀ g ∈ G, PageExtent g.extent) (grantApart : ∀ g ∈ G, P.Apart g.extent)
    (set : ∀ p, bitmap' p = if p = firstPage P ∨ p = lastPage P then true else bitmap p)
    (left : ∀ p, stale p → P.Covers (p * pageSize) ∨ stale' p) :
    Marked bitmap' (insert P F) G stale' := by
  have kept : ∀ p, bitmap p = true → bitmap' p = true := by
    intro p old
    rw [set p]
    split
    · rfl
    · exact old
  have outside : ∀ g ∈ G, ∀ p, g.extent.Covers (p * pageSize) → bitmap' p = bitmap p := by
    intro g mem p covers
    rw [set p, if_neg (ne_end_of_covers wf (grantApart g mem).symm covers)]
  refine ⟨?_, ?_, ?_, ?_, ?_⟩
  · refine (forall_mem_insert _ _ _).2 ⟨?_, fun r mem => kept _ (marked.first r mem)⟩
    rw [set, if_pos (.inl rfl)]
  · refine (forall_mem_insert _ _ _).2 ⟨?_, fun r mem => kept _ (marked.last r mem)⟩
    rw [set, if_pos (.inr rfl)]
  · intro g mem
    rw [outside g mem _ (covers_firstPage (grantWf g mem)),
      outside g mem _ (covers_lastPage (grantWf g mem))]
    exact marked.grant g mem
  · intro g mem fill p covers
    rw [outside g mem p covers]
    exact marked.filled g mem fill p covers
  · intro p isSet
    by_cases isEnd : p = firstPage P ∨ p = lastPage P
    · refine .inl ⟨P, mem_insert_self _ _, ?_⟩
      rcases isEnd with rfl | rfl
      · exact covers_firstPage wf
      · exact covers_lastPage wf
    · rw [set p, if_neg isEnd] at isSet
      rcases marked.origin p isSet with ⟨r, mem, covers⟩ | inGrant | isStale
      · exact .inl ⟨r, mem_insert_of_mem mem, covers⟩
      · exact .inr (.inl inGrant)
      · rcases left p isStale with covers | isStale
        · exact .inl ⟨P, mem_insert_self _ _, covers⟩
        · exact .inr (.inr isStale)

/-- Clearing the bits of a pending range that is granted: all of them with `fill`, only
the two ends without. -/
theorem granted (marked : Marked bitmap F G fun p => P.Covers (p * pageSize)) {fill : Bool}
    (wf : PageExtent P) (freeWf : ∀ r ∈ F, PageExtent r) (freeApart : ∀ r ∈ F, P.Apart r)
    (cleared : ∀ p, P.Covers (p * pageSize) →
      (fill = true ∨ p = firstPage P ∨ p = lastPage P) → bitmap' p = false)
    (kept : ∀ p, ¬ P.Covers (p * pageSize) → bitmap' p = bitmap p)
    (fewer : ∀ p, bitmap' p = true → bitmap p = true) :
    Marked bitmap' F (Insert.insert ⟨P.1, P.2, fill⟩ G) fun _ => False := by
  have isFalse : ∀ p, bitmap p = false → bitmap' p = false := by
    intro p old
    by_contra now
    have := fewer p (by simpa using now)
    simp [old] at this
  refine ⟨?_, ?_, ?_, ?_, ?_⟩
  · intro r mem
    rw [kept _ ((freeApart r mem).symm.not_covers (covers_firstPage (freeWf r mem)))]
    exact marked.first r mem
  · intro r mem
    rw [kept _ ((freeApart r mem).symm.not_covers (covers_lastPage (freeWf r mem)))]
    exact marked.last r mem
  · refine (forall_mem_insert _ _ _).2 ⟨?_, fun g mem => ?_⟩
    · exact ⟨cleared _ (covers_firstPage wf) (.inr (.inl rfl)),
        cleared _ (covers_lastPage wf) (.inr (.inr rfl))⟩
    · exact ⟨isFalse _ (marked.grant g mem).1, isFalse _ (marked.grant g mem).2⟩
  · refine (forall_mem_insert _ _ _).2 ⟨fun isFill p covers => ?_, fun g mem isFill p covers => ?_⟩
    · exact cleared p covers (.inl isFill)
    · exact isFalse p (marked.filled g mem isFill p covers)
  · intro p isSet
    rcases marked.origin p (fewer p isSet) with inFree | ⟨g, mem, interior⟩ | covers
    · exact .inl inFree
    · exact .inr (.inl ⟨g, mem_insert_of_mem mem, interior⟩)
    · refine .inr (.inl ⟨_, mem_insert_self _ _, ?_⟩)
      -- A bit still set in the new grant is neither filled nor one of the end pages.
      have notCleared : ¬ (fill = true ∨ p = firstPage P ∨ p = lastPage P) := fun h => by
        simp [cleared p covers h] at isSet
      have aligned := wf.aligned
      have whole := wf.whole
      simp only [not_or, Bool.not_eq_true, firstPage, lastPage] at notCleared
      obtain ⟨unfilled, notFirst, notLast⟩ := notCleared
      refine ⟨unfilled, ?_, ?_⟩ <;>
        simp only [Covers, pageSize] at * <;> omega

theorem erase (marked : Marked bitmap F G stale) {r : Extent}
    (left : ∀ p, stale p ∨ r.Covers (p * pageSize) → stale' p) :
    Marked bitmap (F.erase r) G stale' := by
  have sub : ∀ {q}, q ∈ F.erase r → q ∈ F := mem_of_mem_erase
  refine ⟨fun q qm => marked.first q (sub qm), fun q qm => marked.last q (sub qm),
    marked.grant, marked.filled, fun p isSet => ?_⟩
  rcases marked.origin p isSet with ⟨q, qm, covers⟩ | inGrant | isStale
  · by_cases same : q = r
    · exact .inr (.inr (left p (.inr (same ▸ covers))))
    · exact .inl ⟨q, mem_erase.2 ⟨same, qm⟩, covers⟩
  · exact .inr (.inl inGrant)
  · exact .inr (.inr (left p (.inl isStale)))

end Marked

/-! ## Without the bitmap -/

/-- No free range ends where `P` starts. -/
def LeftClear (F : Finset Extent) (P : Extent) : Prop := ∀ r ∈ F, r.1 + r.2 ≠ P.1

/-- No free range starts where `P` ends. -/
def RightClear (F : Finset Extent) (P : Extent) : Prop := ∀ r ∈ F, P.1 + P.2 ≠ r.1

theorem Layout.erase {bound : ℕ} {F : Finset Extent} {G : Finset Grant} (layout : Layout bound F G)
    (r : Extent) : Layout bound (F.erase r) G :=
  ⟨fun q qm => layout.inside q (mem_of_mem_erase qm), layout.grantWf, layout.grantInside,
    layout.grantsApart, fun q qm => layout.freeApart q (mem_of_mem_erase qm)⟩

/-- Taking a free range out of its container leaves it pending, with its neighbours
granted or unmanaged. -/
theorem Bare.loosen {bound : ℕ} {s : PageRangeAllocator} {F : Finset Extent} {G : Finset Grant}
    {r : Extent} (bare : Bare bound s F G) (mem : r ∈ F) :
    BarePending bound (s.remove r.1) (F.erase r) G r ∧
      LeftClear (F.erase r) r ∧ RightClear (F.erase r) r := by
  have sub : ∀ {q}, q ∈ F.erase r → q ∈ F := mem_of_mem_erase
  refine ⟨⟨bare.rep.pend mem, fun q qm p pm => bare.separate q (sub qm) p (sub pm),
    bare.layout.erase r, bare.layout.inside r mem, bare.layout.freeApart r mem⟩,
    fun q qm => bare.separate q (sub qm) r mem, fun q qm => bare.separate r mem q (sub qm)⟩

namespace BarePending

variable {bound k : ℕ} {s : PageRangeAllocator} {F : Finset Extent} {G : Finset Grant}
  {P r : Extent}

section

variable (bare : BarePending bound s F G P)

include bare

theorem insertLayout {q : Extent} (part : P.1 ≤ q.1)
    (partEnd : q.1 + q.2 ≤ P.1 + P.2) : Layout bound (insert q F) G := by
  refine ⟨?_, bare.layout.grantWf, bare.layout.grantInside, bare.layout.grantsApart, ?_⟩
  · exact (forall_mem_insert _ _ _).2 ⟨partEnd.trans bare.inside, bare.layout.inside⟩
  · exact (forall_mem_insert _ _ _).2
      ⟨fun g gm => (bare.grantApart g gm).part part partEnd, bare.layout.freeApart⟩

/-- Inserting a part of the pending range keeps the free ranges from touching when the
part's ends touch none. -/
theorem insertSeparate {q : Extent} (pos : 0 < q.2) (left : LeftClear F q)
    (right : RightClear F q) : ∀ r ∈ insert q F, ∀ r' ∈ insert q F, r.1 + r.2 ≠ r'.1 := by
  intro r rm r' rm'
  rcases mem_insert.1 rm with rnew | rold <;>
    rcases mem_insert.1 rm' with rnew' | rold'
  · subst rnew rnew'
    omega
  · exact rnew ▸ right r' rold'
  · exact rnew' ▸ left r rold
  · exact bare.separate r rold r' rold'

theorem insert (useBitmap : Bool) (left : LeftClear F P)
    (right : RightClear F P) : Bare bound (s.insert useBitmap P.1) (Insert.insert P F) G where
  rep := bare.pend.insert useBitmap
  separate := bare.insertSeparate bare.pend.wf.pos left right
  layout := bare.insertLayout (le_refl _) (le_refl _)

theorem grant (fill : Bool) : Bare bound s F (Insert.insert ⟨P.1, P.2, fill⟩ G) := by
  refine ⟨bare.pend.rep, bare.separate, bare.layout.inside, ?_, ?_, ?_, ?_⟩
  · exact (forall_mem_insert _ _ _).2 ⟨bare.pend.wf, bare.layout.grantWf⟩
  · exact (forall_mem_insert _ _ _).2 ⟨bare.inside, bare.layout.grantInside⟩
  · intro g gm h hm ne
    rcases mem_insert.1 gm with gnew | gold <;>
      rcases mem_insert.1 hm with hnew | hold
    · exact absurd (gnew.trans hnew.symm) ne
    · subst gnew; exact bare.grantApart h hold
    · subst hnew; exact (bare.grantApart g gold).symm
    · exact bare.layout.grantsApart g gold h hold ne
  · exact fun r rm => (forall_mem_insert _ _ _).2
      ⟨(bare.pend.apart r rm).symm, bare.layout.freeApart r rm⟩

theorem cutBack (useBitmap : Bool) (right : RightClear F P)
    (whole : k % pageSize = 0) (pos : 0 < k) (less : k < P.2) :
    BarePending bound (((s.write (P.1 + k) (P.2 - k)).insert useBitmap (P.1 + k)).write P.1 k)
      (Insert.insert (P.1 + k, P.2 - k) F) G (P.1, k) := by
  have pend := bare.pend.cutBack useBitmap whole pos less
  have restWf : PageExtent (P.1 + k, P.2 - k) := pend.rep.wf _ (mem_insert_self _ _)
  refine ⟨pend, bare.insertSeparate restWf.pos ?_ ?_,
    bare.insertLayout (by simp) (by simp; omega), ?_, ?_⟩
  · intro r mem
    have := bare.pend.apart r mem
    simp only [Apart] at *
    omega
  · intro r mem
    have := right r mem
    omega
  · have := bare.inside
    omega
  · exact fun g mem => (bare.grantApart g mem).part (le_refl _) (by simp only; omega)

theorem cutFront (useBitmap : Bool) (left : LeftClear F P)
    (whole : k % pageSize = 0) (pos : 0 < k) (less : k < P.2) :
    BarePending bound (((s.write P.1 (P.2 - k)).insert useBitmap P.1).write (P.1 + (P.2 - k)) k)
      (Insert.insert (P.1, P.2 - k) F) G (P.1 + (P.2 - k), k) := by
  have pend := bare.pend.cutFront useBitmap whole pos less
  have frontWf : PageExtent (P.1, P.2 - k) := pend.rep.wf _ (mem_insert_self _ _)
  refine ⟨pend, bare.insertSeparate frontWf.pos left ?_,
    bare.insertLayout (by simp) (by simp), ?_, ?_⟩
  · intro r mem
    have := bare.pend.apart r mem
    simp only [Apart] at *
    omega
  · have := bare.inside
    omega
  · exact fun g mem =>
      (bare.grantApart g mem).part (by simp) (by simp only; omega)

end

/-- The two ways a free range `r` touches the pending range `P`, with their union. -/
def Touch (r P P' : Extent) : Prop :=
  r.1 + r.2 = P.1 ∧ P' = (r.1, r.2 + P.2) ∨ P.1 + P.2 = r.1 ∧ P' = (P.1, P.2 + r.2)

theorem Touch.covers {r P P' : Extent} (touch : Touch r P P') (x : ℕ) :
    P'.Covers x ↔ r.Covers x ∨ P.Covers x := by
  rcases touch with ⟨adjacent, rfl⟩ | ⟨adjacent, rfl⟩ <;> simp only [Covers] <;> omega

theorem absorb {s' : PageRangeAllocator} {P' : Extent} (bare : BarePending bound s F G P)
    (mem : r ∈ F) (pend : Pending s' (F.erase r) P') (touch : Touch r P P')
    (inside : P.1 + P.2 ≤ bound) : BarePending bound s' (F.erase r) G P' := by
  have sub : ∀ {q}, q ∈ F.erase r → q ∈ F := mem_of_mem_erase
  have rInside := bare.layout.inside r mem
  refine ⟨pend, fun q qm p pm => bare.separate q (sub qm) p (sub pm), bare.layout.erase r, ?_, ?_⟩
  · rcases touch with ⟨adjacent, rfl⟩ | ⟨adjacent, rfl⟩ <;> simp only <;> omega
  · intro g gm
    have := bare.grantApart g gm
    have := bare.layout.freeApart r mem g gm
    have := (bare.layout.grantWf g gm).pos
    rcases touch with ⟨adjacent, rfl⟩ | ⟨adjacent, rfl⟩ <;>
      simp only [Apart] at * <;> omega

end BarePending

/-! ## With the bitmap -/

theorem Core.loosen {s : PageRangeAllocator} {F : Finset Extent} {G : Finset Grant} {r : Extent}
    (core : Core s F G) (mem : r ∈ F) :
    Loose (s.remove r.1) (F.erase r) G r ∧ LeftClear (F.erase r) r ∧ RightClear (F.erase r) r := by
  obtain ⟨bare, left, right⟩ := core.bare.loosen mem
  refine ⟨⟨by simpa using bare, ?_, by simpa using core.area, by simpa using core.inBounds⟩,
    left, right⟩
  simp only [remove_bitmap]
  exact core.marked.erase fun p h => h.resolve_left id

namespace Loose

variable {s : PageRangeAllocator} {F : Finset Extent} {G : Finset Grant} {P r : Extent} {k : ℕ}

section

variable (loose : Loose s F G P)

include loose

theorem inArea : P.1 + P.2 ≤ memAreaSize :=
  loose.bare.inside.trans loose.area

theorem insert (left : LeftClear F P) (right : RightClear F P) :
    Core (s.insert true P.1) (Insert.insert P F) G where
  bare := by simpa using loose.bare.insert true left right
  marked := loose.marked.insert loose.bare.pend.wf loose.bare.layout.grantWf loose.bare.grantApart
    (insert_bitmap loose.bare.pend.wf loose.bare.pend.header loose.inArea)
    fun _ covers => .inl covers
  area := by simpa using loose.area
  inBounds := (insert_faulted loose.bare.pend.wf loose.bare.pend.header loose.bare.inside
    loose.inArea).trans loose.inBounds

theorem grant (fill : Bool) :
    Core (s.setBits P.1 false fill) F (Insert.insert ⟨P.1, P.2, fill⟩ G) := by
  have wf := loose.bare.pend.wf
  have header := loose.bare.pend.header
  have bare := loose.bare.grant fill
  refine ⟨⟨bare.rep.setBits _ _ _, bare.separate, by simpa using bare.layout⟩, ?_,
    by simpa using loose.area,
    (setBits_faulted wf header loose.bare.inside loose.inArea false fill).trans loose.inBounds⟩
  refine loose.marked.granted wf loose.bare.pend.rep.wf loose.bare.pend.apart ?_ ?_ ?_ <;> cases fill
  · intro p _ isEnd
    rw [setBits_ends wf header loose.inArea, if_pos (by simpa using isEnd)]
  · intro p covers _
    rw [setBits_filled wf header loose.inArea, if_pos covers]
  · intro p outside
    rw [setBits_ends wf header loose.inArea, if_neg]
    rintro (rfl | rfl)
    · exact outside (covers_firstPage wf)
    · exact outside (covers_lastPage wf)
  · intro p outside
    rw [setBits_filled wf header loose.inArea, if_neg outside]
  · intro p
    rw [setBits_ends wf header loose.inArea]
    split <;> simp
  · intro p
    rw [setBits_filled wf header loose.inArea]
    split <;> simp

/-- The bits after a part `q` of the pending range was inserted. -/
theorem insertPart {q : Extent} (kept : Extent) (wf : PageExtent q)
    (part : P.1 ≤ q.1) (partEnd : q.1 + q.2 ≤ P.1 + P.2)
    (split : ∀ x, P.Covers x → q.Covers x ∨ kept.Covers x) :
    Marked ((s.write q.1 q.2).insert true q.1).bitmap (Insert.insert q F) G
        (fun p => kept.Covers (p * pageSize)) ∧
      ((s.write q.1 q.2).insert true q.1).faulted = false := by
  have inArea := partEnd.trans loose.inArea
  refine ⟨loose.marked.insert wf loose.bare.layout.grantWf (fun g mem => ?_) (fun p => ?_)
    fun p => split _, ?_⟩
  · exact (loose.bare.grantApart g mem).part part partEnd
  · exact insert_bitmap (s := s.write q.1 q.2) wf (by simp) inArea p
  · exact (insert_faulted (s := s.write q.1 q.2) wf (by simp)
      (partEnd.trans loose.bare.inside) inArea).trans loose.inBounds

theorem cutBack (right : RightClear F P) (whole : k % pageSize = 0)
    (pos : 0 < k) (less : k < P.2) :
    Loose (((s.write (P.1 + k) (P.2 - k)).insert true (P.1 + k)).write P.1 k)
      (Insert.insert (P.1 + k, P.2 - k) F) G (P.1, k) := by
  have bare := loose.bare.cutBack true right whole pos less
  obtain ⟨marked, inBounds⟩ := loose.insertPart (P.1, k)
    (bare.pend.rep.wf _ (mem_insert_self _ _)) (by simp) (by simp; omega) fun x covers => by
      simp only [Covers] at *
      omega
  exact ⟨by simpa using bare, marked, by simpa using loose.area, inBounds⟩

theorem cutFront (left : LeftClear F P) (whole : k % pageSize = 0)
    (pos : 0 < k) (less : k < P.2) :
    Loose (((s.write P.1 (P.2 - k)).insert true P.1).write (P.1 + (P.2 - k)) k)
      (Insert.insert (P.1, P.2 - k) F) G (P.1 + (P.2 - k), k) := by
  have bare := loose.bare.cutFront true left whole pos less
  obtain ⟨marked, inBounds⟩ := loose.insertPart (q := (P.1, P.2 - k))
    (P.1 + (P.2 - k), k) (bare.pend.rep.wf _ (mem_insert_self _ _)) (by simp) (by simp)
    fun x covers => by
      simp only [Covers] at *
      omega
  exact ⟨by simpa using bare, marked, by simpa using loose.area, inBounds⟩

theorem absorb {s' : PageRangeAllocator} {P' : Extent} (mem : r ∈ F)
    (pend : Pending s' (F.erase r) P') (touch : BarePending.Touch r P P')
    (bits : SameBits s s') (size : s'.bitmapSize = s.bitmapSize) :
    Loose s' (F.erase r) G P' := by
  refine ⟨?_, ?_, by rw [size]; exact loose.area, bits.faulted.trans loose.inBounds⟩
  · rw [size]
    exact loose.bare.absorb mem pend touch loose.bare.inside
  · rw [bits.bitmap]
    exact loose.marked.erase fun p h => (touch.covers _).2 h.symm

end

end Loose

/-! ## What `free` reads -/

section Neighbours

variable {bitmap : ℕ → Bool} {F : Finset Extent} {G : Finset Grant} {P : Extent}

/-- The bit before a range that is neither free nor granted is set exactly when a free
range ends there. -/
theorem Marked.prev_bit {stale : ℕ → Prop} (marked : Marked bitmap F G stale) (wf : PageExtent P)
    (freeWf : ∀ r ∈ F, PageExtent r) (freeApart : ∀ r ∈ F, P.Apart r)
    (grantApart : ∀ g ∈ G, P.Apart g.extent) (inP : ∀ p, stale p → P.Covers (p * pageSize)) :
    P.1 / pageSize ≠ 0 ∧ bitmap (P.1 / pageSize - 1) = true ↔ ∃ r ∈ F, r.1 + r.2 = P.1 := by
  have aligned := wf.aligned
  constructor
  · rintro ⟨nonzero, isSet⟩
    rcases marked.origin _ isSet with ⟨r, mem, covers⟩ | ⟨g, mem, interior⟩ | isStale
    · refine ⟨r, mem, ?_⟩
      have := freeApart r mem
      have := (freeWf r mem).aligned
      have := (freeWf r mem).whole
      simp only [Covers, Apart, pageSize] at *
      omega
    · have := grantApart g mem
      obtain ⟨-, low, high⟩ := interior
      simp only [Apart, Grant.extent, pageSize] at *
      omega
    · have := inP _ isStale
      simp only [Covers, pageSize] at *
      omega
  · rintro ⟨r, mem, adjacent⟩
    have page := (freeWf r mem).page_le
    have isLast : P.1 / pageSize - 1 = lastPage r := by rw [lastPage, adjacent]
    refine ⟨?_, by rw [isLast]; exact marked.last r mem⟩
    simp only [pageSize] at *
    omega

/-- The bit behind it is set exactly when a free range starts there. -/
theorem Marked.next_bit {stale : ℕ → Prop} (marked : Marked bitmap F G stale) (wf : PageExtent P)
    (freeApart : ∀ r ∈ F, P.Apart r) (grantApart : ∀ g ∈ G, P.Apart g.extent)
    (inP : ∀ p, stale p → P.Covers (p * pageSize)) :
    bitmap ((P.1 + P.2) / pageSize) = true ↔ ∃ r ∈ F, P.1 + P.2 = r.1 := by
  have aligned := wf.aligned
  have whole := wf.whole
  constructor
  · intro isSet
    rcases marked.origin _ isSet with ⟨r, mem, covers⟩ | ⟨g, mem, interior⟩ | isStale
    · refine ⟨r, mem, ?_⟩
      have := freeApart r mem
      simp only [Covers, Apart, pageSize] at *
      omega
    · have := grantApart g mem
      obtain ⟨-, low, high⟩ := interior
      simp only [Apart, Grant.extent, pageSize] at *
      omega
    · have := inP _ isStale
      simp only [Covers, pageSize] at *
      omega
  · rintro ⟨r, mem, adjacent⟩
    have isFirst : (P.1 + P.2) / pageSize = firstPage r := by rw [firstPage, adjacent]
    rw [isFirst]
    exact marked.first r mem

end Neighbours

namespace Loose

variable {s : PageRangeAllocator} {F : Finset Extent} {G : Finset Grant} {P : Extent}

section

variable (loose : Loose s F G P)

include loose

theorem getBitmapIdx : getBitmapIdx P.1 = P.1 / pageSize :=
  getBitmapIdx_eq (by have := loose.inArea; have := loose.bare.pend.wf.pos; omega)

/-- After the first test of `free` no free range ends where the pending one starts. -/
theorem freePrev :
    ∃ F' P', (s.freePrev P.1).1 = P'.1 ∧ Loose (s.freePrev P.1).2 F' G P' ∧ LeftClear F' P' ∧
      ∀ x, P'.Covers x ∨ Covered F' x ↔ P.Covers x ∨ Covered F x := by
  have tested := loose.marked.prev_bit loose.bare.pend.wf loose.bare.pend.rep.wf
    loose.bare.pend.apart loose.bare.grantApart fun _ covers => covers
  simp only [PageRangeAllocator.freePrev, loose.getBitmapIdx, Bool.and_eq_true, bne_iff_ne]
  by_cases touches : ∃ r ∈ F, r.1 + r.2 = P.1
  · rw [if_pos (tested.2 touches)]
    obtain ⟨r, mem, adjacent⟩ := touches
    obtain ⟨found, pend⟩ := loose.bare.pend.mergePrev mem adjacent
    have touch : BarePending.Touch r P (r.1, r.2 + P.2) := .inl ⟨adjacent, rfl⟩
    refine ⟨F.erase r, (r.1, r.2 + P.2), found, loose.absorb mem pend touch
      (mergePrev_bits _ _) (mergePrev_store _ _).size,
      fun q qm => loose.bare.separate q (mem_of_mem_erase qm) r mem, fun x => ?_⟩
    rw [touch.covers, covered_erase mem]
    tauto
  · rw [if_neg (fun h => touches (tested.1 h))]
    exact ⟨F, P, rfl, loose, fun r mem adjacent => touches ⟨r, mem, adjacent⟩,
      fun x => Iff.rfl⟩

/-- After the second test none starts where it ends either. -/
theorem freeNext (left : LeftClear F P) :
    ∃ F' P', P'.1 = P.1 ∧ Loose (s.freeNext P.1) F' G P' ∧ LeftClear F' P' ∧ RightClear F' P' ∧
      ∀ x, P'.Covers x ∨ Covered F' x ↔ P.Covers x ∨ Covered F x := by
  have tested := loose.marked.next_bit loose.bare.pend.wf loose.bare.pend.apart
    loose.bare.grantApart fun _ covers => covers
  have aligned := loose.bare.pend.wf.aligned
  have next : P.1 / pageSize + P.2 / pageSize = (P.1 + P.2) / pageSize := by
    simp only [pageSize] at *
    omega
  simp only [PageRangeAllocator.freeNext, loose.getBitmapIdx, loose.bare.pend.header, next,
    Bool.and_eq_true, decide_eq_true_eq]
  by_cases touches : ∃ r ∈ F, P.1 + P.2 = r.1
  · obtain ⟨r, mem, adjacent⟩ := touches
    have below : (P.1 + P.2) / pageSize < s.bitmapSize := by
      have := loose.bare.layout.inside r mem
      have := (loose.bare.pend.rep.wf r mem).page_le
      simp only [pageSize] at *
      omega
    rw [if_pos ⟨below, tested.2 ⟨r, mem, adjacent⟩⟩]
    have pend := loose.bare.pend.mergeNext mem adjacent
    have touch : BarePending.Touch r P (P.1, P.2 + r.2) := .inr ⟨adjacent, rfl⟩
    refine ⟨F.erase r, (P.1, P.2 + r.2), rfl, loose.absorb mem pend touch
      (mergeNext_bits _ _) (mergeNext_store _ _).size,
      fun q qm => left q (mem_of_mem_erase qm), fun q qm => ?_, fun x => ?_⟩
    · have := loose.bare.separate r mem q (mem_of_mem_erase qm)
      omega
    · rw [touch.covers, covered_erase mem]
      tauto
  · rw [if_neg (fun h => touches (tested.1 h.2))]
    exact ⟨F, P, rfl, loose, left, fun r mem adjacent => touches ⟨r, mem, adjacent⟩,
      fun x => Iff.rfl⟩

/-- **`free` makes the pending range free and merges it with both neighbours.** -/
theorem free : ∃ F', Core (s.free P.1) F' G ∧ ∀ x, Covered F' x ↔ P.Covers x ∨ Covered F x := by
  obtain ⟨F₁, P₁, start, loose₁, left₁, cover₁⟩ := loose.freePrev
  obtain ⟨F₂, P₂, start₂, loose₂, left₂, right₂, cover₂⟩ := loose₁.freeNext left₁
  refine ⟨Insert.insert P₂ F₂, ?_, fun x => ?_⟩
  · have core := loose₂.insert left₂ right₂
    rw [start₂] at core
    simpa only [PageRangeAllocator.free, start] using core
  · rw [covered_insert, cover₂, cover₁]

end

end Loose

end MiniOsv.Mempool
