/-
# Mempool.InitialAdd -- adding memory and growing the bitmap

`initial_add` of a range that ends behind the bitmap grows it: the range is linked
without bits, all bits are reset, the bitset is resized, and the end bits of every free
range are set again.  The resize may take a new buffer from the ranges themselves and
leave the old one in `_deferred_free`, which is freed once the bits are right.

`Core.initialAdd` is the specification: the added pages become free, the buffer of the
bitset is a grant like any other, and `free_memory` follows the two.
-/
import MiniOsv.Mempool.Allocate

namespace MiniOsv.Mempool

open Theory Finset Option

namespace PageRangeAllocator

/-- The buffer of the bitset, as the grant that the allocator holds itself. -/
def bufGrants (s : PageRangeAllocator) : Finset Grant :=
  if s.bitmapCapacity = 0 then ∅ else {⟨s.bitmapBuf, getSize s.bitmapCapacity, false⟩}

theorem bufGrants_congr {s t : PageRangeAllocator} (buf : t.bitmapBuf = s.bitmapBuf)
    (capacity : t.bitmapCapacity = s.bitmapCapacity) : t.bufGrants = s.bufGrants := by
  simp only [bufGrants, buf, capacity]

theorem getSize_whole (blocks : ℕ) : getSize blocks % pageSize = 0 := by
  simp only [getSize, alignUp, alignDown, pageSize]
  omega

theorem getSize_pos {blocks : ℕ} (pos : 0 < blocks) (small : blocks < 2 ^ 60) :
    0 < getSize blocks := by
  simp only [getSize, alignUp, alignDown, wrap64, pageSize]
  omega

/-! ## Bits -/

theorem takeFront_false_bits (s : PageRangeAllocator) (pr size : ℕ) :
    SameBits s (takeFront false s pr size).2 := by
  simp only [takeFront, keepFront, Bool.false_eq_true, if_false]
  split
  · have linked := insert_false_bits (s.write (pr + size) (s.mem pr - size)) (pr + size)
    exact ⟨linked.bitmap, linked.faulted⟩
  · exact ⟨rfl, rfl⟩

theorem setBits_eq (s : PageRangeAllocator) (pr : ℕ) (value fill : Bool) :
    s.setBits pr value fill = { s with
      bitmap := (s.setBits pr value fill).bitmap
      faulted := (s.setBits pr value fill).faulted } := by
  simp only [setBits]
  split <;> rfl

theorem foldl_setBits_eq (l : List ℕ) (s : PageRangeAllocator) :
    ∃ b f, l.foldl (fun s pr => s.setBits pr true false) s = { s with bitmap := b, faulted := f } := by
  induction l generalizing s with
  | nil => exact ⟨s.bitmap, s.faulted, rfl⟩
  | cons a rest ih =>
    obtain ⟨b, f, result⟩ := ih (s.setBits a true false)
    exact ⟨b, f, by rw [List.foldl_cons, result, setBits_eq]⟩

theorem foldl_setBits_faulted (l : List ℕ) (s : PageRangeAllocator)
    (area : s.bitmapSize * pageSize ≤ memAreaSize)
    (wf : ∀ a ∈ l, PageExtent (a, s.mem a) ∧ a + s.mem a ≤ s.bitmapSize * pageSize) :
    (l.foldl (fun s pr => s.setBits pr true false) s).faulted = s.faulted := by
  induction l generalizing s with
  | nil => rfl
  | cons a rest ih =>
    obtain ⟨awf, inside⟩ := wf a List.mem_cons_self
    rw [List.foldl_cons, ih (s.setBits a true false) (by simpa using area) (by
      simpa using fun b mem => wf b (List.mem_cons_of_mem a mem))]
    exact setBits_faulted (P := (a, s.mem a)) awf rfl inside (inside.trans area) true false

/-- The end bits of each listed range are set and no others. -/
theorem foldl_setBits_bitmap (l : List ℕ) (s : PageRangeAllocator)
    (wf : ∀ a ∈ l, PageExtent (a, s.mem a) ∧ a + s.mem a ≤ memAreaSize) (p : ℕ) :
    (l.foldl (fun s pr => s.setBits pr true false) s).bitmap p = true ↔
      s.bitmap p = true ∨ ∃ a ∈ l, p = firstPage (a, s.mem a) ∨ p = lastPage (a, s.mem a) := by
  induction l generalizing s with
  | nil => simp
  | cons a rest ih =>
    obtain ⟨awf, inArea⟩ := wf a List.mem_cons_self
    have ends := setBits_ends (P := (a, s.mem a)) (s := s) awf rfl inArea true p
    rw [List.foldl_cons, ih (s.setBits a true false) (by
      simpa using fun b mem => wf b (List.mem_cons_of_mem a mem)), ends]
    split <;> rename_i isEnd <;> simp [isEnd]

theorem growPrev_bits (s : PageRangeAllocator) (pr : ℕ) : SameBits s (s.growPrev pr).2 := by
  simp only [growPrev]
  split
  · exact mergePrev_bits _ _
  · exact ⟨rfl, rfl⟩

theorem growPrev_store (s : PageRangeAllocator) (pr : ℕ) : SameBitmapStore s (s.growPrev pr).2 := by
  simp only [growPrev]
  split
  · exact mergePrev_store _ _
  · exact SameBitmapStore.refl s

variable {s : PageRangeAllocator}

theorem freeDeferred_none (idle : s.deferredFree = none) : s.freeDeferred = s := by
  simp only [freeDeferred, idle]

theorem freeDeferred_some {deferred : ℕ} (left : s.deferredFree = some deferred) :
    s.freeDeferred = { s.free deferred with deferredFree := none } := by
  simp only [freeDeferred, left]

end PageRangeAllocator

open PageRangeAllocator

section InitialAdd

variable {s s' : PageRangeAllocator} {F : Finset Extent} {G : Finset Grant} {P : Extent}
  {bound : ℕ}

/-- Fields besides memory and containers do not matter to `Bare`. -/
theorem Bare.congr (bare : Bare bound s F G) (mem : s'.mem = s.mem)
    (container : s'.container = s.container) (notEmpty : s'.notEmpty = s.notEmpty) :
    Bare bound s' F G :=
  ⟨bare.rep.congr container notEmpty fun r _ => by simp [mem], bare.separate, bare.layout⟩

theorem Core.congr (core : Core s F G) (mem : s'.mem = s.mem)
    (container : s'.container = s.container) (notEmpty : s'.notEmpty = s.notEmpty)
    (bits : SameBits s s') (size : s'.bitmapSize = s.bitmapSize) : Core s' F G :=
  ⟨by rw [size]; exact core.bare.congr mem container notEmpty,
    by rw [bits.bitmap]; exact core.marked, by rw [size]; exact core.area,
    bits.faulted.trans core.inBounds⟩

theorem Layout.mono {bound' : ℕ} (layout : Layout bound F G) (le : bound ≤ bound') :
    Layout bound' F G :=
  ⟨fun r rm => (layout.inside r rm).trans le, layout.grantWf,
    fun g gm => (layout.grantInside g gm).trans le, layout.grantsApart, layout.freeApart⟩

/-- A range that is neither free nor granted, with its header written. -/
structure Fresh (s : PageRangeAllocator) (F : Finset Extent) (G : Finset Grant) (P : Extent) :
    Prop where
  wf : PageExtent P
  inArea : P.1 + P.2 ≤ memAreaSize
  header : s.mem P.1 = P.2
  freeApart : ∀ r ∈ F, P.Apart r
  grantApart : ∀ g ∈ G, P.Apart g.extent

/-! ## The range is linked -/

theorem Core.growPrev_test (core : Core s F G) (fresh : Fresh s F G P)
    (beyond : s.bitmapSize * pageSize < P.1 + P.2) :
    (decide (s.bitmapSize > (getBitmapIdx P.1 + (2 ^ 32 - 1)) % 2 ^ 32) &&
        s.bitmap ((getBitmapIdx P.1 + (2 ^ 32 - 1)) % 2 ^ 32)) = true ↔
      ∃ r ∈ F, r.1 + r.2 = P.1 := by
  have wf := fresh.wf
  have pos := wf.pos
  have aligned := wf.aligned
  have inArea := fresh.inArea
  have tested := core.marked.prev_bit wf core.bare.rep.wf fresh.freeApart fresh.grantApart
    fun _ impossible => impossible.elim
  rw [getBitmapIdx_eq (by omega), Bool.and_eq_true, decide_eq_true_eq]
  by_cases atZero : P.1 = 0
  · -- The index wraps to the last one, and the bitmap does not reach that far.
    constructor
    · rintro ⟨far, -⟩
      simp only [atZero, pageSize, memAreaSize] at *
      omega
    · rintro ⟨r, mem, adjacent⟩
      have := (core.bare.rep.wf r mem).pos
      omega
  · have index : (P.1 / pageSize + (2 ^ 32 - 1)) % 2 ^ 32 = P.1 / pageSize - 1 := by
      simp only [pageSize, memAreaSize] at *
      omega
    rw [index, ← tested]
    constructor
    · rintro ⟨-, isSet⟩
      refine ⟨?_, isSet⟩
      omega
    · rintro ⟨nonzero, isSet⟩
      refine ⟨?_, isSet⟩
      obtain ⟨r, mem, adjacent⟩ := tested.1 ⟨nonzero, isSet⟩
      have := core.bare.layout.inside r mem
      simp only [pageSize] at *
      omega

/-- Up to `insert<false>`: the range is free, merged with the range before it. -/
theorem Core.growLink (core : Core s F G) (fresh : Fresh s F G P)
    (beyond : s.bitmapSize * pageSize < P.1 + P.2) :
    ∃ F', Bare (P.1 + P.2) ((s.growPrev P.1).2.insert false (s.growPrev P.1).1) F' G ∧
      ∀ x, Covered F' x ↔ P.Covers x ∨ Covered F x := by
  have layout := core.bare.layout.mono beyond.le
  have pending : BarePending (P.1 + P.2) s F G P :=
    ⟨⟨core.bare.rep, fresh.header, fresh.wf, fresh.freeApart⟩, core.bare.separate, layout,
      le_refl _, fresh.grantApart⟩
  have right : ∀ r ∈ F, r.1 + r.2 < P.1 + P.2 := fun r mem =>
    (core.bare.layout.inside r mem).trans_lt beyond
  have tested := core.growPrev_test fresh beyond
  simp only [growPrev]
  by_cases touches : ∃ r ∈ F, r.1 + r.2 = P.1
  · rw [if_pos (tested.2 touches)]
    obtain ⟨r, mem, adjacent⟩ := touches
    obtain ⟨found, pend⟩ := pending.pend.mergePrev mem adjacent
    have touch : BarePending.Touch r P (r.1, r.2 + P.2) := .inl ⟨adjacent, rfl⟩
    have merged := pending.absorb mem pend touch (le_refl _)
    have linked := merged.insert false
      (fun q qm => core.bare.separate q (mem_of_mem_erase qm) r mem)
      (fun q qm => by
        have := right q (mem_of_mem_erase qm)
        omega)
    rw [found]
    refine ⟨_, linked, fun x => ?_⟩
    rw [covered_insert, touch.covers, covered_erase mem]
    tauto
  · rw [if_neg (fun h => touches (tested.1 h))]
    have linked := pending.insert false (fun r mem adjacent => touches ⟨r, mem, adjacent⟩)
      (fun r mem => by
        have := right r mem
        omega)
    exact ⟨_, linked, fun x => covered_insert⟩

/-! ## The bits are set again -/

/-- Over a cleared bitmap, `set_bits` of every free range marks exactly the free ranges. -/
theorem Bare.markAll (bare : Bare (s.bitmapSize * pageSize) s F G)
    (cleared : s.bitmap = fun _ => false) (area : s.bitmapSize * pageSize ≤ memAreaSize)
    (inBounds : s.faulted = false) :
    Core s.markAll F G ∧ ∃ b f, s.markAll = { s with bitmap := b, faulted := f } := by
  obtain ⟨b, f, same⟩ := foldl_setBits_eq (s.forEachList 0) s
  have same' : s.markAll = { s with bitmap := b, faulted := f } := same
  have stored : s.markAll.faulted = false :=
    (foldl_setBits_faulted _ s area fun a mem => by
      have inF := bare.rep.of_mem_forEachList mem
      exact ⟨bare.rep.wf _ inF, bare.layout.inside _ inF⟩).trans inBounds
  have marks : ∀ p, s.markAll.bitmap p = true ↔
      ∃ r ∈ F, p = firstPage r ∨ p = lastPage r := by
    intro p
    refine (foldl_setBits_bitmap _ s (fun a mem => ?_) p).trans ?_
    · have inF := bare.rep.of_mem_forEachList mem
      exact ⟨bare.rep.wf _ inF, (bare.layout.inside _ inF).trans area⟩
    · simp only [cleared, Bool.false_eq_true, false_or]
      constructor
      · rintro ⟨a, mem, isEnd⟩
        exact ⟨_, bare.rep.of_mem_forEachList mem, isEnd⟩
      · rintro ⟨r, mem, isEnd⟩
        refine ⟨r.1, bare.rep.mem_forEachList mem (Nat.zero_le _), ?_⟩
        rwa [bare.rep.header r mem]
  have granted : ∀ g ∈ G, ∀ p, g.extent.Covers (p * pageSize) → s.markAll.bitmap p = false := by
    intro g gm p covers
    rw [Bool.eq_false_iff, Ne, marks]
    rintro ⟨r, rm, isEnd⟩
    exact ne_end_of_covers (bare.rep.wf r rm) (bare.layout.freeApart r rm g gm).symm covers isEnd
  have marked : Marked s.markAll.bitmap F G fun _ => False := by
    refine ⟨fun r rm => (marks _).2 ⟨r, rm, .inl rfl⟩, fun r rm => (marks _).2 ⟨r, rm, .inr rfl⟩,
      fun g gm => ?_, fun g gm _ => granted g gm, fun p isSet => ?_⟩
    · have wf := bare.layout.grantWf g gm
      exact ⟨granted g gm _ (covers_firstPage wf), granted g gm _ (covers_lastPage wf)⟩
    · obtain ⟨r, rm, rfl | rfl⟩ := (marks p).1 isSet
      · exact .inl ⟨r, rm, covers_firstPage (bare.rep.wf r rm)⟩
      · exact .inl ⟨r, rm, covers_lastPage (bare.rep.wf r rm)⟩
  refine ⟨⟨?_, marked, ?_, stored⟩, b, f, same'⟩ <;> rw [same']
  · exact bare.congr rfl rfl rfl
  · exact area

/-! ## The bitset is resized -/

/-- **What `resize` can do**: keep the buffer, take a first one, or take a larger one and
leave the old one for later. -/
theorem PageRangeAllocator.bitmapResize_cases {bits : ℕ}
    (result : s.bitmapResize bits = some s') :
    s' = { s with bitmapSize := bits } ∨
      ∃ capacity buf t, 0 < capacity ∧ capacity ≤ 2 * calcNumBlocks bits ∧
        (s.onAlloc (getSize capacity)).alloc false (getSize capacity) true = (some buf, t) ∧
        (t.bitmapCapacity = 0 ∧
            s' = { t with bitmapSize := bits, bitmapCapacity := capacity, bitmapBuf := buf } ∨
          t.bitmapCapacity ≠ 0 ∧
            s' = { (t.onFree (getSize t.bitmapCapacity)).write t.bitmapBuf
                    (getSize t.bitmapCapacity) with
                  deferredFree := some t.bitmapBuf, bitmapSize := bits,
                  bitmapCapacity := capacity, bitmapBuf := buf }) := by
  simp only [bitmapResize] at result
  split at result
  · exact .inl (by simpa using result.symm)
  next outgrown =>
    right
    split at result
    · cases result
    next buf t allocated =>
      refine ⟨_, buf, t, ?_, ?_, allocated, ?_⟩
      · omega
      · omega
      · by_cases first : t.bitmapCapacity = 0
        · rw [if_pos first] at result
          exact .inl ⟨first, by simpa using result.symm⟩
        · rw [if_neg first] at result
          refine .inr ⟨first, ?_⟩
          simp only [bitmapDeallocate] at result
          split at result
          · simp at result
          · simpa using result.symm

theorem Bare.allocBuffer {size buf : ℕ} (bare : Bare bound s F G) (whole : size % pageSize = 0)
    (pos : 0 < size) (result : s.alloc false size true = (some buf, s')) :
    ∃ F', BarePending bound s' F' G (buf, size) ∧ SameBits s s' ∧
      SameBitmapStore s s' ∧
      ∀ x, Covered F x ↔ Extent.Covers (buf, size) x ∨ Covered F' x := by
  rcases bare.rep.alloc_cases whole false true with failed | ⟨r, mem, fits, taken⟩
  · rw [failed] at result
    cases result
  · obtain ⟨F', found, pending, cover⟩ := bare.takeFront mem whole pos fits
    rw [taken] at result
    have store := (remove_store s r.1).trans
      (takeFront_store _ r.1 size false)
    have bits := (remove_bits s r.1).trans (takeFront_false_bits _ r.1 size)
    rw [result] at found pending store bits
    obtain rfl : buf = r.1 := by simpa using found
    exact ⟨F', pending, bits, store, cover⟩

/-! ## Specification -/

theorem Grant.leftover_whole (g : Grant) : g.leftover g.extent = ∅ := by
  simp [Grant.leftover, Grant.extent, filter_eq_empty_iff]

theorem Grant.piece_whole {g : Grant} (wf : PageExtent g.extent) : g.Piece g.extent :=
  ⟨wf, le_refl _, le_refl _, fun _ => rfl⟩

/-- The allocator `s'` after `initial_add` to `s`, where `F₁` are the free ranges with the
new one among them: what changes besides is the buffer of the bitset. -/
structure InitialAdded (s : PageRangeAllocator) (F₁ : Finset Extent) (G : Finset Grant)
    (s' : PageRangeAllocator) (F' : Finset Extent) : Prop where
  core : Core s' F' (G \ s.bufGrants ∪ s'.bufGrants)
  idle : s'.deferredFree = none
  buffer : Disjoint (G \ s.bufGrants) s'.bufGrants
  cover : ∀ x, (Covered F' x ∨ ∃ g ∈ s'.bufGrants, g.extent.Covers x) ↔
    Covered F₁ x ∨ ∃ g ∈ s.bufGrants, g.extent.Covers x
  counted : s.freeMemory = total F₁ → s'.freeMemory = total F'

theorem Core.initialAdded (core : Core s' F G) (idle : s'.deferredFree = none)
    (same : s'.bufGrants = s.bufGrants) (memory : s'.freeMemory = s.freeMemory)
    (buffer : s.bufGrants ⊆ G) : InitialAdded s F G s' F where
  core := by rwa [same, sdiff_union_of_subset buffer]
  idle := idle
  buffer := by rw [same]; exact sdiff_disjoint
  cover := by simp [same]
  counted := fun counted => memory.trans counted

theorem Bare.total_lt (bare : Bare bound s F G) (area : bound ≤ memAreaSize) :
    total F < 2 ^ 64 := by
  have := total_le bare.rep.apart bare.layout.inside
  simp only [memAreaSize] at area
  omega

/-- A resize that took the new buffer `new` from the free ranges and left the old one. -/
structure BufferMoved (s : PageRangeAllocator) (F : Finset Extent) (G : Finset Grant) (idx : ℕ)
    (s' : PageRangeAllocator) (F₂ : Finset Extent) (new : Grant) (old : Option Grant) : Prop where
  bare : Bare (idx * pageSize) s' F₂ (insert new G)
  size : s'.bitmapSize = idx
  bits : SameBits s s'
  newBuffer : s'.bufGrants = {new}
  oldBuffer : s.bufGrants = old.toFinset
  fresh : new ∉ G
  deferred : s'.deferredFree = old.map Grant.start
  header : ∀ g ∈ old, s'.mem g.start = g.size
  cover : ∀ x, Covered F x ↔ new.extent.Covers x ∨ Covered F₂ x
  counted : s.freeMemory = total F → s'.freeMemory = wrap64 (total F₂ + old.elim 0 Grant.size)

theorem Bare.bufferMoved {idx capacity buf : ℕ} {t : PageRangeAllocator}
    (bare : Bare (idx * pageSize) s F G) (area : idx * pageSize ≤ memAreaSize)
    (idle : s.deferredFree = none) (buffer : s.bufGrants ⊆ G) (positive : 0 < capacity)
    (bounded : capacity ≤ 2 * calcNumBlocks idx)
    (allocated : (s.onAlloc (getSize capacity)).alloc false (getSize capacity) true = (some buf, t))
    (moved : t.bitmapCapacity = 0 ∧
        s' = { t with bitmapSize := idx, bitmapCapacity := capacity, bitmapBuf := buf } ∨
      t.bitmapCapacity ≠ 0 ∧
        s' = { (t.onFree (getSize t.bitmapCapacity)).write t.bitmapBuf
                (getSize t.bitmapCapacity) with
              deferredFree := some t.bitmapBuf, bitmapSize := idx,
              bitmapCapacity := capacity, bitmapBuf := buf }) :
    ∃ F₂ new old, BufferMoved s F G idx s' F₂ new old := by
  have whole := getSize_whole capacity
  have pos := getSize_pos positive (by
    simp only [calcNumBlocks, pageSize, memAreaSize] at *
    omega)
  have charged : Bare (idx * pageSize) (s.onAlloc (getSize capacity)) F G :=
    bare.congr rfl rfl rfl
  obtain ⟨F₂, pending, bits, store, cover⟩ := charged.allocBuffer whole pos allocated
  have newTotal : total F = getSize capacity + total F₂ :=
    total_of_cover bare.rep.apart pending.pend.rep.apart pending.pend.apart cover
  have small := bare.total_lt area
  have memory : s.freeMemory = total F → t.freeMemory = total F₂ := by
    intro counted
    rw [store.memory, onAlloc, counted]
    simp only
    rw [sub64_eq (by omega) small]
    omega
  have newNotMem : (⟨buf, getSize capacity, false⟩ : Grant) ∉ G := by
    intro mem
    have := pending.grantApart _ mem
    simp only [Extent.Apart, Grant.extent] at this
    omega
  have granted := pending.grant false
  have old := bufGrants_congr store.buf store.capacity
  refine ⟨F₂, ⟨buf, getSize capacity, false⟩, ?_⟩
  rcases moved with ⟨first, rfl⟩ | ⟨notFirst, rfl⟩
  · refine ⟨none, granted.congr rfl rfl rfl, rfl, ⟨bits.bitmap, bits.faulted⟩, ?_, ?_, newNotMem,
      store.deferred.trans idle, by simp, cover, fun counted => ?_⟩
    · rw [bufGrants, if_neg (by simp only; omega)]
    · exact old.symm.trans (by rw [bufGrants, if_pos first]; rfl)
    · show t.freeMemory = _
      rw [memory counted, wrap64, Nat.mod_eq_of_lt (by simp; omega)]
      rfl
  · have oldBuffer : s.bufGrants =
        {⟨t.bitmapBuf, getSize t.bitmapCapacity, false⟩} :=
      old.symm.trans (by rw [bufGrants, if_neg notFirst])
    have oldMem : (⟨t.bitmapBuf, getSize t.bitmapCapacity, false⟩ : Grant) ∈ G :=
      buffer (by rw [oldBuffer]; exact mem_singleton_self _)
    have oldWf := bare.layout.grantWf _ oldMem
    have start : Extent.Covers (t.bitmapBuf, getSize t.bitmapCapacity)
        t.bitmapBuf := ⟨le_refl _, Nat.lt_add_of_pos_right oldWf.pos⟩
    have written := granted.ownerWrite (v := getSize t.bitmapCapacity)
      (mem_insert_of_mem oldMem) start
      (by have aligned := oldWf.aligned; simp only [Grant.extent, pageSize] at aligned; omega)
    refine ⟨some ⟨t.bitmapBuf, getSize t.bitmapCapacity, false⟩,
      written.congr rfl rfl rfl, rfl, ⟨bits.bitmap, bits.faulted⟩, ?_, ?_, newNotMem, rfl, ?_,
      cover, fun counted => ?_⟩
    · rw [bufGrants, if_neg (by simp only; omega)]
    · rw [oldBuffer]; rfl
    · intro g mem
      cases mem
      exact Function.update_self _ _ _
    · show wrap64 (t.freeMemory + _) = _
      rw [memory counted]
      rfl

/-- Once the bits are set the old buffer is freed like any other grant. -/
theorem BufferMoved.settle {idx : ℕ} {F₂ : Finset Extent} {new : Grant} {old : Option Grant}
    (moved : BufferMoved s F G idx s' F₂ new old) (area : idx * pageSize ≤ memAreaSize)
    (cleared : s.bitmap = fun _ => false) (inBounds : s.faulted = false)
    (buffer : s.bufGrants ⊆ G) : ∃ F', InitialAdded s F G s'.markAll.freeDeferred F' := by
  have bare := moved.bare
  rw [← moved.size] at bare area
  obtain ⟨core, b, f, same⟩ := bare.markAll (moved.bits.bitmap.trans cleared) area
    (moved.bits.faulted.trans inBounds)
  have deferred : s'.markAll.deferredFree = old.map Grant.start := by
    rw [same]; exact moved.deferred
  have newBuffer : s'.markAll.bufGrants = {new} := by rw [same]; exact moved.newBuffer
  have oldBuffer := moved.oldBuffer
  have counted : s.freeMemory = total F →
      s'.markAll.freeMemory = wrap64 (total F₂ + old.elim 0 Grant.size) := by
    rw [same]; exact moved.counted
  have notNew : Disjoint (G \ s.bufGrants) {new} :=
    disjoint_singleton_right.2 fun mem => moved.fresh (mem_sdiff.1 mem).1
  cases old with
  | none =>
    have noOld : s.bufGrants = ∅ := oldBuffer
    rw [freeDeferred_none deferred]
    refine ⟨F₂, ?_, deferred, ?_, fun x => ?_, fun start => ?_⟩
    · rw [noOld, newBuffer, sdiff_empty, union_comm]
      exact core
    · rw [newBuffer]
      exact notNew
    · simp only [noOld, newBuffer, mem_singleton, exists_eq_left, notMem_empty,
        false_and, exists_false, or_false, moved.cover x]
      exact or_comm
    · have small := core.bare.total_lt core.area
      rw [counted start, elim_none, Nat.add_zero, wrap64, Nat.mod_eq_of_lt small]
  | some g =>
    have gOld : s.bufGrants = {g} := by rw [oldBuffer]; rfl
    have mem : g ∈ G := buffer (by rw [gOld]; exact mem_singleton_self g)
    have gwf := bare.layout.grantWf g (mem_insert_of_mem mem)
    have header : s'.markAll.mem g.extent.1 = g.extent.2 := by
      rw [same]; exact moved.header g rfl
    have ne : new ≠ g := fun eq => moved.fresh (eq ▸ mem)
    obtain ⟨F', freed, cover⟩ := core.freeGrant (mem_insert_of_mem mem)
      (Grant.piece_whole gwf) header
    have store := free_store s'.markAll g.start
    have kept : ({ s'.markAll.free g.start with deferredFree := none } :
        PageRangeAllocator).bufGrants = {new} :=
      (bufGrants_congr (s := s'.markAll) store.buf store.capacity).trans
        newBuffer
    have grants : release (insert new G) g g.extent = G \ s.bufGrants ∪ {new} := by
      rw [release, Grant.leftover_whole, union_empty, gOld, erase_insert_of_ne ne,
        sdiff_singleton_eq_erase, union_comm]
      rfl
    rw [grants] at freed
    have loose := core.ungrant (mem_insert_of_mem mem) (Grant.piece_whole gwf) header
    have oldTotal : total F' = g.size + total F₂ :=
      total_of_cover freed.bare.rep.apart core.bare.rep.apart loose.bare.pend.apart cover
    rw [freeDeferred_some deferred]
    refine ⟨F', ?_, rfl, ?_, fun x => ?_, fun start => ?_⟩
    · rw [kept]
      exact freed.congr rfl rfl rfl ⟨rfl, rfl⟩ rfl
    · rw [kept]
      exact notNew
    · rw [kept, gOld]
      simp only [mem_singleton, exists_eq_left, cover x, moved.cover x]
      tauto
    · have small := freed.bare.total_lt freed.area
      rw [store.memory, counted start, wrap64, elim_some, Nat.mod_eq_of_lt (by omega)]
      omega

/-- The bits after `resize` are set from scratch, and the old buffer is freed last. -/
theorem Bare.resize {idx : ℕ} (bare : Bare (idx * pageSize) s F G)
    (area : idx * pageSize ≤ memAreaSize) (cleared : s.bitmap = fun _ => false)
    (inBounds : s.faulted = false) (idle : s.deferredFree = none) (buffer : s.bufGrants ⊆ G)
    (result : s.bitmapResize idx = some s') :
    ∃ F', InitialAdded s F G s'.markAll.freeDeferred F' := by
  rcases bitmapResize_cases result with
    rfl | ⟨capacity, buf, t, positive, bounded, allocated, moved⟩
  · obtain ⟨core, b, f, same⟩ := Bare.markAll (s := { s with bitmapSize := idx })
      (bare.congr rfl rfl rfl) cleared area inBounds
    rw [freeDeferred_none (by rw [same]; exact idle)]
    exact ⟨F, core.initialAdded (by rw [same]; exact idle) (by rw [same]; rfl) (by rw [same]) buffer⟩
  · obtain ⟨F₂, new, old, moved⟩ := bare.bufferMoved area idle buffer positive bounded
      allocated moved
    exact moved.settle area cleared inBounds buffer

/-- The branch of `initial_add` that grows the bitmap, from the linked range on. -/
theorem Bare.grow {u t : PageRangeAllocator} {idx : ℕ} (linked : Bare (idx * pageSize) u F G)
    (area : idx * pageSize ≤ memAreaSize) (store : SameBitmapStore s u)
    (inBounds : u.faulted = false) (idle : s.deferredFree = none) (buffer : s.bufGrants ⊆ G)
    (resized : u.bitmapReset.bitmapResize idx = some t) :
    ∃ F', InitialAdded s F G t.markAll.freeDeferred F' := by
  have sameBuffer : u.bitmapReset.bufGrants = s.bufGrants :=
    bufGrants_congr store.buf store.capacity
  have reset : Bare (idx * pageSize) u.bitmapReset F G := linked.congr rfl rfl rfl
  obtain ⟨F', core, idle', buffer', cover, counted⟩ := reset.resize area rfl
    inBounds (store.deferred.trans idle) (by rw [sameBuffer]; exact buffer) resized
  rw [sameBuffer] at core buffer' cover
  exact ⟨F', core, idle', buffer', cover, fun start => counted (store.memory.trans start)⟩

/-- **`initial_add`** makes the pages of the new range free; the only grant that changes is
the buffer of the bitset. -/
theorem Core.initialAdd (core : Core s F G) (buffer : s.bufGrants ⊆ G)
    (idle : s.deferredFree = none) (fresh : Fresh s F G P)
    (result : s.initialAdd P.1 = some s') :
    ∃ F₁ F', (∀ x, Covered F₁ x ↔ P.Covers x ∨ Covered F x) ∧ total F₁ = P.2 + total F ∧
      InitialAdded s F₁ G s' F' := by
  have aligned := fresh.wf.aligned
  have whole := fresh.wf.whole
  have pos := fresh.wf.pos
  have inArea := fresh.inArea
  obtain ⟨idx, pages, ends⟩ : ∃ idx,
      getBitmapIdx P.1 + P.2 / pageSize = idx ∧ P.1 + P.2 = idx * pageSize := by
    refine ⟨(P.1 + P.2) / pageSize, ?_, ?_⟩
    · rw [getBitmapIdx_eq (by omega)]
      simp only [pageSize] at aligned whole ⊢
      omega
    · simp only [pageSize] at aligned whole ⊢
      omega
  by_cases outside : idx > s.bitmapSize
  · rw [PageRangeAllocator.initialAdd, fresh.header, pages, if_pos outside] at result
    obtain ⟨t, resized, rfl⟩ := map_eq_some_iff.1 result
    obtain ⟨F₁, linked, cover⟩ := core.growLink fresh (by rw [ends]; simp only [pageSize]; omega)
    have store := (growPrev_store s P.1).trans
      (insert_store _ false (s.growPrev P.1).1)
    have bits := (growPrev_bits s P.1).trans (insert_false_bits _ (s.growPrev P.1).1)
    have totals : total F₁ = P.2 + total F :=
      total_of_cover linked.rep.apart core.bare.rep.apart fresh.freeApart cover
    rw [ends] at linked inArea
    obtain ⟨F', added⟩ := linked.grow inArea store (bits.faulted.trans core.inBounds) idle
      buffer resized
    exact ⟨F₁, F', cover, totals, added⟩
  · rw [PageRangeAllocator.initialAdd, fresh.header, pages, if_neg outside] at result
    have inside : P.1 + P.2 ≤ s.bitmapSize * pageSize := by
      rw [ends]
      exact Nat.mul_le_mul_right _ (by omega)
    have loose : Loose s F G P :=
      ⟨⟨⟨core.bare.rep, fresh.header, fresh.wf, fresh.freeApart⟩, core.bare.separate,
        core.bare.layout, inside, fresh.grantApart⟩,
        ⟨core.marked.first, core.marked.last, core.marked.grant, core.marked.filled,
          fun p isSet => (core.marked.origin p isSet).imp_right
            (Or.imp_right fun impossible => impossible.elim)⟩, core.area, core.inBounds⟩
    obtain ⟨F', freed, cover⟩ := loose.free
    have store := free_store s P.1
    obtain rfl : s.free P.1 = s' := Option.some.inj result
    refine ⟨F', F', cover, total_of_cover freed.bare.rep.apart core.bare.rep.apart fresh.freeApart
      cover, freed.initialAdded (store.deferred.trans idle)
      (bufGrants_congr store.buf store.capacity) store.memory buffer⟩

end InitialAdd

end MiniOsv.Mempool
