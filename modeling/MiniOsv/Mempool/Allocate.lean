/-
# Mempool.Allocate -- what alloc, alloc_aligned and free do to the invariant

One specification for each operation of the allocator.  `Represents.alloc_cases` says
once what `alloc` can do: fail and change nothing, or take some free range that is large
enough and cut the request from its front.  `Core.alloc`, `Core.allocAligned` and
`Core.freeGrant` then say how free ranges and grants change, with the bytes that move
from one to the other.
-/
import MiniOsv.Mempool.Invariant

namespace MiniOsv.Mempool

open Theory List PageRangeAllocator Extent Function SameBitmapStore

/-! ## Orders -/

theorem le_two_pow_ilog2Roundup (n : ℕ) : n ≤ 2 ^ ilog2Roundup n := by
  unfold ilog2Roundup
  split
  · simpa using ‹n ≤ 1›
  · have := Nat.lt_log2_self (n := n - 1)
    omega

theorem two_pow_ilog2_le {n : ℕ} (pos : 0 < n) : 2 ^ ilog2 n ≤ n := by
  unfold ilog2
  split
  · rw [Nat.pow_zero]
    exact pos
  · exact Nat.log2_self_le (by omega)

/-- A range whose order is at least the rounded up order of the request is large enough. -/
theorem le_of_ilog2Roundup_le {size n : ℕ} (whole : size % pageSize = 0) (pos : pageSize ≤ n)
    (order : ilog2Roundup (size / pageSize) ≤ orderOf n) : size ≤ n := by
  have pages : size / pageSize ≤ n / pageSize :=
    calc size / pageSize ≤ 2 ^ ilog2Roundup (size / pageSize) := le_two_pow_ilog2Roundup _
      _ ≤ 2 ^ orderOf n := Nat.pow_le_pow_right (by omega) order
      _ ≤ n / pageSize := two_pow_ilog2_le (Nat.div_pos pos (by decide))
  simp only [pageSize] at *
  omega

namespace PageRangeAllocator

variable {s : PageRangeAllocator} {pr size : ℕ}

theorem removeList_eq_remove {order : ℕ} (small : order < maxOrder)
    (same : orderOf (s.mem pr) = order) : s.removeList order pr = s.remove pr := by
  subst same
  rw [remove, if_neg (by omega)]

variable (s pr size)

theorem keepFront_store (useBitmap : Bool) : SameBitmapStore s (keepFront useBitmap s pr size) := by
  unfold keepFront
  split
  · exact (write_store _ _ _).trans ((insert_store _ _ _).trans (write_store _ _ _))
  · exact refl s

theorem takeFront_store (useBitmap : Bool) :
    SameBitmapStore s (takeFront useBitmap s pr size).2 := by
  cases useBitmap
  · exact keepFront_store s pr size false
  · show SameBitmapStore s ((keepFront true s pr size).setBits pr false false)
    exact (keepFront_store s pr size true).trans (setBits_store _ _ _ _)

theorem dropShift_store (shift : ℕ) : SameBitmapStore s (s.dropShift pr shift) := by
  unfold dropShift
  split
  · exact (write_store _ _ _).trans ((insert_store _ _ _).trans (write_store _ _ _))
  · exact refl s

theorem carve_store (shift : ℕ) (fill : Bool) :
    SameBitmapStore s (s.carve pr size shift fill).2 := by
  have dropped := (remove_store s pr).trans (dropShift_store _ pr shift)
  simp only [carve]
  split
  · exact dropped.trans (setBits_store _ _ _ _)
  · exact dropped.trans ((write_store _ _ _).trans ((insert_store _ _ _).trans
      ((write_store _ _ _).trans (setBits_store _ _ _ _))))

/-- A block with more pages than the bitmap has bits is not granted. -/
theorem carve_faulted {shift : ℕ} (fill : Bool) (past : s.bitmapSize ≤ size / pageSize - 1) :
    (s.carve pr size shift fill).2.faulted = true := by
  have stores : ∀ {t : PageRangeAllocator} {a : ℕ}, t.bitmapSize = s.bitmapSize →
      t.mem a = size → (t.setBits a false fill).faulted = true := by
    intro t a same header
    have outside : t.bitmapSize ≤ getBitmapIdx a + (size / pageSize - 1) := by omega
    simp only [setBits, header, outside, decide_true, Bool.or_true]
    split <;> rfl
  have dropped := (remove_store s pr).trans (dropShift_store _ pr shift)
  simp only [carve]
  split
  next whole => exact stores dropped.size whole
  · exact stores (dropped.trans ((write_store _ _ _).trans ((insert_store _ _ _).trans
      (write_store _ _ _)))).size (by simp)

theorem freePrev_store : SameBitmapStore s (s.freePrev pr).2 := by
  simp only [freePrev]
  split
  · exact mergePrev_store _ _
  · exact refl s

theorem freeNext_store : SameBitmapStore s (s.freeNext pr) := by
  simp only [freeNext]
  split
  · exact mergeNext_store _ _
  · exact refl s

theorem free_store : SameBitmapStore s (s.free pr) := by
  simp only [free]
  exact (freePrev_store s pr).trans ((freeNext_store _ _).trans (insert_store _ _ _))

end PageRangeAllocator

/-! ## alloc -/

section Alloc

variable {s : PageRangeAllocator} {F : Finset Extent} {G : Finset Grant} {size : ℕ}

theorem Represents.of_mem_freeList (rep : Represents s F) {order a : ℕ} (small : order < maxOrder)
    (mem : a ∈ s.freeList order) : (a, s.mem a) ∈ F ∧ orderOf (s.mem a) = order := by
  have linked : a ∈ s.container order := by
    simpa [container, small.ne] using mem
  obtain ⟨inF, bucket⟩ := rep.of_mem_container small.le linked
  refine ⟨inF, ?_⟩
  simp only [bucketOf] at bucket
  omega

theorem Represents.of_mem_freeHuge (rep : Represents s F) {a : ℕ} (mem : a ∈ s.freeHuge) :
    (a, s.mem a) ∈ F ∧ maxOrder ≤ orderOf (s.mem a) := by
  have linked : a ∈ s.container maxOrder := by simpa [container] using mem
  obtain ⟨inF, bucket⟩ := rep.of_mem_container (le_refl _) linked
  exact ⟨inF, min_eq_right_iff.1 bucket⟩

/-- **What `alloc` can do**: fail and change nothing, or cut the front off a free range
that is large enough. -/
theorem Represents.alloc_cases (rep : Represents s F) (whole : size % pageSize = 0)
    (useBitmap contiguous : Bool) :
    s.alloc useBitmap size contiguous = (none, s) ∨
      ∃ r ∈ F, size ≤ r.2 ∧ s.alloc useBitmap size contiguous =
        (s.remove r.1).takeFront useBitmap r.1 size := by
  unfold alloc
  simp only
  split
  · -- No container of a sufficient order: the linear search of the list below.
    split
    · exact .inl rfl
    next searched =>
      simp only [Bool.or_eq_true, Bool.not_eq_true', beq_iff_eq, not_or, Bool.not_eq_false] at searched
      split
      · exact .inl rfl
      next pr found =>
        have large : size ≤ s.mem pr := by simpa using List.find?_some found
        have small : min (ilog2Roundup (size / pageSize)) maxOrder - 1 < maxOrder := by
          omega
        obtain ⟨inF, order⟩ := rep.of_mem_freeList small (mem_of_find?_eq_some found)
        exact .inr ⟨_, inF, large, by
          rw [removeList_eq_remove small order]⟩
  next order rest orders =>
    obtain ⟨inside, above, -⟩ := rep.of_ordersFrom orders
    split
    · split
      · exact .inl rfl
      next pr last =>
        obtain ⟨inF, huge⟩ := rep.of_mem_freeHuge (mem_of_getLast? last)
        split
        · exact .inl rfl
        · exact .inr ⟨_, inF, by simp only; omega, by
            rw [PageRangeAllocator.remove, if_pos huge]⟩
    next notHuge =>
      split
      · exact .inl rfl
      next pr tail front =>
        have small : order < maxOrder := by omega
        obtain ⟨inF, same⟩ := rep.of_mem_freeList small (by rw [front]; exact mem_cons_self)
        refine .inr ⟨_, inF, ?_, by rw [removeList_eq_remove small same]⟩
        apply le_of_ilog2Roundup_le whole (rep.wf _ inF).page_le
        simp only [same]
        omega

theorem Bare.takeFront {bound : ℕ} (bare : Bare bound s F G) {r : Extent} (mem : r ∈ F)
    (whole : size % pageSize = 0) (pos : 0 < size) (fits : size ≤ r.2) :
    ∃ F', ((s.remove r.1).takeFront false r.1 size).1 = some r.1 ∧
      BarePending bound ((s.remove r.1).takeFront false r.1 size).2 F' G (r.1, size) ∧
      ∀ x, Covered F x ↔ Covers (r.1, size) x ∨ Covered F' x := by
  obtain ⟨pending, -, right⟩ := bare.loosen mem
  have header := pending.pend.header
  simp only [PageRangeAllocator.takeFront, PageRangeAllocator.keepFront, header]
  by_cases larger : r.2 > size
  · rw [if_pos larger]
    refine ⟨_, trivial, pending.cutBack false right whole pos larger, fun x => ?_⟩
    rw [covered_erase mem]
    refine covered_cut (fun y => ?_) x
    simp only [Covers]
    omega
  · have same : size = r.2 := by omega
    rw [if_neg larger]
    refine ⟨_, trivial, by rw [same]; exact pending, fun x => ?_⟩
    rw [covered_erase mem, same]

theorem Core.takeFront (core : Core s F G) {r : Extent} (mem : r ∈ F)
    (whole : size % pageSize = 0) (pos : 0 < size) (fits : size ≤ r.2) :
    ∃ s' F', (s.remove r.1).takeFront true r.1 size = (some r.1, s') ∧ s'.mem r.1 = size ∧
      Core s' F' (insert ⟨r.1, size, false⟩ G) ∧
      ∀ x, Covered F x ↔ Covers (r.1, size) x ∨ Covered F' x := by
  obtain ⟨loose, -, right⟩ := core.loosen mem
  have header := loose.bare.pend.header
  simp only [PageRangeAllocator.takeFront, PageRangeAllocator.keepFront, header]
  by_cases larger : r.2 > size
  · rw [if_pos larger]
    have cut := loose.cutBack right whole pos larger
    refine ⟨_, _, rfl, cut.bare.pend.header, cut.grant false, fun x => ?_⟩
    rw [covered_erase mem]
    refine covered_cut (fun y => ?_) x
    simp only [Covers]
    omega
  · obtain rfl : size = r.2 := by omega
    rw [if_neg larger]
    exact ⟨_, _, rfl, header, loose.grant false, fun x => covered_erase mem⟩

/-- **`alloc` with the bitmap**: a null result changes nothing, and any other is a new
grant of exactly `size` bytes cut from the free ranges. -/
theorem Core.alloc (core : Core s F G) (whole : size % pageSize = 0) (pos : 0 < size)
    (contiguous : Bool) :
    s.alloc true size contiguous = (none, s) ∨
      ∃ pr s' F', s.alloc true size contiguous = (some pr, s') ∧
        Core s' F' (insert ⟨pr, size, false⟩ G) ∧ SameBitmapStore s s' ∧
        ∀ x, Covered F x ↔ Covers (pr, size) x ∨ Covered F' x := by
  rcases core.bare.rep.alloc_cases whole true contiguous with failed | ⟨r, mem, fits, taken⟩
  · exact .inl failed
  · obtain ⟨s', F', result, -, core', cover⟩ := core.takeFront mem whole pos fits
    have store := (remove_store s r.1).trans
      (takeFront_store _ r.1 size true)
    rw [result] at store
    exact .inr ⟨r.1, s', F', taken.trans result, core', store, cover⟩

end Alloc

/-! ## alloc_aligned -/

theorem sub64_eq {n m : ℕ} (le : m ≤ n) (lt : n < 2 ^ 64) : sub64 n m = n - m := by
  simp only [sub64]
  omega

namespace PageRangeAllocator

/-- The sum `size + alignment_shift` did not wrap for any range that `alloc_aligned`
visits and whose size passes the test. -/
def AlignedExact (s : PageRangeAllocator) (size offset alignment : ℕ) : Prop :=
  ∀ header ∈ s.forEachList (max (ilog2 (size / pageSize)) 1 - 1),
    s.alignedFits size offset alignment header = true →
      size + s.alignmentShift header size offset alignment < 2 ^ 64

/-- The sum cannot wrap when the request and its alignment together fit 64 bits. -/
theorem alignedExact_of_le (s : PageRangeAllocator) {size offset alignment : ℕ}
    (pos : 0 < alignment) (fits : size + alignment ≤ 2 ^ 64) :
    s.AlignedExact size offset alignment := by
  intro header _ _
  have : s.alignmentShift header size offset alignment < alignment := Nat.mod_lt _ pos
  omega

end PageRangeAllocator

section AllocAligned

variable {s : PageRangeAllocator} {F : Finset Extent} {G : Finset Grant} {P : Extent}
  {size offset alignment : ℕ}

/-- `for_each` visits every free range of the orders it is asked for, -/
theorem Represents.mem_forEachList (rep : Represents s F) {r : Extent} (mem : r ∈ F)
    {minOrder : ℕ} (low : minOrder ≤ orderOf r.2) : r.1 ∈ s.forEachList minOrder := by
  have linked := rep.mem_container mem
  simp only [forEachList, mem_append, mem_flatMap, mem_filter,
    mem_reverse, mem_range, decide_eq_true_eq]
  by_cases huge : bucketOf r.2 = maxOrder
  · exact .inl (by simpa [container, huge] using linked)
  · have le := bucketOf_le r.2
    have bucket : bucketOf r.2 = min (orderOf r.2) maxOrder := rfl
    exact .inr ⟨bucketOf r.2, ⟨by omega, by omega⟩, by
      simpa [container, huge] using linked⟩

/-- and nothing else. -/
theorem Represents.of_mem_forEachList (rep : Represents s F) {minOrder a : ℕ}
    (mem : a ∈ s.forEachList minOrder) : (a, s.mem a) ∈ F := by
  simp only [forEachList, mem_append, mem_flatMap, mem_filter, mem_reverse, mem_range] at mem
  rcases mem with huge | ⟨order, ⟨small, -⟩, linked⟩
  · exact (rep.of_mem_freeHuge huge).1
  · exact (rep.of_mem_freeList small linked).1

theorem alignmentShift_whole (header : ℕ) (aligned : header % pageSize = 0)
    (headerWhole : s.mem header % pageSize = 0) (sizeWhole : size % pageSize = 0)
    (offsetWhole : offset % pageSize = 0) (alignmentWhole : alignment % pageSize = 0) :
    s.alignmentShift header size offset alignment % pageSize = 0 := by
  have expected : wrap64 (sub64 (physMem + header + s.mem header) size + offset) % pageSize = 0 := by
    simp only [wrap64, sub64, physMem, pageSize] at *
    omega
  rw [alignmentShift, Nat.mod_mod_of_dvd _ (Nat.dvd_of_mod_eq_zero alignmentWhole)]
  exact expected

theorem Loose.dropShift (loose : Loose s F G P) (left : LeftClear F P) (right : RightClear F P)
    {shift : ℕ} (whole : shift % pageSize = 0) (less : shift < P.2) :
    ∃ F', Loose (s.dropShift P.1 shift) F' G (P.1, P.2 - shift) ∧
      LeftClear F' (P.1, P.2 - shift) ∧
      ∀ x, P.Covers x ∨ Covered F x ↔ Covers (P.1, P.2 - shift) x ∨ Covered F' x := by
  have header := loose.bare.pend.header
  have wf := loose.bare.pend.wf
  have pWhole := wf.whole
  have inArea := loose.inArea
  unfold PageRangeAllocator.dropShift
  by_cases zero : shift = 0
  · subst zero
    exact ⟨F, by simpa using loose, by simpa using left, by simp⟩
  · have kept : (P.2 - shift) % pageSize = 0 := by simp only [pageSize] at *; omega
    have cut := loose.cutBack right kept (by omega) (by omega : P.2 - shift < P.2)
    have back : sub64 (P.1 + P.2) shift = P.1 + (P.2 - shift) := by
      rw [sub64_eq (by omega) (by simp only [memAreaSize] at inArea; omega)]
      omega
    have rest : P.2 - (P.2 - shift) = shift := by omega
    have headerKept : (((s.write (P.1 + (P.2 - shift)) shift).insert true
        (P.1 + (P.2 - shift))).mem P.1) = P.2 := by
      simp only [insert_mem, write_mem, update_self]
      rw [update_of_ne, update_of_ne, header] <;>
        simp only [pageSize] at * <;> omega
    rw [if_pos zero]
    simp only [header, back, headerKept]
    rw [sub64_eq (by omega) (by simp only [memAreaSize] at inArea; omega)]
    rw [rest] at cut
    refine ⟨_, cut, ?_, fun x => ?_⟩
    · intro r mem
      rcases Finset.mem_insert.1 mem with rfl | mem
      · simp only
        omega
      · exact left r mem
    · refine covered_cut (fun y => ?_) x
      simp only [Covers]
      omega

/-- The block that is cut starts where the shift says, with its size in the header. -/
theorem Core.carve (core : Core s F G) {r : Extent} (mem : r ∈ F) {shift : ℕ}
    (sizeWhole : size % pageSize = 0) (pos : 0 < size) (shiftWhole : shift % pageSize = 0)
    (fits : size + shift ≤ r.2) (fill : Bool) :
    ∃ pr s' F', s.carve r.1 size shift fill = (some pr, s') ∧ pr = r.1 + (r.2 - shift - size) ∧
      s'.mem pr = size ∧ Core s' F' (insert ⟨pr, size, fill⟩ G) ∧
      ∀ x, Covered F x ↔ Covers (pr, size) x ∨ Covered F' x := by
  obtain ⟨loose, left, right⟩ := core.loosen mem
  have rWhole := (core.bare.rep.wf r mem).whole
  have inArea := loose.inArea
  obtain ⟨F₁, loose₁, left₁, cover₁⟩ := loose.dropShift left right shiftWhole (by omega)
  have header : ((s.remove r.1).dropShift r.1 shift).mem r.1 = r.2 - shift :=
    loose₁.bare.pend.header
  simp only [PageRangeAllocator.carve, header]
  by_cases exact : r.2 - shift = size
  · rw [if_pos exact]
    rw [exact] at loose₁ header
    refine ⟨_, _, F₁, rfl, by omega, by simpa using header, loose₁.grant fill, fun x => ?_⟩
    rw [covered_erase mem, cover₁, exact]
  · rw [if_neg exact]
    have cut := loose₁.cutFront left₁ sizeWhole pos (by simp only; omega)
    have frontSize : sub64 (r.2 - shift) size = r.2 - shift - size :=
      sub64_eq (by omega) (by simp only [memAreaSize] at inArea; omega)
    have frontKept : (((((s.remove r.1).dropShift r.1 shift).write r.1
        (r.2 - shift - size)).insert true r.1).mem r.1) = r.2 - shift - size := by
      simp only [insert_mem, write_mem, update_self]
      rw [update_of_ne (by simp only [pageSize] at *; omega), update_self]
    simp only [frontSize, frontKept]
    refine ⟨_, _, _, rfl, rfl, by simp, cut.grant fill, fun x => ?_⟩
    rw [covered_erase mem, cover₁]
    refine covered_cut (fun y => ?_) x
    simp only [Covers]
    omega

/-- **`alloc_aligned` returns only if its test did not wrap**: the size of a request that
wraps is so large that the bits of the block lie far behind the bitmap. -/
theorem Core.alignedExact_of_returns (core : Core s F G) (pos : 0 < alignment)
    (small : alignment ≤ 2 ^ 63) {fill : Bool}
    (returns : (s.allocAligned size offset alignment fill).2.faulted = false) :
    s.AlignedExact size offset alignment := by
  intro header visited passes
  cases found : (s.forEachList (max (ilog2 (size / pageSize)) 1 - 1)).find?
      (s.alignedFits size offset alignment) with
  | none => exact absurd passes (List.find?_eq_none.1 found header visited)
  | some taken =>
    have inside : ¬ s.bitmapSize ≤ size / pageSize - 1 := by
      intro past
      simp only [PageRangeAllocator.allocAligned, found] at returns
      rw [carve_faulted s taken size fill past] at returns
      cases returns
    have shift : s.alignmentShift header size offset alignment < alignment := Nat.mod_lt _ pos
    have area := core.area
    simp only [pageSize, memAreaSize] at *
    omega

/-- **`alloc_aligned`**, as long as its test does not wrap. -/
theorem Core.allocAligned (core : Core s F G) (sizeWhole : size % pageSize = 0) (pos : 0 < size)
    (offsetWhole : offset % pageSize = 0) (alignmentWhole : alignment % pageSize = 0)
    (exact : s.AlignedExact size offset alignment) (fill : Bool) :
    s.allocAligned size offset alignment fill = (none, s) ∨
      ∃ pr s' F', s.allocAligned size offset alignment fill = (some pr, s') ∧
        Core s' F' (insert ⟨pr, size, fill⟩ G) ∧ SameBitmapStore s s' ∧
        ∀ x, Covered F x ↔ Covers (pr, size) x ∨ Covered F' x := by
  unfold PageRangeAllocator.allocAligned
  simp only
  split
  · exact .inl rfl
  next header found =>
    have visited := mem_of_find?_eq_some found
    have test := List.find?_some found
    have inF := core.bare.rep.of_mem_forEachList visited
    have wf := core.bare.rep.wf _ inF
    have noWrap := exact header visited test
    have fits : size + s.alignmentShift header size offset alignment ≤ s.mem header := by
      simp only [alignedFits, decide_eq_true_eq] at test
      rwa [wrap64, Nat.mod_eq_of_lt noWrap] at test
    have shiftWhole := alignmentShift_whole header wf.aligned wf.whole sizeWhole offsetWhole
      alignmentWhole
    obtain ⟨pr, s', F', result, -, -, core', cover⟩ :=
      core.carve inF sizeWhole pos shiftWhole fits fill
    have store := PageRangeAllocator.carve_store s header size
      (s.alignmentShift header size offset alignment) fill
    rw [result] at store ⊢
    exact .inr ⟨pr, s', F', rfl, core', store, cover⟩

end AllocAligned

/-! ## free -/

/-- What stays granted when the piece `q` of `g` is freed. -/
def Grant.leftover (g : Grant) (q : Extent) : Finset Grant :=
  ({⟨g.start, q.1 - g.start, g.fill⟩,
    ⟨q.1 + q.2, g.start + g.size - (q.1 + q.2), g.fill⟩} : Finset Grant).filter (0 < ·.size)

/-- The grants after the piece `q` of `g` was freed. -/
def release (G : Finset Grant) (g : Grant) (q : Extent) : Finset Grant :=
  G.erase g ∪ g.leftover q

/-- What `free` may be given: a whole grant, or pages of a grant made with `fill`. -/
structure Grant.Piece (g : Grant) (q : Extent) : Prop where
  wf : PageExtent q
  low : g.start ≤ q.1
  high : q.1 + q.2 ≤ g.start + g.size
  whole : g.fill = false → q = g.extent

section Free

variable {s : PageRangeAllocator} {F : Finset Extent} {G : Finset Grant} {g : Grant} {q : Extent}

/-- A leftover is a page range of the filled grant on one side of the freed piece. -/
theorem Grant.Piece.leftover (piece : g.Piece q) (wf : PageExtent g.extent) {h : Grant}
    (mem : h ∈ g.leftover q) :
    h.fill = true ∧ g.fill = true ∧ PageExtent h.extent ∧ g.start ≤ h.start ∧
      h.start + h.size ≤ g.start + g.size ∧ q.Apart h.extent := by
  have low := piece.low
  have high := piece.high
  have fill : g.fill = true := by
    by_contra unfilled
    have whole := piece.whole (by simpa using unfilled)
    subst whole
    simp only [Grant.leftover, Grant.extent, Finset.mem_filter, Finset.mem_insert,
      Finset.mem_singleton] at mem
    obtain ⟨rfl | rfl, pos⟩ := mem <;> simp only at pos <;> omega
  have gAligned := wf.aligned
  have gWhole := wf.whole
  have qAligned := piece.wf.aligned
  have qWhole := piece.wf.whole
  simp only [Grant.leftover, Finset.mem_filter, Finset.mem_insert, Finset.mem_singleton] at mem
  obtain ⟨rfl | rfl, pos⟩ := mem <;>
    refine ⟨fill, fill, ⟨?_, ?_, ?_⟩, ?_, ?_, ?_⟩ <;>
      simp only [Grant.extent, Apart, pageSize] at * <;> omega

theorem Grant.Piece.leftovers_apart (piece : g.Piece q) {h h' : Grant} (mem : h ∈ g.leftover q)
    (member' : h' ∈ g.leftover q) (ne : h ≠ h') : h.extent.Apart h'.extent := by
  have low := piece.low
  simp only [Grant.leftover, Finset.mem_filter, Finset.mem_insert, Finset.mem_singleton]
    at mem member'
  obtain ⟨rfl | rfl, -⟩ := mem <;> obtain ⟨rfl | rfl, -⟩ := member' <;>
    first | exact absurd rfl ne | (simp only [Grant.extent, Apart]; omega)

/-- A piece and its leftovers are the pages of the grant. -/
theorem Grant.Piece.covers (piece : g.Piece q) (x : ℕ) :
    g.extent.Covers x ↔ q.Covers x ∨ ∃ h ∈ g.leftover q, h.extent.Covers x := by
  have low := piece.low
  have high := piece.high
  simp only [Grant.leftover, Finset.mem_filter, Finset.mem_insert, Finset.mem_singleton,
    Grant.extent, Covers]
  constructor
  · intro covers
    by_cases front : x < q.1
    · exact .inr ⟨_, ⟨.inl rfl, by simp only; omega⟩, by simp only; omega⟩
    · by_cases back : q.1 + q.2 ≤ x
      · exact .inr ⟨_, ⟨.inr rfl, by simp only; omega⟩, by simp only; omega⟩
      · exact .inl (by omega)
  · rintro (covers | ⟨h, ⟨rfl | rfl, pos⟩, covers⟩)
    · omega
    · simp only at covers
      omega
    · simp only at covers
      omega

theorem Layout.release {bound : ℕ} (layout : Layout bound F G) (mem : g ∈ G)
    (piece : g.Piece q) : Layout bound F (release G g q) := by
  have split : ∀ h ∈ MiniOsv.Mempool.release G g q, (h ∈ G ∧ h ≠ g) ∨ h ∈ g.leftover q := by
    intro h hm
    rcases Finset.mem_union.1 hm with kept | left
    · exact .inl ⟨Finset.mem_of_mem_erase kept, Finset.ne_of_mem_erase kept⟩
    · exact .inr left
  have gwf := layout.grantWf g mem
  refine ⟨layout.inside, fun h hm => ?_, fun h hm => ?_, fun h hm h' hm' ne => ?_,
    fun r rm h hm => ?_⟩
  · rcases split h hm with ⟨kept, -⟩ | left
    · exact layout.grantWf h kept
    · exact (piece.leftover gwf left).2.2.1
  · rcases split h hm with ⟨kept, -⟩ | left
    · exact layout.grantInside h kept
    · have := layout.grantInside g mem
      obtain ⟨-, -, -, -, high, -⟩ := piece.leftover gwf left
      omega
  · rcases split h hm with ⟨kept, other⟩ | left <;> rcases split h' hm' with ⟨kept', other'⟩ | left'
    · exact layout.grantsApart h kept h' kept' ne
    · obtain ⟨-, -, -, low, high, -⟩ := piece.leftover gwf left'
      exact ((layout.grantsApart h kept g mem other).symm.part (q := h'.extent) low high).symm
    · obtain ⟨-, -, -, low, high, -⟩ := piece.leftover gwf left
      exact (layout.grantsApart h' kept' g mem other').symm.part low high
    · exact piece.leftovers_apart left left' ne
  · rcases split h hm with ⟨kept, -⟩ | left
    · exact layout.freeApart r rm h kept
    · obtain ⟨-, -, -, low, high, -⟩ := piece.leftover gwf left
      exact ((layout.freeApart r rm g mem).symm.part (q := h.extent) low high).symm

/-- The piece that `free` is given is pending: every other page of its grant stays granted. -/
theorem Core.ungrant (core : Core s F G) (mem : g ∈ G) (piece : g.Piece q)
    (header : s.mem q.1 = q.2) : Loose s F (release G g q) q := by
  have layout := core.bare.layout
  have gwf := layout.grantWf g mem
  have low := piece.low
  have high := piece.high
  refine ⟨⟨⟨core.bare.rep, header, piece.wf, fun r rm => ?_⟩, core.bare.separate,
    layout.release mem piece, ?_, fun h hm => ?_⟩, ?_, core.area, core.inBounds⟩
  · exact (layout.freeApart r rm g mem).symm.part low high
  · exact high.trans (layout.grantInside g mem)
  · rcases Finset.mem_union.1 hm with kept | left
    · exact (layout.grantsApart g mem h (Finset.mem_of_mem_erase kept)
        (Finset.ne_of_mem_erase kept).symm).part low high
    · exact (piece.leftover gwf left).2.2.2.2.2
  · refine ⟨core.marked.first, core.marked.last, fun h hm => ?_, fun h hm fill p covers => ?_,
      fun p isSet => ?_⟩
    · rcases Finset.mem_union.1 hm with kept | left
      · exact core.marked.grant h (Finset.mem_of_mem_erase kept)
      · obtain ⟨-, fill, hwf, -⟩ := piece.leftover gwf left
        have within : ∀ x, h.extent.Covers x → g.extent.Covers x := fun x covers =>
          (piece.covers x).2 (.inr ⟨h, left, covers⟩)
        exact ⟨core.marked.filled g mem fill _ (within _ (covers_firstPage hwf)),
          core.marked.filled g mem fill _ (within _ (covers_lastPage hwf))⟩
    · rcases Finset.mem_union.1 hm with kept | left
      · exact core.marked.filled h (Finset.mem_of_mem_erase kept) fill p covers
      · exact core.marked.filled g mem (piece.leftover gwf left).2.1 p
          ((piece.covers _).2 (.inr ⟨h, left, covers⟩))
    · rcases core.marked.origin p isSet with free | ⟨h, hm, interior⟩ | impossible
      · exact .inl free
      · by_cases same : h = g
        · -- A stale bit inside an unfilled grant: the whole grant is the piece.
          subst same
          right; right
          rw [piece.whole interior.1]
          have below := interior.2.1
          have above := interior.2.2
          simp only [Covers, Grant.extent, pageSize] at *
          omega
        · exact .inr (.inl ⟨h, Finset.mem_union_left _ (Finset.mem_erase.2 ⟨same, hm⟩), interior⟩)
      · exact impossible.elim

/-- **`free` of a granted piece** makes exactly its pages free. -/
theorem Core.freeGrant (core : Core s F G) (mem : g ∈ G) (piece : g.Piece q)
    (header : s.mem q.1 = q.2) :
    ∃ F', Core (s.free q.1) F' (release G g q) ∧
      ∀ x, Covered F' x ↔ q.Covers x ∨ Covered F x :=
  (core.ungrant mem piece header).free

theorem Bare.ownerWrite {bound : ℕ} (bare : Bare bound s F G) (mem : g ∈ G) {addr v : ℕ}
    (inside : g.extent.Covers addr) (word : addr % 8 = 0) : Bare bound (s.write addr v) F G := by
  refine ⟨bare.rep.write fun r rm => ?_, bare.separate, bare.layout⟩
  have apart := bare.layout.freeApart r rm g mem
  have := (bare.rep.wf r rm).page_le
  simp only [Apart, Covers, pageSize] at *
  omega

theorem Core.ownerWrite (core : Core s F G) (mem : g ∈ G) {addr v : ℕ}
    (inside : g.extent.Covers addr) (word : addr % 8 = 0) : Core (s.write addr v) F G :=
  ⟨core.bare.ownerWrite mem inside word, core.marked, core.area, core.inBounds⟩

end Free

end MiniOsv.Mempool
