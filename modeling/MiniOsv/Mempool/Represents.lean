/-
# Mempool.Represents -- the containers hold a set of ranges

`Represents s F` says that the containers, the headers and the back pointers of the
allocator `s` are those of the finite set `F` of free ranges: every range of `F` is
linked in the container of its order and nowhere else, its header holds its size and
its last word holds its address.  `Pending s F P` adds a range `P` that is in no
container, disjoint from `F`, with its size in its header: the range an operation is
working on.

Each primitive gets one lemma here: `remove` takes a range out (`Represents.remove`),
`insert` links the pending range (`Pending.insert`), a pending range is cut in two with
one part inserted (`Pending.cutBack`, `Pending.cutFront`), and it absorbs a neighbour
(`Pending.mergePrev`, `Pending.mergeNext`).
-/
import MiniOsv.Mempool.PageRanges
import MiniOsv.Theory.Extent

namespace MiniOsv.Mempool

open Theory Finset List
open Function (update update_of_ne)

/-- A nonempty extent of whole pages. -/
structure PageExtent (r : Extent) : Prop where
  aligned : r.1 % pageSize = 0
  whole : r.2 % pageSize = 0
  pos : 0 < r.2

theorem PageExtent.page_le {r : Extent} (wf : PageExtent r) : pageSize ≤ r.2 := by
  have whole := wf.whole
  have pos := wf.pos
  simp only [pageSize] at *
  omega

/-- The index of the container for ranges of `size` bytes: `maxOrder` is the tree. -/
def bucketOf (size : ℕ) : ℕ := min (orderOf size) maxOrder

theorem bucketOf_le (size : ℕ) : bucketOf size ≤ maxOrder := min_le_right _ _

theorem bucketOf_huge {size : ℕ} (huge : maxOrder ≤ orderOf size) : bucketOf size = maxOrder :=
  min_eq_right huge

theorem bucketOf_small {size : ℕ} (small : ¬ maxOrder ≤ orderOf size) :
    bucketOf size = orderOf size :=
  min_eq_left (Nat.le_of_not_le small)

namespace PageRangeAllocator

def container (s : PageRangeAllocator) (k : ℕ) : List ℕ :=
  if k = maxOrder then s.freeHuge else s.freeList k

/-! ## What the primitives leave alone -/

section Frame

variable (s : PageRangeAllocator) (useBitmap value fill : Bool) (pr addr v order : ℕ)

@[simp] theorem write_mem : (s.write addr v).mem = update s.mem addr v := rfl
@[simp] theorem write_container : (s.write addr v).container = s.container := rfl
@[simp] theorem write_notEmpty : (s.write addr v).notEmpty = s.notEmpty := rfl
@[simp] theorem write_bitmap : (s.write addr v).bitmap = s.bitmap := rfl
@[simp] theorem write_faulted : (s.write addr v).faulted = s.faulted := rfl
@[simp] theorem write_freeHuge : (s.write addr v).freeHuge = s.freeHuge := rfl

@[simp] theorem setBits_mem : (s.setBits pr value fill).mem = s.mem := by
  simp only [setBits]; split <;> rfl
@[simp] theorem setBits_freeHuge : (s.setBits pr value fill).freeHuge = s.freeHuge := by
  simp only [setBits]; split <;> rfl
@[simp] theorem setBits_freeList : (s.setBits pr value fill).freeList = s.freeList := by
  simp only [setBits]; split <;> rfl
@[simp] theorem setBits_container : (s.setBits pr value fill).container = s.container := by
  simp only [setBits]; split <;> rfl
@[simp] theorem setBits_notEmpty : (s.setBits pr value fill).notEmpty = s.notEmpty := by
  simp only [setBits]; split <;> rfl

@[simp] theorem insert_mem :
    (s.insert useBitmap pr).mem = update s.mem (pr + s.mem pr - 8) pr := by
  simp only [insert]
  split <;> split <;> simp [write]

@[simp] theorem remove_mem : (s.remove pr).mem = s.mem := by
  simp only [remove, removeHuge, removeList]; split <;> rfl
@[simp] theorem remove_bitmap : (s.remove pr).bitmap = s.bitmap := by
  simp only [remove, removeHuge, removeList]; split <;> rfl
@[simp] theorem remove_faulted : (s.remove pr).faulted = s.faulted := by
  simp only [remove, removeHuge, removeList]; split <;> rfl

/-- What only the stores to the bitmap change. -/
structure SameBits (s t : PageRangeAllocator) : Prop where
  bitmap : t.bitmap = s.bitmap
  faulted : t.faulted = s.faulted

theorem SameBits.trans {s t u : PageRangeAllocator} (st : SameBits s t) (tu : SameBits t u) :
    SameBits s u :=
  ⟨tu.bitmap.trans st.bitmap, tu.faulted.trans st.faulted⟩

theorem remove_bits : SameBits s (s.remove pr) := ⟨remove_bitmap s pr, remove_faulted s pr⟩

theorem insert_false_bits : SameBits s (s.insert false pr) := by
  simp only [insert, Bool.false_eq_true, if_false]
  split <;> exact ⟨rfl, rfl⟩

/-- What only `initialAdd` and the accounting change. -/
structure SameBitmapStore (s t : PageRangeAllocator) : Prop where
  size : t.bitmapSize = s.bitmapSize
  buf : t.bitmapBuf = s.bitmapBuf
  capacity : t.bitmapCapacity = s.bitmapCapacity
  deferred : t.deferredFree = s.deferredFree
  memory : t.freeMemory = s.freeMemory

theorem SameBitmapStore.refl : SameBitmapStore s s := ⟨rfl, rfl, rfl, rfl, rfl⟩

theorem SameBitmapStore.trans {s t u : PageRangeAllocator} (st : SameBitmapStore s t)
    (tu : SameBitmapStore t u) : SameBitmapStore s u :=
  ⟨tu.size.trans st.size, tu.buf.trans st.buf, tu.capacity.trans st.capacity,
    tu.deferred.trans st.deferred, tu.memory.trans st.memory⟩

theorem write_store : SameBitmapStore s (s.write addr v) := ⟨rfl, rfl, rfl, rfl, rfl⟩

theorem setBits_store : SameBitmapStore s (s.setBits pr value fill) := by
  simp only [setBits]; split <;> exact ⟨rfl, rfl, rfl, rfl, rfl⟩

theorem insert_store : SameBitmapStore s (s.insert useBitmap pr) := by
  simp only [insert]
  split <;> split <;> exact ⟨rfl, rfl, rfl, rfl, rfl⟩

theorem remove_store : SameBitmapStore s (s.remove pr) := by
  simp only [remove, removeHuge, removeList]; split <;> exact ⟨rfl, rfl, rfl, rfl, rfl⟩

@[simp] theorem write_bitmapSize : (s.write addr v).bitmapSize = s.bitmapSize := rfl
@[simp] theorem setBits_bitmapSize : (s.setBits pr value fill).bitmapSize = s.bitmapSize :=
  (setBits_store s value fill pr).size
@[simp] theorem insert_bitmapSize : (s.insert useBitmap pr).bitmapSize = s.bitmapSize :=
  (insert_store s useBitmap pr).size
@[simp] theorem remove_bitmapSize : (s.remove pr).bitmapSize = s.bitmapSize :=
  (remove_store s pr).size

end Frame

section

variable (s : PageRangeAllocator)

include s

theorem mergePrev_bits (pr : ℕ) : SameBits s (s.mergePrev pr).2 :=
  ⟨by simp [mergePrev], by simp [mergePrev]⟩

theorem mergeNext_bits (pr : ℕ) : SameBits s (s.mergeNext pr) :=
  ⟨by simp [mergeNext], by simp [mergeNext]⟩

theorem mergePrev_store (pr : ℕ) : SameBitmapStore s (s.mergePrev pr).2 :=
  (remove_store s _).trans (write_store _ _ _)

theorem mergeNext_store (pr : ℕ) : SameBitmapStore s (s.mergeNext pr) :=
  (remove_store s _).trans (write_store _ _ _)

end

/-! ## Containers -/

theorem insertHuge_perm (mem : ℕ → ℕ) (pr : ℕ) (l : List ℕ) :
    (insertHuge mem pr l).Perm (pr :: l) := by
  induction l with
  | nil => exact List.Perm.refl _
  | cons q rest ih =>
    simp only [insertHuge]
    split
    · exact List.Perm.refl _
    · exact (ih.cons q).trans (List.Perm.swap pr q rest)

/-- Insertion after the elements that are not larger keeps the tree ordered by size. -/
theorem insertHuge_sorted (mem : ℕ → ℕ) (pr : ℕ) {l : List ℕ}
    (sorted : l.Pairwise fun a b => mem a ≤ mem b) :
    (insertHuge mem pr l).Pairwise fun a b => mem a ≤ mem b := by
  induction l with
  | nil => simp [insertHuge]
  | cons q rest ih =>
    obtain ⟨below, restSorted⟩ := pairwise_cons.1 sorted
    simp only [insertHuge]
    split
    next smaller =>
      refine pairwise_cons.2 ⟨fun b mem => ?_, sorted⟩
      rcases mem_cons.1 mem with rfl | mem
      · exact smaller.le
      · exact smaller.le.trans (below b mem)
    next notSmaller =>
      refine pairwise_cons.2 ⟨fun b member => ?_, ih restSorted⟩
      rcases mem_cons.1 ((insertHuge_perm mem pr rest).mem_iff.1 member) with rfl | mem
      · exact Nat.le_of_not_lt notSmaller
      · exact below b mem

section

variable (s : PageRangeAllocator)

include s

theorem insert_container_self (useBitmap : Bool) (pr : ℕ) :
    ((s.insert useBitmap pr).container (bucketOf (s.mem pr))).Perm
      (pr :: s.container (bucketOf (s.mem pr))) := by
  by_cases huge : maxOrder ≤ orderOf (s.mem pr)
  · simp only [bucketOf_huge huge, container, if_true, insert, ge_iff_le, huge]
    split <;> simpa using insertHuge_perm _ pr s.freeHuge
  · have small : orderOf (s.mem pr) ≠ maxOrder := by omega
    simp only [bucketOf_small huge, insert, ge_iff_le, huge, if_false]
    split <;> simp [container, small, write]

theorem insert_container_ne (useBitmap : Bool) (pr k : ℕ)
    (ne : k ≠ bucketOf (s.mem pr)) : (s.insert useBitmap pr).container k = s.container k := by
  by_cases huge : maxOrder ≤ orderOf (s.mem pr)
  · rw [bucketOf_huge huge] at ne
    simp only [insert, ge_iff_le, huge, if_true]
    split <;> simp [container, ne, write]
  · rw [bucketOf_small huge] at ne
    simp only [insert, ge_iff_le, huge, if_false]
    split <;> simp [container, ne, write]

theorem insert_notEmpty (useBitmap : Bool) (pr : ℕ) :
    (s.insert useBitmap pr).notEmpty = update s.notEmpty (bucketOf (s.mem pr)) true := by
  by_cases huge : maxOrder ≤ orderOf (s.mem pr)
  · simp only [bucketOf_huge huge, insert, ge_iff_le, huge, if_true]
    split <;> simp [write]
  · simp only [bucketOf_small huge, insert, ge_iff_le, huge, if_false]
    split <;> simp [write]

theorem insert_sorted (useBitmap : Bool) (pr : ℕ)
    (sorted : s.freeHuge.Pairwise fun a b =>
      update s.mem (pr + s.mem pr - 8) pr a ≤
        update s.mem (pr + s.mem pr - 8) pr b) :
    (s.insert useBitmap pr).freeHuge.Pairwise fun a b =>
      (s.insert useBitmap pr).mem a ≤ (s.insert useBitmap pr).mem b := by
  by_cases huge : maxOrder ≤ orderOf (s.mem pr)
  · simp only [insert, ge_iff_le, huge, if_true]
    split <;> simpa using insertHuge_sorted _ pr sorted
  · simp only [insert, ge_iff_le, huge, if_false]
    split <;> simpa using sorted

theorem remove_container (pr k : ℕ) :
    (s.remove pr).container k =
      if k = bucketOf (s.mem pr) then (s.container k).erase pr else s.container k := by
  by_cases huge : maxOrder ≤ orderOf (s.mem pr)
  · simp only [remove, ge_iff_le, huge, if_true, bucketOf_huge huge, container, removeHuge]
    split <;> rfl
  · have small : orderOf (s.mem pr) ≠ maxOrder := by omega
    simp only [remove, ge_iff_le, huge, if_false, bucketOf_small huge, container, removeList]
    by_cases same : k = orderOf (s.mem pr)
    · simp [same, small]
    · simp [same]

theorem remove_notEmpty (pr : ℕ) :
    (s.remove pr).notEmpty =
      if ((s.container (bucketOf (s.mem pr))).erase pr).isEmpty then
        update s.notEmpty (bucketOf (s.mem pr)) false
      else s.notEmpty := by
  by_cases huge : maxOrder ≤ orderOf (s.mem pr)
  · simp only [remove, ge_iff_le, huge, if_true, bucketOf_huge huge, container, removeHuge]
  · have small : orderOf (s.mem pr) ≠ maxOrder := by omega
    simp only [remove, ge_iff_le, huge, if_false, bucketOf_small huge, container, removeList, small]

theorem remove_freeHuge_sublist (pr : ℕ) : (s.remove pr).freeHuge.Sublist s.freeHuge := by
  have huge := remove_container s pr maxOrder
  simp only [container, if_true] at huge
  rw [huge]
  split
  · exact erase_sublist
  · exact List.Sublist.refl _

end

end PageRangeAllocator

open PageRangeAllocator

/-! ## The represented set of ranges -/

/-- The containers, headers and back pointers of `s` are those of the ranges `F`. -/
structure Represents (s : PageRangeAllocator) (F : Finset Extent) : Prop where
  linked : ∀ k ≤ maxOrder, ∀ a, a ∈ s.container k ↔ ∃ n, (a, n) ∈ F ∧ bucketOf n = k
  nodup : ∀ k ≤ maxOrder, (s.container k).Nodup
  notEmpty : ∀ k ≤ maxOrder, s.notEmpty k = !(s.container k).isEmpty
  sorted : s.freeHuge.Pairwise fun a b => s.mem a ≤ s.mem b
  header : ∀ r ∈ F, s.mem r.1 = r.2
  back : ∀ r ∈ F, s.mem (r.1 + r.2 - 8) = r.1
  wf : ∀ r ∈ F, PageExtent r
  apart : ∀ r ∈ F, ∀ q ∈ F, r ≠ q → r.Apart q

namespace Represents

variable {s t : PageRangeAllocator} {F : Finset Extent}

section

variable (rep : Represents s F)

include rep

theorem eq_of_start {r q : Extent} (rmem : r ∈ F) (qmem : q ∈ F) (same : r.1 = q.1) : r = q := by
  have rheader := rep.header r rmem
  have qheader := rep.header q qmem
  exact Prod.ext same (by rw [← rheader, ← qheader, same])

/-- A header is linked in the container its own size word selects. -/
theorem mem_container {r : Extent} (mem : r ∈ F) : r.1 ∈ s.container (bucketOf r.2) :=
  (rep.linked _ (bucketOf_le _) _).2 ⟨r.2, mem, rfl⟩

theorem mem_ordersFrom {r : Extent} (mem : r ∈ F) {exactOrder : ℕ}
    (le : exactOrder ≤ bucketOf r.2) : bucketOf r.2 ∈ s.ordersFrom exactOrder := by
  simp only [ordersFrom, List.mem_filter, List.mem_range, Bool.and_eq_true, decide_eq_true_eq]
  refine ⟨Nat.lt_succ_of_le (bucketOf_le _), le, ?_⟩
  rw [rep.notEmpty _ (bucketOf_le _), Bool.not_eq_true', isEmpty_eq_false_iff]
  exact ne_nil_of_mem (rep.mem_container mem)

/-- The order that the search for a range begins with. -/
theorem of_ordersFrom {exactOrder order : ℕ} {rest : List ℕ}
    (orders : s.ordersFrom exactOrder = order :: rest) :
    order ≤ maxOrder ∧ exactOrder ≤ order ∧ s.container order ≠ [] := by
  have chosen : order ∈ s.ordersFrom exactOrder := by
    rw [orders]
    exact mem_cons_self
  simp only [ordersFrom, List.mem_filter, List.mem_range, Bool.and_eq_true,
    decide_eq_true_eq] at chosen
  obtain ⟨inside, above, nonempty⟩ := chosen
  have le := Nat.le_of_lt_succ inside
  rw [rep.notEmpty order le, Bool.not_eq_true', isEmpty_eq_false_iff] at nonempty
  exact ⟨le, above, nonempty⟩

theorem of_mem_container {k a : ℕ} (le : k ≤ maxOrder)
    (mem : a ∈ s.container k) : (a, s.mem a) ∈ F ∧ bucketOf (s.mem a) = k := by
  obtain ⟨n, inF, bucket⟩ := (rep.linked k le a).1 mem
  have size : s.mem a = n := rep.header _ inF
  rw [size]
  exact ⟨inF, bucket⟩

theorem congr (container : t.container = s.container)
    (notEmpty : t.notEmpty = s.notEmpty)
    (same : ∀ r ∈ F, t.mem r.1 = s.mem r.1 ∧ t.mem (r.1 + r.2 - 8) = s.mem (r.1 + r.2 - 8)) :
    Represents t F where
  linked := by rw [container]; exact rep.linked
  nodup := by rw [container]; exact rep.nodup
  notEmpty := by rw [container, notEmpty]; exact rep.notEmpty
  sorted := by
    have huge : t.freeHuge = s.freeHuge := by
      have := congrFun container maxOrder
      simpa [PageRangeAllocator.container] using this
    rw [huge]
    refine rep.sorted.imp_of_mem fun {a b} amem bmem le => ?_
    have headerOf : ∀ c ∈ s.freeHuge, t.mem c = s.mem c := by
      intro c cmem
      have inF := (rep.of_mem_container (le_refl maxOrder)
        (by simpa [PageRangeAllocator.container] using cmem)).1
      exact (same _ inF).1
    rw [headerOf a amem, headerOf b bmem]
    exact le
  header := fun r mem => (same r mem).1.trans (rep.header r mem)
  back := fun r mem => (same r mem).2.trans (rep.back r mem)
  wf := rep.wf
  apart := rep.apart

theorem write {addr v : ℕ}
    (other : ∀ r ∈ F, addr ≠ r.1 ∧ addr ≠ r.1 + r.2 - 8) : Represents (s.write addr v) F := by
  refine rep.congr rfl rfl fun r mem => ?_
  obtain ⟨notHeader, notBack⟩ := other r mem
  simp [update_of_ne notHeader.symm, update_of_ne notBack.symm]

theorem setBits (pr : ℕ) (value fill : Bool) : Represents (s.setBits pr value fill) F :=
  rep.congr (by simp) (by simp) (by simp)

theorem remove {r : Extent} (mem : r ∈ F) : Represents (s.remove r.1) (F.erase r) := by
  have size : s.mem r.1 = r.2 := rep.header r mem
  have unlinked : ∀ k ≤ maxOrder, ∀ a,
      a ∈ (s.remove r.1).container k ↔ a ∈ s.container k ∧ a ≠ r.1 := by
    intro k le a
    rw [remove_container, size]
    split
    · rw [(rep.nodup k le).mem_erase_iff, and_comm]
    next other =>
      refine ⟨fun h => ⟨h, ?_⟩, And.left⟩
      rintro rfl
      have bucket := (rep.of_mem_container le h).2
      exact other (by rw [← bucket, size])
  refine ⟨?_, ?_, ?_, ?_, ?_, ?_, ?_, ?_⟩
  · intro k le a
    rw [unlinked k le, rep.linked k le]
    constructor
    · rintro ⟨⟨n, inF, bucket⟩, ne⟩
      exact ⟨n, mem_erase.2 ⟨fun same => ne (by rw [← same]), inF⟩, bucket⟩
    · rintro ⟨n, inF, bucket⟩
      obtain ⟨ne, inF⟩ := mem_erase.1 inF
      exact ⟨⟨n, inF, bucket⟩, fun same => ne (rep.eq_of_start inF mem same)⟩
  · intro k le
    rw [remove_container]
    split
    · exact (rep.nodup k le).erase _
    · exact rep.nodup k le
  · intro k le
    rw [remove_container, remove_notEmpty, size]
    by_cases same : k = bucketOf r.2
    · subst same
      rw [if_pos rfl]
      split
      next empty =>
        simp [empty]
      next nonempty =>
        have linked := rep.mem_container mem
        have before : s.notEmpty (bucketOf r.2) = true := by
          rw [rep.notEmpty _ le, Bool.not_eq_true', isEmpty_eq_false_iff]
          exact ne_nil_of_mem linked
        rw [before]
        simpa using nonempty
    · rw [if_neg same]
      split
      · rw [update_of_ne same]; exact rep.notEmpty k le
      · exact rep.notEmpty k le
  · simpa using rep.sorted.sublist (remove_freeHuge_sublist s r.1)
  · intro q qmem; simpa using rep.header q (mem_of_mem_erase qmem)
  · intro q qmem; simpa using rep.back q (mem_of_mem_erase qmem)
  · intro q qmem; exact rep.wf q (mem_of_mem_erase qmem)
  · intro q qmem p pmem
    exact rep.apart q (mem_of_mem_erase qmem) p (mem_of_mem_erase pmem)

end

end Represents

/-! ## Words of distinct ranges -/

/-- A header is page aligned and a back pointer is not. -/
theorem PageExtent.start_ne_back {r : Extent} {a : ℕ} (wf : PageExtent r)
    (aligned : a % pageSize = 0) : a ≠ r.1 + r.2 - 8 := by
  have := wf.aligned
  have := wf.whole
  have := wf.pos
  simp only [pageSize] at *
  omega

theorem PageExtent.back_ne_back {r q : Extent} (wfr : PageExtent r) (wfq : PageExtent q)
    (apart : r.Apart q) : r.1 + r.2 - 8 ≠ q.1 + q.2 - 8 := by
  have := wfr.page_le
  have := wfq.page_le
  simp only [pageSize, Extent.Apart] at *
  omega

theorem PageExtent.start_ne {r q : Extent} {a : ℕ} (wfq : PageExtent q) (apart : r.Apart q)
    (covers : r.Covers a) : a ≠ q.1 := by
  have := wfq.pos
  simp only [Extent.Apart, Extent.Covers] at *
  omega

/-! ## The range an operation is working on -/

/-- `P` is in no container and disjoint from `F`, and its header holds its size. -/
structure Pending (s : PageRangeAllocator) (F : Finset Extent) (P : Extent) : Prop where
  rep : Represents s F
  header : s.mem P.1 = P.2
  wf : PageExtent P
  apart : ∀ r ∈ F, P.Apart r

theorem Represents.pend {s : PageRangeAllocator} {F : Finset Extent} (rep : Represents s F)
    {r : Extent} (mem : r ∈ F) : Pending (s.remove r.1) (F.erase r) r where
  rep := rep.remove mem
  header := by simpa using rep.header r mem
  wf := rep.wf r mem
  apart := fun q qmem =>
    rep.apart r mem q (mem_of_mem_erase qmem) (ne_of_mem_erase qmem).symm

namespace Pending

variable {s : PageRangeAllocator} {F : Finset Extent} {P r : Extent} {k : ℕ}

section

variable (pend : Pending s F P)

include pend

theorem covers_start : P.Covers P.1 :=
  ⟨le_refl _, Nat.lt_add_of_pos_right pend.wf.pos⟩

/-- A page start inside the pending range is no word of `F`. -/
theorem write {addr v : ℕ} (aligned : addr % pageSize = 0)
    (inside : P.Covers addr) : Represents (s.write addr v) F :=
  pend.rep.write fun r mem =>
    ⟨(pend.rep.wf r mem).start_ne (pend.apart r mem) inside,
      (pend.rep.wf r mem).start_ne_back aligned⟩

theorem insert (useBitmap : Bool) : Represents (s.insert useBitmap P.1) (insert P F) := by
  have size := pend.header
  have written : Represents (s.write (P.1 + P.2 - 8) P.1) F :=
    pend.rep.write fun r mem =>
      ⟨((pend.wf.start_ne_back (pend.rep.wf r mem).aligned)).symm,
        pend.wf.back_ne_back (pend.rep.wf r mem) (pend.apart r mem)⟩
  have fresh : ∀ k ≤ maxOrder, P.1 ∉ s.container k := by
    intro k le mem
    have inF := (pend.rep.of_mem_container le mem).1
    exact (pend.rep.wf _ inF).start_ne (pend.apart _ inF) pend.covers_start rfl
  refine ⟨?_, ?_, ?_, ?_, ?_, ?_, ?_, ?_⟩
  · intro k le a
    by_cases same : k = bucketOf P.2
    · subst same
      have perm := insert_container_self s useBitmap P.1
      rw [size] at perm
      rw [perm.mem_iff, List.mem_cons, pend.rep.linked _ le]
      constructor
      · rintro (rfl | ⟨n, inF, bucket⟩)
        · exact ⟨P.2, mem_insert_self _ _, rfl⟩
        · exact ⟨n, mem_insert_of_mem inF, bucket⟩
      · rintro ⟨n, inF, bucket⟩
        rcases mem_insert.1 inF with eq | inF
        · exact .inl (by rw [← eq])
        · exact .inr ⟨n, inF, bucket⟩
    · rw [insert_container_ne s useBitmap P.1 k (by rw [size]; exact same),
        pend.rep.linked k le]
      constructor <;> rintro ⟨n, inF, bucket⟩
      · exact ⟨n, mem_insert_of_mem inF, bucket⟩
      · rcases mem_insert.1 inF with eq | inF
        · exact absurd (by rw [← bucket, ← eq]) same
        · exact ⟨n, inF, bucket⟩
  · intro k le
    by_cases same : k = bucketOf P.2
    · subst same
      have perm := insert_container_self s useBitmap P.1
      rw [size] at perm
      rw [perm.nodup_iff, nodup_cons]
      exact ⟨fresh _ le, pend.rep.nodup _ le⟩
    · rw [insert_container_ne s useBitmap P.1 k (by rw [size]; exact same)]
      exact pend.rep.nodup k le
  · intro k le
    rw [insert_notEmpty, size]
    by_cases same : k = bucketOf P.2
    · subst same
      have perm := insert_container_self s useBitmap P.1
      rw [size] at perm
      have linked := perm.mem_iff.2 mem_cons_self
      simpa using ne_nil_of_mem linked
    · rw [insert_container_ne s useBitmap P.1 k (by rw [size]; exact same),
        update_of_ne same]
      exact pend.rep.notEmpty k le
  · apply insert_sorted
    simpa [size] using written.sorted
  · intro q qmem
    rw [insert_mem, size]
    rcases mem_insert.1 qmem with rfl | qmem
    · rw [update_of_ne (pend.wf.start_ne_back pend.wf.aligned)]
      exact size
    · exact written.header q qmem
  · intro q qmem
    rw [insert_mem, size]
    rcases mem_insert.1 qmem with rfl | qmem
    · simp
    · exact written.back q qmem
  · intro q qmem
    rcases mem_insert.1 qmem with rfl | qmem
    · exact pend.wf
    · exact pend.rep.wf q qmem
  · intro q qmem p pmem ne
    rcases mem_insert.1 qmem with qnew | qold <;>
      rcases mem_insert.1 pmem with pnew | pold
    · exact absurd (qnew.trans pnew.symm) ne
    · exact qnew ▸ pend.apart p pold
    · exact pnew ▸ (pend.apart q qold).symm
    · exact pend.rep.apart q qold p pold ne

/-- Insert a part of the pending range and keep another. -/
theorem cut (useBitmap : Bool) {q kept : Extent} (wf : PageExtent q) (keptWf : PageExtent kept)
    (apart : q.Apart kept) (low : P.1 ≤ q.1) (high : q.1 + q.2 ≤ P.1 + P.2)
    (keptLow : P.1 ≤ kept.1) (keptHigh : kept.1 + kept.2 ≤ P.1 + P.2) :
    Pending (((s.write q.1 q.2).insert useBitmap q.1).write kept.1 kept.2)
      (Insert.insert q F) kept := by
  have pos := wf.pos
  have keptPos := keptWf.pos
  have part : Pending (s.write q.1 q.2) F q :=
    { rep := pend.write wf.aligned ⟨low, by omega⟩
      header := by simp
      wf := wf
      apart := fun r mem => (pend.apart r mem).part low high }
  have linked := part.insert useBitmap
  refine ⟨linked.write fun r mem => ⟨?_, (linked.wf r mem).start_ne_back keptWf.aligned⟩,
    by simp, keptWf, ?_⟩
  · rcases mem_insert.1 mem with rfl | mem
    · simp only [Extent.Apart] at apart
      omega
    · exact (pend.rep.wf r mem).start_ne (pend.apart r mem) ⟨keptLow, by omega⟩
  · intro r mem
    rcases mem_insert.1 mem with rfl | mem
    · exact apart.symm
    · exact (pend.apart r mem).part keptLow keptHigh

theorem cutBack (useBitmap : Bool) (whole : k % pageSize = 0) (pos : 0 < k) (less : k < P.2) :
    Pending (((s.write (P.1 + k) (P.2 - k)).insert useBitmap (P.1 + k)).write P.1 k)
      (Insert.insert (P.1 + k, P.2 - k) F) (P.1, k) := by
  have aligned := pend.wf.aligned
  have all := pend.wf.whole
  have rest : PageExtent (P.1 + k, P.2 - k) := by
    constructor <;> simp only [pageSize] at * <;> omega
  have front : PageExtent (P.1, k) := ⟨aligned, whole, pos⟩
  exact pend.cut useBitmap rest front (.inr (le_refl _)) (by simp) (by simp; omega) (le_refl _)
    (by simp; omega)

theorem cutFront (useBitmap : Bool) (whole : k % pageSize = 0) (pos : 0 < k) (less : k < P.2) :
    Pending (((s.write P.1 (P.2 - k)).insert useBitmap P.1).write (P.1 + (P.2 - k)) k)
      (Insert.insert (P.1, P.2 - k) F) (P.1 + (P.2 - k), k) := by
  have aligned := pend.wf.aligned
  have all := pend.wf.whole
  have front : PageExtent (P.1, P.2 - k) := by
    constructor <;> simp only [pageSize] at * <;> omega
  have kept : PageExtent (P.1 + (P.2 - k), k) := by
    constructor <;> simp only [pageSize] at * <;> omega
  exact pend.cut useBitmap front kept (.inl (le_refl _)) (le_refl _) (by simp) (by simp)
    (by simp; omega)

/-- The back pointer of the range on the left leads `mergePrev` to its header. -/
theorem mergePrev (mem : r ∈ F) (adjacent : r.1 + r.2 = P.1) :
    (s.mergePrev P.1).1 = r.1 ∧
      Pending (s.mergePrev P.1).2 (F.erase r) (r.1, r.2 + P.2) := by
  have found : s.mem (P.1 - 8) = r.1 := by rw [← adjacent]; exact pend.rep.back r mem
  have rwf := pend.rep.wf r mem
  have removed := pend.rep.pend mem
  have merged : PageExtent (r.1, r.2 + P.2) := by
    have := rwf.aligned
    have := rwf.whole
    have := rwf.pos
    have := pend.wf.whole
    constructor <;> simp only [pageSize] at * <;> omega
  simp only [PageRangeAllocator.mergePrev, found, true_and]
  refine ⟨removed.write rwf.aligned removed.covers_start, ?_, merged, fun q qmem => ?_⟩
  · simp [pend.rep.header r mem, pend.header]
  · have fromRemoved := removed.apart q qmem
    have fromPending := pend.apart q (mem_of_mem_erase qmem)
    have := (pend.rep.wf q (mem_of_mem_erase qmem)).pos
    simp only [Extent.Apart] at *
    omega

theorem mergeNext (mem : r ∈ F) (adjacent : P.1 + P.2 = r.1) :
    Pending (s.mergeNext P.1) (F.erase r) (P.1, P.2 + r.2) := by
  have rwf := pend.rep.wf r mem
  have removed := pend.rep.pend mem
  have merged : PageExtent (P.1, P.2 + r.2) := by
    have := pend.wf.aligned
    have := pend.wf.whole
    have := pend.wf.pos
    have := rwf.whole
    constructor <;> simp only [pageSize] at * <;> omega
  have still : Pending (s.remove r.1) (F.erase r) P :=
    { rep := removed.rep
      header := by simpa using pend.header
      wf := pend.wf
      apart := fun q qmem => pend.apart q (mem_of_mem_erase qmem) }
  simp only [PageRangeAllocator.mergeNext, pend.header, adjacent]
  refine ⟨still.write pend.wf.aligned still.covers_start, ?_, merged, fun q qmem => ?_⟩
  · simp [pend.rep.header r mem, pend.header]
  · have fromRemoved := removed.apart q qmem
    have fromPending := pend.apart q (mem_of_mem_erase qmem)
    have := (pend.rep.wf q (mem_of_mem_erase qmem)).pos
    simp only [Extent.Apart] at *
    omega

end

end Pending

end MiniOsv.Mempool
