/-
# Mempool.AllocComplete -- a request fails only when no free range fits

`alloc` looks for a range by its order: in the first container whose order guarantees a fit, and
below that only in the one list that may hold a fit.  `alloc_aligned` visits the ranges from an
order on.  Whether they find a range is order arithmetic (`orderOf_mono`,
`ilog2Roundup_le_succ`), and what they do with the range they find is `Core.takeFront` and
`Core.carve`.  The free ranges after an allocation are those before it with a block cut out of
one of them, because a set of separated ranges is determined by the addresses it covers.
-/
import Mathlib.Data.Nat.Log
import MiniOsv.Mempool.Contract

namespace MiniOsv.Mempool

open Theory List Nat

open PageRangeAllocator

/-! ## Order arithmetic -/

theorem ilog2_mono {m n : ℕ} (le : m ≤ n) : ilog2 m ≤ ilog2 n := by
  unfold ilog2
  split
  · exact zero_le _
  · rw [if_neg (by omega), log2_eq_log_two, log2_eq_log_two]
    exact log_mono_right le

theorem orderOf_mono {m n : ℕ} (le : m ≤ n) : orderOf m ≤ orderOf n :=
  ilog2_mono (Nat.div_le_div_right le)

theorem ilog2Roundup_le_succ (n : ℕ) : ilog2Roundup n ≤ ilog2 n + 1 := by
  unfold ilog2Roundup ilog2
  split
  · exact zero_le _
  · rw [log2_eq_log_two, log2_eq_log_two]
    exact succ_le_succ (log_mono_right (sub_le n 1))

/-! ## What an allocation should do -/

/-- A block of `size` bytes was cut out of the free range `r` at `b`: the range in front of it
and the range behind it are free, as is every other range. -/
structure Cut (s : PageRangeAllocator) (size : ℕ) (r : Extent) (b : ℕ) (s' : PageRangeAllocator) :
    Prop where
  header : s'.mem b = size
  ranges : s'.freeRanges.toFinset = cutOut s.freeRanges.toFinset r b size

/-- `alloc` returns: null exactly when no free range is large enough, and the front of one
otherwise. -/
def AllocSpec (s : PageRangeAllocator) (size : ℕ) (result : Option ℕ × PageRangeAllocator) : Prop :=
  result.2.faulted = false ∧ (result.1 = none ↔ ∀ r ∈ s.freeRanges, r.2 < size) ∧
    ∀ b, result.1 = some b → ∃ r ∈ s.freeRanges, size ≤ r.2 ∧ b = r.1 ∧ Cut s size r b result.2

/-- A page-aligned block of `size` bytes inside of `r`, with `b + offset` aligned. -/
structure AlignedBlock (r : Extent) (size offset alignment b : ℕ) : Prop where
  low : r.1 ≤ b
  high : b + size ≤ r.1 + r.2
  page : b % pageSize = 0
  aligned : (physMem + b + offset) % alignment = 0

/-- `alloc_aligned` returns: null exactly when no free range holds an aligned block, and such a
block otherwise. -/
def AlignedSpec (s : PageRangeAllocator) (size offset alignment : ℕ)
    (result : Option ℕ × PageRangeAllocator) : Prop :=
  result.2.faulted = false ∧
    (result.1 = none ↔ ∀ r ∈ s.freeRanges, ∀ b, ¬AlignedBlock r size offset alignment b) ∧
    ∀ b, result.1 = some b →
      ∃ r ∈ s.freeRanges, AlignedBlock r size offset alignment b ∧ Cut s size r b result.2

section Complete

variable {s : PageRangeAllocator} {F : Finset Extent} {G : Finset Grant} {size : ℕ}

/-! ## The ranges after an allocation -/

/-- A grant that lies inside of one free range leaves the rest of that range. -/
theorem Core.cut (core : Core s F G) {s' : PageRangeAllocator} {F' : Finset Extent} {r : Extent}
    {b : ℕ} {fill : Bool} (core' : Core s' F' (insert ⟨b, size, fill⟩ G)) (pos : 0 < size)
    (cover : ∀ x, Covered F x ↔ Extent.Covers (b, size) x ∨ Covered F' x) (mem : r ∈ F)
    (low : r.1 ≤ b) (high : b + size ≤ r.1 + r.2) (header : s'.mem b = size) : Cut s size r b s' := by
  refine ⟨header, ?_⟩
  rw [core.bare.rep.freeRanges_toFinset, core'.bare.rep.freeRanges_toFinset]
  refine core'.separated.eq_of_covered (core.separated.cutOut mem pos low high) fun x => ?_
  have apart : Covered F' x → ¬Extent.Covers (b, size) x := by
    rintro ⟨q, inF', covers⟩ inBlock
    exact (core'.bare.layout.freeApart q inF' _ (Finset.mem_insert_self _ _)).not_covers covers inBlock
  rw [covered_cutOut mem core.bare.rep.apart low high, cover x]
  tauto

/-! ## alloc -/

theorem Represents.le_last (rep : Represents s F) {a last : ℕ} (linked : a ∈ s.freeHuge)
    (isLast : s.freeHuge.getLast? = some last) : s.mem a ≤ s.mem last := by
  obtain ⟨init, split⟩ := List.getLast?_eq_some_iff.1 isLast
  have sorted := rep.sorted
  rw [split, pairwise_append] at sorted
  rw [split, mem_append, mem_singleton] at linked
  rcases linked with inInit | rfl
  · exact sorted.2.2 a inInit last (mem_singleton_self _)
  · exact le_refl _

/-- The search begins with a container that has ranges; in the tree the largest one has to do. -/
theorem Represents.alloc_of_orders (rep : Represents s F) {contiguous : Bool} {order : ℕ}
    {rest : List ℕ}
    (orders : s.ordersFrom (min (ilog2Roundup (size / pageSize)) maxOrder) = order :: rest)
    (enough : order = maxOrder → ∀ last, s.freeHuge.getLast? = some last → size ≤ s.mem last) :
    (s.alloc true size contiguous).1 ≠ none := by
  obtain ⟨-, -, full⟩ := rep.of_ordersFrom orders
  unfold alloc
  simp only [orders]
  split
  case isTrue huge =>
    have treeFull : s.freeHuge ≠ [] := by simpa [container, huge] using full
    split
    case h_1 missing => exact absurd (List.getLast?_eq_none_iff.1 missing) treeFull
    case h_2 last isLast =>
      rw [if_neg (not_lt.2 (enough huge last isLast))]
      simp [takeFront]
  case isFalse notHuge =>
    have listFull : s.freeList order ≠ [] := by
      simpa [container, notHuge] using full
    split
    case h_1 missing => exact absurd missing listFull
    case h_2 => simp [takeFront]

/-- **`alloc` finds a range whenever one is large enough.** -/
theorem Represents.alloc_ne_none (rep : Represents s F) {r : Extent} (mem : r ∈ F)
    (fits : size ≤ r.2) : (s.alloc true size true).1 ≠ none := by
  have order : ilog2Roundup (size / pageSize) ≤ orderOf r.2 + 1 :=
    (ilog2Roundup_le_succ _).trans (succ_le_succ (orderOf_mono fits))
  have linked := rep.mem_container mem
  have bucketLe := bucketOf_le r.2
  have bucket : bucketOf r.2 = min (orderOf r.2) maxOrder := rfl
  cases orders : s.ordersFrom (min (ilog2Roundup (size / pageSize)) maxOrder) with
  | nil =>
    -- Nothing of a sufficient order, so the range is in the list just below.
    have below : bucketOf r.2 < min (ilog2Roundup (size / pageSize)) maxOrder := by
      by_contra notBelow
      have listed := rep.mem_ordersFrom mem (Nat.le_of_not_lt notBelow)
      rw [orders] at listed
      exact not_mem_nil listed
    have here : min (ilog2Roundup (size / pageSize)) maxOrder - 1 = bucketOf r.2 := by omega
    have inList : r.1 ∈ s.freeList (bucketOf r.2) := by
      simpa [container, show bucketOf r.2 ≠ maxOrder by omega] using linked
    unfold alloc
    simp only [orders]
    rw [here, if_neg]
    · split
      case h_1 missing =>
        have test := List.find?_eq_none.1 missing r.1 inList
        rw [rep.header r mem] at test
        simp [fits] at test
      case h_2 => simp [takeFront]
    · simp only [Bool.not_true, Bool.false_or, Bool.or_eq_true, beq_iff_eq, List.isEmpty_iff, not_or]
      exact ⟨by omega, List.ne_nil_of_mem inList⟩
  | cons order rest =>
    refine rep.alloc_of_orders orders fun _ last isLast => fits.trans ?_
    by_cases inTree : bucketOf r.2 = maxOrder
    · have inHuge : r.1 ∈ s.freeHuge := by
        simpa [container, inTree] using linked
      rw [← rep.header r mem]
      exact rep.le_last inHuge isLast
    · -- A range of the lists is smaller than all those of the tree.
      by_contra larger
      have lastOrder := (rep.of_mem_freeHuge (mem_of_getLast? isLast)).2
      have := orderOf_mono (Nat.le_of_not_le larger)
      omega

theorem Represents.alloc_page (rep : Represents s F) {r : Extent} (mem : r ∈ F) :
    (s.alloc true pageSize true).1 ≠ none :=
  rep.alloc_ne_none mem (rep.wf r mem).page_le

theorem Core.allocSpec (core : Core s F G) (whole : size % pageSize = 0) (pos : 0 < size) :
    AllocSpec s size (s.alloc true size true) := by
  have rep := core.bare.rep
  rcases rep.alloc_cases whole true true with failed | ⟨r, mem, fits, taken⟩
  · refine ⟨by rw [failed]; exact core.inBounds, ⟨fun _ r listed => ?_, fun _ => by rw [failed]⟩,
      fun b some_ => by simp [failed] at some_⟩
    by_contra large
    exact rep.alloc_ne_none ((rep.mem_freeRanges r).1 listed) (Nat.le_of_not_lt large) (by rw [failed])
  · have listed := (rep.mem_freeRanges r).2 mem
    obtain ⟨s', F', result, header, core', cover⟩ := core.takeFront mem whole pos fits
    rw [taken, result]
    refine ⟨core'.inBounds, ⟨fun none_ => ?_, fun small => absurd (small r listed) (not_lt.2 fits)⟩,
      fun b some_ => ?_⟩
    · cases none_
    · obtain rfl : r.1 = b := Option.some.inj some_
      exact ⟨r, listed, fits, rfl, core.cut core' pos cover mem (le_refl _) (by omega) header⟩

/-! ## alloc_aligned -/

variable {offset alignment j : ℕ} {r : Extent} {b shift : ℕ}

/-- `for_each` from the order of the request on visits every range that is large enough. -/
theorem Represents.visited (rep : Represents s F) (mem : r ∈ F) (fits : size ≤ r.2) :
    r.1 ∈ s.forEachList (max (ilog2 (size / pageSize)) 1 - 1) := by
  have order : ilog2 (size / pageSize) ≤ orderOf r.2 := orderOf_mono fits
  exact rep.mem_forEachList mem (by omega)

section

variable (core : Core s F G)

include core

/-- The shift is the distance from the last block of the range to an aligned one. -/
theorem Core.alignmentShift_eq (mem : r ∈ F) (fits : size ≤ r.2) (small : j < 64) :
    s.alignmentShift r.1 size offset (2 ^ j) =
      (physMem + (r.1 + r.2 - size) + offset) % 2 ^ j := by
  have inside := core.bare.layout.inside r mem
  have area := core.area
  have divides : 2 ^ j ∣ 2 ^ 64 := pow_dvd_pow 2 small.le
  rw [alignmentShift, core.bare.rep.header r mem, wrap64, mod_mod_of_dvd _ divides]
  rw [sub64_eq (by simp only [physMem]; omega) (by simp only [physMem, memAreaSize] at *; omega)]
  congr 2
  omega

/-- A range with an aligned block passes the test. -/
theorem Core.alignedFits (mem : r ∈ F) (small : j < 64)
    (block : AlignedBlock r size offset (2 ^ j) b) :
    s.alignedFits size offset (2 ^ j) r.1 = true := by
  have low := block.low
  have high := block.high
  have shift : s.alignmentShift r.1 size offset (2 ^ j) ≤ r.1 + r.2 - size - b := by
    rw [core.alignmentShift_eq mem (by omega) small]
    have split : physMem + (r.1 + r.2 - size) + offset =
        (r.1 + r.2 - size - b) + (physMem + b + offset) := by omega
    rw [split, add_mod, block.aligned, add_zero, mod_mod]
    exact mod_le _ _
  simp only [PageRangeAllocator.alignedFits, decide_eq_true_eq, core.bare.rep.header r mem]
  refine (mod_le _ _).trans ?_
  omega

theorem shift_whole (mem : r ∈ F) (fits : size ≤ r.2)
    (whole : size % pageSize = 0) (offsetWhole : offset % pageSize = 0) (small : j < 64) :
    s.alignmentShift r.1 size offset (2 ^ j) % pageSize = 0 := by
  have wf := core.bare.rep.wf r mem
  rcases lt_or_ge j 12 with less | atLeast
  · -- An alignment below the page size asks for nothing.
    have target : pageSize ∣ physMem + (r.1 + r.2 - size) + offset := by
      have aligned := wf.aligned
      have rWhole := wf.whole
      refine dvd_of_mod_eq_zero ?_
      simp only [physMem, pageSize] at *
      omega
    have divides : 2 ^ j ∣ pageSize := pow_dvd_pow 2 (n := 12) less.le
    rw [core.alignmentShift_eq mem fits small, mod_eq_zero_of_dvd (divides.trans target),
      zero_mod]
  · refine alignmentShift_whole r.1 wf.aligned ?_ whole offsetWhole
      (mod_eq_zero_of_dvd (pow_dvd_pow 2 atLeast))
    rw [core.bare.rep.header r mem]
    exact wf.whole

/-- Without a wrap, the first range that passes the test gives an aligned block. -/
theorem Core.carve_spec (mem : r ∈ F) (whole : size % pageSize = 0)
    (pos : 0 < size) (offsetWhole : offset % pageSize = 0) (small : j < 64)
    (fits : size + s.alignmentShift r.1 size offset (2 ^ j) ≤ r.2) (fill : Bool) :
    ∃ b, (s.carve r.1 size (s.alignmentShift r.1 size offset (2 ^ j)) fill).1 = some b ∧
      AlignedBlock r size offset (2 ^ j) b ∧
      Cut s size r b (s.carve r.1 size (s.alignmentShift r.1 size offset (2 ^ j)) fill).2 ∧
      (s.carve r.1 size (s.alignmentShift r.1 size offset (2 ^ j)) fill).2.faulted = false := by
  have wf := core.bare.rep.wf r mem
  have large : size ≤ r.2 := by omega
  have shiftWhole := shift_whole core mem large whole offsetWhole small
  have shiftEq : s.alignmentShift r.1 size offset (2 ^ j) = _ :=
    core.alignmentShift_eq mem large small
  obtain ⟨pr, s', F', result, start, header, core', cover⟩ :=
    core.carve mem whole pos shiftWhole fits fill
  generalize s.alignmentShift r.1 size offset (2 ^ j) = shift at *
  subst start
  refine ⟨_, by rw [result], ⟨by omega, by omega, ?_, ?_⟩, ?_, by rw [result]; exact core'.inBounds⟩
  · have aligned := wf.aligned
    have rWhole := wf.whole
    simp only [pageSize] at *
    omega
  · have target : physMem + (r.1 + (r.2 - shift - size)) + offset =
        physMem + (r.1 + r.2 - size) + offset - shift := by omega
    rw [target, shiftEq]
    exact mod_eq_zero_of_dvd (dvd_sub_mod _)
  · rw [result]
    exact core.cut core' pos cover mem (by omega) (by omega) header

theorem Core.alignedSpec_iff (whole : size % pageSize = 0) (pos : 0 < size)
    (offsetWhole : offset % pageSize = 0) (small : j < 64) (fill : Bool) :
    AlignedSpec s size offset (2 ^ j) (s.allocAligned size offset (2 ^ j) fill) ↔
      s.AlignedExact size offset (2 ^ j) := by
  have rep := core.bare.rep
  refine ⟨fun spec => core.alignedExact_of_returns (Nat.two_pow_pos j)
    (Nat.pow_le_pow_right (by decide) (by omega)) spec.1, fun exact => ?_⟩
  unfold PageRangeAllocator.allocAligned
  simp only
  split
  case h_1 missing =>
    refine ⟨core.inBounds, ⟨fun _ r listed b block => ?_, fun _ => rfl⟩, nofun⟩
    have mem := (rep.mem_freeRanges r).1 listed
    have low := block.low
    have high := block.high
    exact List.find?_eq_none.1 missing r.1 (rep.visited mem (by omega))
      (core.alignedFits mem small block)
  case h_2 header found =>
    have visited := mem_of_find?_eq_some found
    have test := List.find?_some found
    have mem := rep.of_mem_forEachList visited
    have fits : size + s.alignmentShift header size offset (2 ^ j) ≤ s.mem header := by
      have noWrap := exact header visited test
      simp only [PageRangeAllocator.alignedFits, decide_eq_true_eq] at test
      rwa [wrap64, mod_eq_of_lt noWrap] at test
    obtain ⟨b, some_, block, cut, returns⟩ :=
      core.carve_spec mem whole pos offsetWhole small fits fill
    have listed := (rep.mem_freeRanges _).2 mem
    refine ⟨returns, ⟨fun none_ => ?_, fun never => absurd block (never _ listed b)⟩,
      fun b' some' => ?_⟩
    · rw [some_] at none_
      cases none_
    · obtain rfl : b = b' := Option.some.inj (some_.symm.trans some')
      exact ⟨_, listed, block, cut⟩

end

/-- **Allocation is complete.**  `alloc` fails only when no free range is large enough and
otherwise cuts the front off one; `alloc_aligned` does the same for aligned blocks exactly when
no range passes its test because `size + alignment_shift` wrapped. -/
theorem alloc_complete (core : Core s F G) (whole : size % pageSize = 0) (pos : 0 < size) :
    AllocSpec s size (s.alloc true size true) ∧
      ∀ offset j : ℕ, ∀ fill : Bool, offset % pageSize = 0 → j < 64 →
        (AlignedSpec s size offset (2 ^ j) (s.allocAligned size offset (2 ^ j) fill) ↔
          s.AlignedExact size offset (2 ^ j)) :=
  ⟨core.allocSpec whole pos, fun _ _ fill offsetWhole small =>
    core.alignedSpec_iff whole pos offsetWhole small fill⟩

end Complete

/-- Two pages of the sample range, anywhere and on a boundary of two pages. -/
theorem sampleWorld_alloc_complete :
    AllocSpec sampleWorld.alloc 8192 (sampleWorld.alloc.alloc true 8192 true) ∧
      AlignedSpec sampleWorld.alloc 8192 0 (2 ^ 13)
        (sampleWorld.alloc.allocAligned 8192 0 (2 ^ 13) false) := by
  obtain ⟨F, inv⟩ := sampleWorld_reached.inv
  obtain ⟨found, aligned⟩ := alloc_complete inv.core (show 8192 % pageSize = 0 by decide) (by decide)
  exact ⟨found, (aligned 0 13 false (by decide) (by decide)).2
    (alignedExact_of_le _ (by decide) (by decide))⟩

/-- No free range has the size of this request, but its test wraps and the call faults. -/
theorem wrapped_request_faults :
    (sampleWorld.alloc.allocAligned (2 ^ 64 - 4096) 0 (2 ^ 13) false).2.faulted = true ∧
      ∀ r ∈ sampleWorld.alloc.freeRanges, r.2 < 2 ^ 64 - 4096 := by
  constructor <;> decide +kernel

end MiniOsv.Mempool
