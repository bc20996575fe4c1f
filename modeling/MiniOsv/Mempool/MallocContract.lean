/-
# Mempool.MallocContract -- the way from a pointer back to its block

`Heap.path` is the way a request takes through `std_malloc`, and `Placed` what is known of
the block it gets on each.  `stdMalloc_agreement`: `object_size` and `free` find from the
pointer alone the block that was taken, whatever happens elsewhere in between.
-/
import Mathlib.Tactic.IntervalCases
import Mathlib.Algebra.Ring.Nat
import MiniOsv.Mempool.Malloc

namespace MiniOsv.Mempool

open MemArea Heap Option Nat Function

/-! ## Paths -/

/-- The way a request takes through `std_malloc`. -/
inductive Path
  | refused
  | pool (n : ℕ)
  | early
  | page
  | large
  deriving DecidableEq, Repr

def Heap.path (h : Heap) (size alignment : ℕ) : Path :=
  if 2 ^ 63 ≤ size then .refused
  else if h.smpAllocator ∧ size ≤ maxObjectSize ∧ alignment ≤ max size minObjectSize then
    .pool (ilog2Roundup (max size minObjectSize))
  else if h.smpAllocator ∧ alignment ≤ maxObjectSize ∧ max size minObjectSize ≤ alignment then
    .pool (ilog2Roundup alignment)
  else if ¬h.smpAllocator ∧ willFitInEarlyAllocPage size alignment then .early
  else if max size minObjectSize ≤ pageSize ∧ alignment ≤ pageSize then .page
  else .large

/-! ## What the allocators below guarantee -/

structure MainPage (page : ℕ) : Prop where
  aligned : page % pageSize = 0
  low : main.base ≤ page
  high : page + pageSize ≤ main.base + memAreaSize

/-- An object of a page that `pool::add_page` has divided. -/
structure PoolObject (h : Heap) (n object : ℕ) : Prop where
  page : MainPage (alignDown object pageSize)
  owner : h.word (alignDown object pageSize) = n + 1
  /-- The loop walks down from the end of the page in steps of the object size. -/
  place : ∃ k, 0 < k ∧ object + k * computeObjectSize n = alignDown object pageSize + pageSize

/-- What the allocators below return lies where it should, as far as the request asks them. -/
structure Lower.Sound (h : Heap) (lower : Lower) (size alignment : ℕ) : Prop where
  pool : ∀ n, h.path size alignment = .pool n → PoolObject h n (lower.poolObject n)
  page : lower.page ≠ 0 → MainPage lower.page
  range : h.path size alignment = .large → mallocLargeSize size alignment < hugePageSize →
    ∀ header, lower.range = some header → header % pageSize = 0 ∧ main.base ≤ header ∧
      header + mallocLargeSize size alignment ≤ main.base + memAreaSize
  mapping : h.path size alignment = .large → ∀ obj, lower.mapping = some obj →
    obj % pageSize = 0 ∧ 0x200000000000 ≤ obj ∧ obj + mallocLargeSize size alignment ≤ main.base

/-- The early page, if there is one, is a page of the main area with its header. -/
structure Heap.Sound (h : Heap) : Prop where
  early : h.earlyObjectPage ≠ 0 → MainPage h.earlyObjectPage ∧ h.word h.earlyObjectPage = 0 ∧
    sizeofEarlyHeader ≤ h.earlyAllocNextOffset ∧ h.earlyAllocNextOffset ≤ pageSize
  elf : h.elfStart + h.elfSize < 0x200000000000

/-! ## Arithmetic -/

theorem ilog2Roundup_le {n m : ℕ} (bound : n ≤ 2 ^ m) : ilog2Roundup n ≤ m := by
  unfold ilog2Roundup
  split
  · exact zero_le _
  next large => exact (log2_lt (by omega)).2 (by omega)

theorem three_le_ilog2Roundup {n : ℕ} (eight : 8 ≤ n) : 3 ≤ ilog2Roundup n := by
  by_contra small
  have le := le_two_pow_ilog2Roundup n
  have : 2 ^ ilog2Roundup n ≤ 2 ^ 2 := Nat.pow_le_pow_right (by decide) (by omega)
  omega

theorem computeObjectSize_eq {n : ℕ} (small : n ≤ 10) : computeObjectSize n = 2 ^ n := by
  have : 2 ^ n ≤ 2 ^ 10 := Nat.pow_le_pow_right (by decide) small
  exact Nat.min_eq_left this

theorem alignUp_spec {n k : ℕ} (fits : n + 2 ^ k ≤ 2 ^ 64) :
    2 ^ k ∣ alignUp n (2 ^ k) ∧ n ≤ alignUp n (2 ^ k) ∧ alignUp n (2 ^ k) < n + 2 ^ k := by
  have pos : 0 < 2 ^ k := Nat.two_pow_pos k
  have noWrap : wrap64 (n + 2 ^ k - 1) = n + 2 ^ k - 1 := Nat.mod_eq_of_lt (by omega)
  rw [alignUp, noWrap, alignDown]
  have split := Nat.div_add_mod (n + 2 ^ k - 1) (2 ^ k)
  rw [mul_comm] at split
  exact ⟨dvd_mul_left _ _, by omega, by omega⟩

theorem isPowerOfTwo_iff {n : ℕ} (small : n < 2 ^ 64) :
    isPowerOfTwo n = true ↔ n = 0 ∨ ∃ k, n = 2 ^ k := by
  by_cases zero : n = 0
  · subst zero
    simp [isPowerOfTwo]
  · have less : sub64 n 1 = n - 1 := by
      simp only [sub64]
      omega
    rw [isPowerOfTwo, less, beq_iff_eq, and_sub_one_eq_zero_iff_isPowerOfTwo zero]
    simp only [zero, false_or]
    rfl

theorem pow_le_iff {j k : ℕ} : 2 ^ j ≤ 2 ^ k ↔ j ≤ k := Nat.pow_le_pow_iff_right (by decide)

/-! ## Areas -/

section Areas

variable {page addr : ℕ}

theorem translate_main (area : MemArea) (low : main.base ≤ addr)
    (high : addr ≤ main.base + memAreaSize) :
    translateMemArea .main area addr = addr + area.index * memAreaSize := by
  cases area <;>
    simp only [translateMemArea, wrap64, sub64, base, index, memAreaSize] at * <;>
    omega

theorem getMemArea_add (area : MemArea) (low : main.base ≤ addr)
    (high : addr < main.base + memAreaSize) :
    getMemArea (addr + area.index * memAreaSize) = area := by
  have : (addr + area.index * memAreaSize) / memAreaSize % 4 = area.index := by
    cases area <;> simp only [base, index, memAreaSize] at * <;> omega
  rw [getMemArea, this]
  cases area <;> rfl

/-- A pointer into another area leads back to the main area. -/
theorem area_back (h : Heap) (area : MemArea) (low : main.base ≤ addr)
    (high : addr < main.base + memAreaSize) :
    h.isLinearMapped (translateMemArea .main area addr) = true ∧
      getMemArea (translateMemArea .main area addr) = area ∧
      translateMemArea area .main (translateMemArea .main area addr) = addr := by
  rw [translate_main area low high.le]
  refine ⟨decide_eq_true (.inr (by omega)), getMemArea_add area low high, ?_⟩
  cases area <;>
    simp only [translateMemArea, wrap64, sub64, base, index, memAreaSize] at * <;>
    omega

theorem main_area (h : Heap) (low : main.base ≤ addr) (high : addr < main.base + memAreaSize) :
    h.isLinearMapped addr = true ∧ getMemArea addr = .main :=
  ⟨decide_eq_true (.inr low), getMemArea_add .main low high⟩

/-- Rounding down finds the header in front of an object. -/
theorem largeObject_eq {header offset : ℕ} (aligned : header % pageSize = 0) (pos : 0 < offset)
    (small : offset ≤ pageSize) (fits : header + offset < 2 ^ 64) :
    largeObject (header + offset) = (header, offset) := by
  have down : alignDown (sub64 (header + offset) 1) pageSize = header := by
    simp only [alignDown, sub64, pageSize] at *
    omega
  rw [largeObject, down]
  simp only [sub64, Prod.mk.injEq, true_and]
  omega

end Areas

/-! ## Early objects -/

/-- Where an early object lies.  One of zero bytes may end up behind its page. -/
structure EarlyObject (h : Heap) (page object size alignment : ℕ) : Prop where
  main : MainPage page
  owner : h.word page = 0
  stored : h.half (object - sizeofShort) = size
  behind : page + sizeofEarlyHeader + sizeofShort ≤ object
  fits : object + size ≤ page + pageSize
  aligned : alignment ∣ object
  small : alignment ≤ pageSize

theorem EarlyObject.alignDown_eq {h : Heap} {page object size alignment : ℕ}
    (early : EarlyObject h page object size alignment) (pos : 0 < size) :
    alignDown object pageSize = page := by
  have aligned := early.main.aligned
  have behind := early.behind
  have fits := early.fits
  simp only [alignDown, pageSize] at *
  omega

section Early

variable {h h' : Heap} {page size k object : ℕ}

theorem Heap.Sound.setup (sound : h.Sound) (isPage : page ≠ 0 → MainPage page)
    (result : h.setupEarlyAllocPage page = some h') :
    h'.Sound ∧ h'.earlyObjectPage ≠ 0 ∧ h'.earlyAllocNextOffset = sizeofEarlyHeader := by
  unfold setupEarlyAllocPage at result
  split at result <;> cases result
  next there =>
    refine ⟨⟨fun _ => ⟨isPage there, ?_, le_rfl, ?_⟩, sound.elf⟩, there, rfl⟩
    · simp [setHalf, setWord]
    · show sizeofEarlyHeader ≤ pageSize
      decide

theorem Heap.Sound.place (sound : h.Sound) (there : h.earlyObjectPage ≠ 0)
    (small : size < 2 ^ 63) (le : k ≤ 12)
    (result : h.placeEarlyObject size (h.earlyOffset (2 ^ k)) = some (h', object)) :
    EarlyObject h' h.earlyObjectPage object size (2 ^ k) ∧
      h'.elfStart = h.elfStart ∧ h'.elfSize = h.elfSize := by
  obtain ⟨main, owner, low, high⟩ := sound.early there
  have power : 2 ^ k ≤ 2 ^ 12 := Nat.pow_le_pow_right (by decide) le
  obtain ⟨divides, above, -⟩ := alignUp_spec (n := h.earlyAllocNextOffset + sizeofShort) (k := k)
    (by simp only [pageSize, sizeofShort] at *; omega)
  obtain ⟨aligned, mainLow, mainHigh⟩ := main
  unfold placeEarlyObject at result
  have bound : h.earlyOffset (2 ^ k) < 2 ^ 14 := by
    have := (alignUp_spec (n := h.earlyAllocNextOffset + sizeofShort) (k := k)
      (by simp only [pageSize, sizeofShort] at *; omega)).2.2
    simp only [earlyOffset, pageSize, sizeofShort] at *
    omega
  change 2 ^ k ∣ h.earlyOffset (2 ^ k) at divides
  change _ ≤ h.earlyOffset (2 ^ k) at above
  generalize h.earlyOffset (2 ^ k) = offset at *
  split at result
  next enough =>
    have noWrap : wrap64 (offset + size) = offset + size := mod_eq_of_lt (by omega)
    rw [noWrap] at enough
    obtain ⟨rfl, rfl⟩ := result
    have pageAligned : 2 ^ k ∣ h.earlyObjectPage :=
      dvd_trans (Nat.pow_dvd_pow 2 le) (dvd_of_mod_eq_zero aligned)
    refine ⟨⟨⟨aligned, mainLow, mainHigh⟩, ?_, ?_, ?_, ?_,
      Nat.dvd_add pageAligned divides, power⟩, rfl, rfl⟩
    · simpa [setHalf] using owner
    · have apart : h.earlyObjectPage + offset - sizeofShort ≠
          h.earlyObjectPage + allocationsCount := by
        simp only [sizeofShort, sizeofEarlyHeader, allocationsCount] at *
        omega
      have fits16 : size % 2 ^ 16 = size := by
        simp only [pageSize] at enough
        exact mod_eq_of_lt (by omega)
      rw [setHalf]
      simp only [update_of_ne apart, setHalf, update_self, fits16]
    · omega
    · omega
  · cases result

/-- **`early_alloc_object`**. -/
theorem Heap.Sound.earlyAllocObject (sound : h.Sound) (isPage : page ≠ 0 → MainPage page)
    (small : size < 2 ^ 63) (le : k ≤ 12)
    (result : h.earlyAllocObject page size (2 ^ k) = some (h', object)) :
    (∃ page', EarlyObject h' page' object size (2 ^ k)) ∧ h'.elfStart + h'.elfSize < 0x200000000000 := by
  obtain ⟨h₁, first, result⟩ := bind_eq_some_iff.1 result
  obtain ⟨h₂, second, result⟩ := bind_eq_some_iff.1 result
  have sound₁ : h₁.Sound ∧ h₁.earlyObjectPage ≠ 0 := by
    unfold earlyPageReady at first
    split at first
    · exact (sound.setup isPage first).imp id And.left
    next there => exact Option.some.inj first ▸ ⟨sound, there⟩
  have sound₂ : h₂.Sound ∧ h₂.earlyObjectPage ≠ 0 := by
    unfold earlyRoom at second
    split at second
    · exact (sound₁.1.setup isPage second).imp id And.left
    · exact Option.some.inj second ▸ sound₁
  obtain ⟨early, start, size'⟩ := sound₂.1.place sound₂.2 small le result
  exact ⟨⟨_, early⟩, by rw [start, size']; exact sound₂.1.elf⟩

/-- Only alignments up to a page fit in an early page. -/
theorem willFit_le (small : size < 2 ^ 63) (word : 2 ^ k < 2 ^ 64)
    (fits : willFitInEarlyAllocPage size (2 ^ k) = true) : k ≤ 12 := by
  by_contra big
  have large : 2 ^ 13 ≤ 2 ^ k := Nat.pow_le_pow_right (by decide) (by omega)
  have le63 : 2 ^ k ≤ 2 ^ 63 :=
    pow_le_iff.2 (Nat.le_of_lt_succ ((Nat.pow_lt_pow_iff_right (by decide)).1 word))
  obtain ⟨divides, above, below⟩ := alignUp_spec (n := sizeofEarlyHeader + sizeofShort) (k := k)
    (by simp only [sizeofEarlyHeader, sizeofShort]; omega)
  have exact : alignUp (sizeofEarlyHeader + sizeofShort) (2 ^ k) = 2 ^ k := by
    obtain ⟨m, same⟩ := divides
    simp only [sizeofEarlyHeader, sizeofShort] at *
    rw [same] at above below ⊢
    have one : m = 1 := by
      have lower : 0 < m := pos_of_ne_zero fun zero => by simp [zero] at above
      have upper : m < 2 := by
        by_contra two
        have := Nat.mul_le_mul_left (2 ^ k) (Nat.le_of_not_lt two)
        omega
      omega
    rw [one, Nat.mul_one]
  rw [willFitInEarlyAllocPage, exact, decide_eq_true_eq, wrap64, mod_eq_of_lt (by omega)] at fits
  simp only [pageSize] at fits
  omega

end Early

/-! ## Blocks -/

/-- The words in front of the object that identify the block. -/
def Block.words : Block → List ℕ
  | .pool _ object => [alignDown object pageSize]
  | .early object _ => [alignDown object pageSize]
  | .page _ => []
  | .range header _ => [header]
  | .mapped addr _ => [addr]

def Block.halves : Block → List ℕ
  | .early object _ => [object - sizeofShort]
  | _ => []

/-- The words of the block are as they were; everything else may have changed, the SMP allocator
may have been enabled. -/
structure Block.Kept (block : Block) (h h' : Heap) : Prop where
  words : ∀ a ∈ block.words, h'.word a = h.word a
  halves : ∀ a ∈ block.halves, h'.half a = h.half a
  elf : h'.elfStart = h.elfStart ∧ h'.elfSize = h.elfSize

open Block

/-- The bytes of the block from the pointer on. -/
def Block.bytesFrom (block : Block) (ptr : ℕ) : ℕ :=
  match block with
  | .pool n _ => computeObjectSize n
  | .early _ size => size
  | .page _ => pageSize
  | .range header size => header + size - ptr
  | .mapped addr size => addr + size - ptr

/-- The call that hands the block back. -/
def Block.release : Block → Release
  | .pool n object => .poolFree n object
  | .early object size => .earlyFreeObject object size
  | .page addr => .freePage addr
  | .range header size => .freePageRange header size
  | .mapped addr size => .munmap addr size

/-- What is known about a block that `std_malloc` returns. -/
structure Placed (h : Heap) (ptr size alignment : ℕ) (block : Block) : Prop where
  shape : match block with
    | .pool n object => ptr = translateMemArea .main .mempool object ∧ 3 ≤ n ∧ n ≤ 10 ∧
        alignment ≤ 2 ^ n ∧ size ≤ 2 ^ n ∧ PoolObject h n object
    | .early object size' => size' = size ∧ ptr = translateMemArea .main .mempool object ∧
        ∃ page, EarlyObject h page object size alignment
    | .page addr => ptr = translateMemArea .main .page addr ∧ (addr ≠ 0 → MainPage addr) ∧
        size ≤ pageSize ∧ alignment ≤ pageSize
    | .range header size' => ptr = header + largeOffset alignment ∧ header % pageSize = 0 ∧
        main.base ≤ header ∧ header + size' ≤ main.base + memAreaSize ∧ h.word header = size' ∧
        size + largeOffset alignment ≤ size'
    | .mapped addr size' => ptr = addr + largeOffset alignment ∧ addr % pageSize = 0 ∧
        0x200000000000 ≤ addr ∧ addr + size' ≤ main.base ∧ h.word addr = size' ∧
        size + largeOffset alignment ≤ size'
  elf : h.elfStart + h.elfSize < 0x200000000000

theorem largeOffset_spec {k : ℕ} :
    0 < largeOffset (2 ^ k) ∧ largeOffset (2 ^ k) ≤ pageSize ∧ 8 ∣ largeOffset (2 ^ k) ∧
      (2 ^ k ≤ pageSize → 2 ^ k ∣ largeOffset (2 ^ k)) := by
  unfold largeOffset
  split
  next small =>
    have le : k < 12 := (Nat.pow_lt_pow_iff_right (a := 2) (by decide)).1 small
    interval_cases k <;> decide
  next large =>
    refine ⟨by decide, le_rfl, by decide, fun le => ?_⟩
    rw [Nat.le_antisymm le (Nat.le_of_not_lt large)]

section Malloc

variable {h h' : Heap} {lower : Lower} {size k ptr : ℕ} {block : Block}

variable (h size k) in
/-- **What the tests of `std_malloc` say about the way that is taken.** -/
theorem Heap.path_spec : match h.path size (2 ^ k) with
    | .refused => True
    | .pool n => 3 ≤ n ∧ n ≤ 10 ∧ 2 ^ k ≤ 2 ^ n ∧ size ≤ 2 ^ n
    | .early => size < 2 ^ 63 ∧ willFitInEarlyAllocPage size (2 ^ k) = true ∧
        h.smpAllocator = false
    | .page => size ≤ pageSize ∧ 2 ^ k ≤ pageSize
    | .large => size < 2 ^ 63 := by
  have eight : 8 ≤ max size minObjectSize := le_max_right _ _
  have large : size ≤ max size minObjectSize := le_max_left _ _
  unfold path
  split_ifs with refused sized aligned early page
  · trivial
  · have enough := le_two_pow_ilog2Roundup (max size minObjectSize)
    exact ⟨three_le_ilog2Roundup eight, ilog2Roundup_le (max_le sized.2.1 (by decide)),
      sized.2.2.trans enough, large.trans enough⟩
  · have enough := le_two_pow_ilog2Roundup (2 ^ k)
    exact ⟨three_le_ilog2Roundup (eight.trans aligned.2.2), ilog2Roundup_le aligned.2.1, enough,
      (large.trans aligned.2.2).trans enough⟩
  · exact ⟨Nat.lt_of_not_le refused, early.2, Bool.eq_false_iff.2 early.1⟩
  · exact ⟨large.trans page.1, page.2⟩
  · exact Nat.lt_of_not_le refused

variable {alignment : ℕ}

theorem stdMalloc_path :
    stdMalloc h lower size alignment =
      match h.path size alignment with
      | .refused => .enomem
      | .pool n =>
        .ok (translateMemArea .main .mempool (lower.poolObject n), .pool n (lower.poolObject n), h)
      | .early =>
        match h.earlyAllocObject lower.page size alignment with
        | none => .crashed
        | some (h, ret) => .ok (translateMemArea .main .mempool ret, .early ret size, h)
      | .page => .ok (translateMemArea .main .page lower.page, .page lower.page, h)
      | .large => h.mallocLarge lower size alignment := by
  unfold stdMalloc path
  simp only
  split_ifs <;> rfl

/-- The size of a large block is that of the request with its offset, in whole pages. -/
theorem mallocLargeSize_spec (small : size < 2 ^ 63) :
    size + largeOffset (2 ^ k) ≤ mallocLargeSize size (2 ^ k) ∧
      mallocLargeSize size (2 ^ k) < size + largeOffset (2 ^ k) + pageSize := by
  obtain ⟨-, offset, -, -⟩ := largeOffset_spec (k := k)
  simp only [pageSize] at offset
  have noWrap : wrap64 (size + largeOffset (2 ^ k)) = size + largeOffset (2 ^ k) :=
    mod_eq_of_lt (by omega)
  obtain ⟨-, enough, bound⟩ := alignUp_spec (n := size + largeOffset (2 ^ k)) (k := 12) (by omega)
  rw [mallocLargeSize, noWrap]
  exact ⟨enough, bound⟩

theorem Heap.Sound.mallocLarge (sound : h.Sound) (below : lower.Sound h size (2 ^ k))
    (large : h.path size (2 ^ k) = .large)
    (result : h.mallocLarge lower size (2 ^ k) = .ok (ptr, block, h')) :
    Placed h' ptr size (2 ^ k) block := by
  have small : size < 2 ^ 63 := by
    have spec := h.path_spec size k
    rwa [large] at spec
  have enough := (mallocLargeSize_spec (k := k) small).1
  have mapped : h.mappedMallocLarge lower (mallocLargeSize size (2 ^ k)) (largeOffset (2 ^ k)) =
      .ok (ptr, block, h') → Placed h' ptr size (2 ^ k) block := by
    intro result
    unfold Heap.mappedMallocLarge at result
    split at result
    · cases result
    next obj found =>
      obtain ⟨aligned, low, high⟩ := below.mapping large obj found
      cases result
      exact ⟨⟨rfl, aligned, low, high, by simp [setWord], enough⟩, sound.elf⟩
  simp only [Heap.mallocLarge] at result
  split at result
  · exact mapped result
  next notHuge =>
    split at result
    next header found =>
      obtain ⟨aligned, low, high⟩ := below.range large (Nat.lt_of_not_le notHuge) header found
      cases result
      exact ⟨⟨rfl, aligned, low, high, by simp [setWord], enough⟩, sound.elf⟩
    · exact mapped result

/-- **`std_malloc`** path by path. -/
theorem Heap.Sound.stdMalloc (sound : h.Sound) (below : lower.Sound h size (2 ^ k))
    (word : 2 ^ k < 2 ^ 64) (result : stdMalloc h lower size (2 ^ k) = .ok (ptr, block, h')) :
    Placed h' ptr size (2 ^ k) block := by
  have spec := h.path_spec size k
  rw [stdMalloc_path] at result
  cases taken : h.path size (2 ^ k) with simp only [taken] at result spec
  | refused => cases result
  | pool n =>
    simp only [Outcome.ok.injEq, Prod.mk.injEq] at result
    obtain ⟨rfl, rfl, rfl⟩ := result
    obtain ⟨low, high, fits, enough⟩ := spec
    exact ⟨⟨rfl, low, high, fits, enough, below.pool n taken⟩, sound.elf⟩
  | early =>
    split at result
    · cases result
    next h₁ ret early =>
      simp only [Outcome.ok.injEq, Prod.mk.injEq] at result
      obtain ⟨rfl, rfl, rfl⟩ := result
      obtain ⟨object, elf⟩ := sound.earlyAllocObject below.page spec.1
        (willFit_le spec.1 word spec.2.1) early
      exact ⟨⟨rfl, rfl, object⟩, elf⟩
  | page =>
    simp only [Outcome.ok.injEq, Prod.mk.injEq] at result
    obtain ⟨rfl, rfl, rfl⟩ := result
    exact ⟨⟨rfl, below.page, spec.1, spec.2⟩, sound.elf⟩
  | large => exact sound.mallocLarge below taken result

/-! ## Places -/

theorem dvd_of_page (le : 2 ^ k ≤ pageSize) {addr : ℕ} (aligned : addr % pageSize = 0) :
    2 ^ k ∣ addr :=
  dvd_trans (Nat.pow_dvd_pow 2 (pow_le_iff.1 (show 2 ^ k ≤ 2 ^ 12 from le)))
    (dvd_of_mod_eq_zero aligned)

theorem two_pow_dvd_memAreaSize {n : ℕ} (le : n ≤ 44) : 2 ^ n ∣ memAreaSize :=
  Nat.pow_dvd_pow 2 (show n ≤ 44 from le)

/-- An object of a pool lies on a multiple of the size of the objects. -/
theorem PoolObject.dvd {n object : ℕ} (le : n ≤ 10) (pooled : PoolObject h n object) :
    2 ^ n ∣ object := by
  obtain ⟨page, -, j, -, steps⟩ := pooled
  have small : 2 ^ n ≤ pageSize := pow_le_iff.2 (show n ≤ 12 by omega)
  rw [computeObjectSize_eq le] at steps
  have whole : 2 ^ n ∣ object + j * 2 ^ n := by
    rw [steps]
    exact Nat.dvd_add (dvd_of_page small page.aligned) (dvd_of_page small (by decide))
  exact (Nat.dvd_add_left (Nat.dvd_mul_left _ _)).1 whole

theorem PoolObject.inMain {n object : ℕ} (le : n ≤ 10) (pooled : PoolObject h n object) :
    main.base ≤ object ∧ object < main.base + memAreaSize := by
  obtain ⟨page, -, j, posJ, steps⟩ := pooled
  have step : 0 < j * computeObjectSize n := by
    rw [computeObjectSize_eq le]
    exact Nat.mul_pos posJ (Nat.two_pow_pos n)
  exact ⟨page.low.trans (Nat.div_mul_le_self _ _),
    ((Nat.lt_add_of_pos_right step).trans_eq steps).trans_le page.high⟩

theorem MainPage.lt {page : ℕ} (main : MainPage page) : page < MemArea.main.base + memAreaSize :=
  (Nat.lt_add_of_pos_right (by decide)).trans_le main.high

/-! ## Early objects that fit -/

/-- The object fits in the early page that is there. -/
def Heap.HasEarlyRoom (h : Heap) (size alignment : ℕ) : Prop :=
  h.earlyObjectPage ≠ 0 ∧ wrap64 (h.earlyOffset alignment + size) ≤ pageSize

instance {alignment : ℕ} : Decidable (h.HasEarlyRoom size alignment) :=
  inferInstanceAs (Decidable (_ ∧ _))

def Heap.earlyTarget (h : Heap) (page size alignment : ℕ) : ℕ :=
  if h.HasEarlyRoom size alignment then h.earlyObjectPage + h.earlyOffset alignment
  else page + alignUp (sizeofEarlyHeader + sizeofShort) alignment

theorem Heap.earlyAllocObject_eq {page alignment : ℕ}
    (fits : willFitInEarlyAllocPage size alignment = true)
    (granted : h.HasEarlyRoom size alignment ∨ page ≠ 0) :
    ∃ h', h.earlyAllocObject page size alignment =
      some (h', h.earlyTarget page size alignment) := by
  by_cases room : h.HasEarlyRoom size alignment
  · have ready : h.earlyPageReady page = some h := if_neg room.1
    have enough : h.earlyRoom page size alignment = some h := if_neg (not_lt.2 room.2)
    rw [earlyAllocObject, ready, bind_some, enough, bind_some,
      earlyTarget, if_pos room, placeEarlyObject, if_pos room.2]
    exact ⟨_, rfl⟩
  · have there : page ≠ 0 := granted.resolve_left room
    obtain ⟨h₁, setup, begins, offset⟩ : ∃ h₁, h.setupEarlyAllocPage page = some h₁ ∧
        h₁.earlyObjectPage = page ∧ h₁.earlyOffset alignment =
          alignUp (sizeofEarlyHeader + sizeofShort) alignment := ⟨_, if_neg there, rfl, rfl⟩
    rw [willFitInEarlyAllocPage, decide_eq_true_eq, ← offset] at fits
    rw [earlyTarget, if_neg room, ← offset]
    by_cases fresh : h.earlyObjectPage = 0
    · have ready : h.earlyPageReady page = some h₁ := (if_pos fresh).trans setup
      have enough : h₁.earlyRoom page size alignment = some h₁ := if_neg (not_lt.2 fits)
      rw [earlyAllocObject, ready, bind_some, enough, bind_some, placeEarlyObject, if_pos fits, begins]
      exact ⟨_, rfl⟩
    · have ready : h.earlyPageReady page = some h := if_neg fresh
      have full : h.earlyRoom page size alignment = some h₁ :=
        (if_pos (Nat.lt_of_not_le fun le => room ⟨fresh, le⟩)).trans setup
      rw [earlyAllocObject, ready, bind_some, full, bind_some, placeEarlyObject, if_pos fits, begins]
      exact ⟨_, rfl⟩

variable (lower) in
theorem stdMalloc_early (path : h.path size alignment = .early)
    (granted : h.HasEarlyRoom size alignment ∨ lower.page ≠ 0) :
    ∃ h', stdMalloc h lower size alignment =
      .ok (translateMemArea .main .mempool (h.earlyTarget lower.page size alignment),
        .early (h.earlyTarget lower.page size alignment) size, h') := by
  have fits : willFitInEarlyAllocPage size alignment = true := by
    unfold Heap.path at path
    split_ifs at path with _ _ _ early
    exact early.2
  obtain ⟨h', placed⟩ := Heap.earlyAllocObject_eq fits granted
  rw [stdMalloc_path, path]
  simp only [placed]
  exact ⟨h', rfl⟩

/-! ## A small machine -/

def sampleHeap (smp : Bool) : Heap where
  smpAllocator := smp
  earlyObjectPage := 0
  earlyAllocNextOffset := 0
  earlyAllocPreviousOffset := 0
  word _ := 0
  half _ := 0
  elfStart := 0x200000
  elfSize := 0x800000

theorem sampleHeap_sound (smp : Bool) : (sampleHeap smp).Sound :=
  ⟨fun there => absurd rfl there, by cases smp <;> decide⟩

/-! ## The way back -/

theorem sub64_offset (header : ℕ) {offset rounded : ℕ} (enough : size + offset ≤ rounded)
    (word : rounded < 2 ^ 64) : size ≤ sub64 rounded offset ∧
      sub64 rounded offset = header + rounded - (header + offset) := by
  rw [sub64_eq (by omega) word]
  omega

/-- From the pointer alone `object_size` finds at least `size` bytes of the block, and `free`
the call that hands it back. -/
def Block.FoundAgain (later : Heap) (ptr size : ℕ) (block : Block) : Prop :=
  ∃ n, later.objectSize ptr = some n ∧ size ≤ n ∧ n ≤ block.bytesFrom ptr ∧
    later.free ptr = some block.release

/-- The block is found again as long as its words are kept. -/
theorem Placed.foundAgain (placed : Placed h' ptr size (2 ^ k) block) (pos : 0 < size)
    (granted : block ≠ .page 0) {later : Heap} (kept : block.Kept h' later) :
    block.FoundAgain later ptr size := by
  obtain ⟨shape, elf⟩ := placed
  obtain ⟨offsetPos, offsetLe, -, -⟩ := largeOffset_spec (k := k)
  cases block with
  | pool n object =>
    obtain ⟨place, -, le10, -, enough, pooled⟩ := shape
    rw [place]
    obtain ⟨low, high⟩ := pooled.inMain le10
    obtain ⟨linear, area, back⟩ := area_back later .mempool low high
    have found : later.poolFromObject object = some n := by
      rw [poolFromObject, kept.words _ (by simp [words]), pooled.owner]
    refine ⟨computeObjectSize n, ?_, by rw [computeObjectSize_eq le10]; exact enough, le_rfl, ?_⟩
    · rw [objectSize, if_neg (not_not.2 linear), area]
      simp only [back, found]
    · rw [free, if_neg (not_not.2 linear), area]
      simp only [back, found]
      rfl
  | early object size' =>
    obtain ⟨rfl, place, page, early⟩ := shape
    rw [place]
    have down := early.alignDown_eq pos
    obtain ⟨main, owner, stored, behind, fits, -, -⟩ := early
    have low : page ≤ object := by omega
    have high : object < page + pageSize := by omega
    obtain ⟨linear, area, back⟩ := area_back later .mempool (main.low.trans low) (high.trans_le main.high)
    have found : later.poolFromObject object = none := by
      rw [poolFromObject, kept.words _ (by simp [words]), down, owner]
    have half : later.half (object - sizeofShort) = size' := by
      rw [kept.halves _ (by simp [halves]), stored]
    refine ⟨size', ?_, le_rfl, le_rfl, ?_⟩
    · rw [objectSize, if_neg (not_not.2 linear), area]
      simp only [back, found, half]
    · rw [free, if_neg (not_not.2 linear), area]
      simp only [back, found, half]
      rfl
  | page addr =>
    obtain ⟨place, isPage, enough, -⟩ := shape
    rw [place]
    have page := isPage fun zero => granted (by rw [zero])
    obtain ⟨linear, area, back⟩ := area_back later .page page.low page.lt
    refine ⟨pageSize, ?_, enough, le_rfl, ?_⟩
    · rw [objectSize, if_neg (not_not.2 linear), area]
    · rw [free, if_neg (not_not.2 linear), area]
      simp only [back]
      rfl
  | range header rounded =>
    -- A large block in the main area: its header holds the size.
    obtain ⟨place, aligned, low, high, stored, enough⟩ := shape
    rw [place]
    have bounds : header + largeOffset (2 ^ k) < MemArea.main.base + memAreaSize := by omega
    obtain ⟨linear, area⟩ := main_area later (low.trans (Nat.le_add_right _ _)) bounds
    have small : header + rounded < 2 ^ 64 := by
      simp only [MemArea.base, MemArea.index, memAreaSize] at high
      omega
    have back := largeObject_eq aligned offsetPos offsetLe (by omega)
    obtain ⟨left, rest⟩ := sub64_offset header enough (by omega)
    have word := kept.words header (by simp [words])
    rw [stored] at word
    refine ⟨sub64 rounded (largeOffset (2 ^ k)), ?_, left, rest.le, ?_⟩
    · rw [objectSize, if_neg (not_not.2 linear), area]
      simp only [back, word]
    · rw [free, if_neg (not_not.2 linear), area]
      simp only [back, word]
      rfl
  | mapped addr rounded =>
    -- A mapped block lies outside the linear areas and the kernel.
    obtain ⟨place, aligned, low, high, stored, enough⟩ := shape
    rw [place]
    have small : addr + rounded < 2 ^ 64 := by
      simp only [MemArea.base, MemArea.index, memAreaSize] at high
      omega
    have notLinear : later.isLinearMapped (addr + largeOffset (2 ^ k)) = false := by
      rw [isLinearMapped, kept.elf.1, kept.elf.2]
      refine decide_eq_false ?_
      omega
    have back := largeObject_eq aligned offsetPos offsetLe (by omega)
    obtain ⟨left, rest⟩ := sub64_offset addr enough (by omega)
    have header := kept.words addr (by simp [words])
    rw [stored] at header
    refine ⟨sub64 rounded (largeOffset (2 ^ k)), ?_, left, rest.le, ?_⟩
    · rw [objectSize, if_pos (by simp [notLinear])]
      simp only [back, header]
    · rw [free, if_pos (by simp [notLinear])]
      simp only [back, header]
      rfl

/-- **malloc, free and object_size agree.**  From the pointer alone `object_size` and `free` find
the block that `std_malloc` took, with its header. -/
theorem stdMalloc_agreement (sound : h.Sound) (below : lower.Sound h size (2 ^ k)) (pos : 0 < size)
    (power : 1 ≤ k ∧ k ≤ 12) (result : stdMalloc h lower size (2 ^ k) = .ok (ptr, block, h'))
    (granted : block ≠ .page 0) {later : Heap} (kept : block.Kept h' later) :
    ∃ n, later.objectSize ptr = some n ∧ size ≤ n ∧ n ≤ block.bytesFrom ptr ∧
      later.free ptr = some block.release := by
  have word : 2 ^ k < 2 ^ 64 := Nat.pow_lt_pow_right (by decide) (by omega)
  exact (sound.stdMalloc below word result).foundAgain pos granted kept

/-- The page-range allocator has one page left, and nothing else can be had. -/
def earlyLower : Lower := ⟨fun _ => 0, main.base + 0x100000, none, none⟩

/-- An early object outlives the switch to the SMP allocator. -/
theorem earlyObject_agreement :
    ∃ ptr block h, stdMalloc (sampleHeap false) earlyLower 100 (2 ^ 4) = .ok (ptr, block, h) ∧
      ∃ n, ({ h with smpAllocator := true } : Heap).objectSize ptr = some n ∧ 100 ≤ n ∧
        n ≤ block.bytesFrom ptr ∧
        ({ h with smpAllocator := true } : Heap).free ptr = some block.release := by
  have path : (sampleHeap false).path 100 (2 ^ 4) = .early := by decide
  have below : earlyLower.Sound (sampleHeap false) 100 (2 ^ 4) :=
    ⟨fun n pool => (by rw [path] at pool; cases pool), fun _ => ⟨by decide, by decide, by decide⟩,
      fun _ _ _ found => (by cases found), fun _ _ found => (by cases found)⟩
  obtain ⟨h, granted⟩ := stdMalloc_early earlyLower path (.inr (by decide))
  exact ⟨_, _, h, granted, stdMalloc_agreement (k := 4) (sampleHeap_sound false) below (by decide)
    (by decide) granted nofun ⟨fun _ _ => rfl, fun _ _ => rfl, rfl, rfl⟩⟩

end Malloc

end MiniOsv.Mempool
