/-
# Mempool.Memalign -- the alignment contract of posix_memalign

`Memory` puts the allocators of the other modules below `std_malloc`: the object pools, the
page pools, the page ranges and the areas among which `map_anon` looks for a hole.  What
`std_malloc` has to know of them follows from their invariants (`Memory.Sound.lower`).

`posixMemalign_kept_iff`: the promise of `posix_memalign` is kept for exactly the requests of
`Memory.Served`.  A mapping is aligned to a page only, an early object may be on any byte, zero
passes for a power of two, and before SMP nobody looks whether there was a page.
-/
import MiniOsv.Mempool.AllocComplete
import MiniOsv.Mempool.MallocContract
import MiniOsv.Mempool.ObjectPool
import MiniOsv.Mempool.PagePool
import MiniOsv.Mmu.MapAnon

namespace MiniOsv.Mempool

open MemArea Heap Option Nat PageRangeAllocator

/-! ## The allocators below -/

structure Memory (Cpu Thread : Type) where
  pools : ObjectPool.Pools Cpu ℕ
  pagePool : PagePool.Pools Cpu Thread ℕ
  cpu : Cpu
  ranges : PageRangeAllocator
  mm : Mmu.Mm

namespace Memory

variable {Cpu Thread : Type} [DecidableEq Cpu]

/-- `alloc_page`: the top of L1 once there is one, and a page of the ranges before SMP. -/
def page (m : Memory Cpu Thread) (h : Heap) : ℕ :=
  if h.smpAllocator then (m.pagePool.l1 m.cpu).headD 0
  else ((m.ranges.alloc true pageSize true).1.map (physMem + ·)).getD 0

/-- `map_anon(nullptr, size, mmap_populate, perm_read | perm_write)`. -/
def mapping (m : Memory Cpu Thread) (size : ℕ) : Option ℕ :=
  match m.mm.mapAnon 0 size (2 ^ 1) 3 with
  | some (_, .ok addr) => some addr
  | _ => none

/-- What the allocators return in a call of `std_malloc`. -/
def lower (m : Memory Cpu Thread) (h : Heap) (size alignment : ℕ) : Lower where
  poolObject n := ((m.pools.alloc n m.cpu).bind fun s => s.handed.head?).getD 0
  page := m.page h
  range := (m.ranges.allocLarge (mallocLargeSize size alignment) alignment false).1.map (physMem + ·)
  mapping := m.mapping (mallocLargeSize size alignment)

/-- The invariants of the allocators, and the loops of a call that returns have come to an end. -/
structure Sound [Fintype Cpu] [Fintype Thread] (m : Memory Cpu Thread) (h : Heap)
    (size alignment : ℕ) : Prop where
  pools : ObjectPool.Inv computeObjectSize [] m.pools
  owners : ∀ page header, m.pools.header page = some header →
    MainPage page ∧ h.word page = header.owner + 1
  /-- `pool::alloc` has left the loop that adds pages. -/
  objects : ∀ n, h.path size alignment = .pool n → m.pools.free n m.cpu ≠ []
  pages : ∃ cfg all, PagePool.Inv cfg all m.pagePool ∧ ∀ p ∈ all, MainPage p
  /-- `l1::alloc_page` has left the loop that refills. -/
  local_ : h.smpAllocator = true → h.path size alignment = .page → m.pagePool.l1 m.cpu ≠ []
  ranges : ∃ F G, Core m.ranges F G
  areas : m.mm.Wf ∧ m.mm.LinearPages

end Memory

/-! ## Large blocks -/

namespace PageRangeAllocator

/-- A free range from which `malloc_large` gets a block: without an alignment beyond the page it
only looks at ranges of an order that guarantees the size. -/
def FitsLarge (s : PageRangeAllocator) (size alignment : ℕ) : Prop :=
  if pageSize < alignment then
    ∃ r ∈ s.freeRanges, ∃ b, AlignedBlock r size pageSize alignment b
  else ∃ r ∈ s.freeRanges, ilog2Roundup (size / pageSize) ≤ orderOf r.2

end PageRangeAllocator

section Ranges

variable {s : PageRangeAllocator} {F : Finset Theory.Extent} {G : Finset Grant} {size k : ℕ}

/-- **`alloc` of pages that need not be contiguous** finds a range exactly when one is of an
order that guarantees the size. -/
theorem Represents.alloc_ne_none_iff (rep : Represents s F) (whole : size % pageSize = 0)
    (small : ilog2Roundup (size / pageSize) ≤ maxOrder) :
    (s.alloc true size false).1 ≠ none ↔
      ∃ r ∈ F, ilog2Roundup (size / pageSize) ≤ orderOf r.2 := by
  have exactOrder : min (ilog2Roundup (size / pageSize)) maxOrder = ilog2Roundup (size / pageSize) :=
    min_eq_left small
  cases orders : s.ordersFrom (ilog2Roundup (size / pageSize)) with
  | nil =>
    refine iff_of_false (by simp [alloc, exactOrder, orders]) ?_
    rintro ⟨r, mem, order⟩
    have listed := rep.mem_ordersFrom mem (le_min order small)
    rw [orders] at listed
    exact List.not_mem_nil listed
  | cons order rest =>
    obtain ⟨inside, above, full⟩ := rep.of_ordersFrom orders
    obtain ⟨a, rest', linked⟩ := List.exists_cons_of_ne_nil full
    have inF := rep.of_mem_container (by omega) (linked ▸ List.mem_cons_self : a ∈ s.container order)
    refine iff_of_true ?_ ⟨_, inF.1, ?_⟩
    · refine rep.alloc_of_orders (by rw [exactOrder, orders]) fun _ last isLast => ?_
      have ofTree := rep.of_mem_freeHuge (List.mem_of_getLast? isLast)
      exact le_of_ilog2Roundup_le whole (rep.wf _ ofTree.1).page_le (small.trans ofTree.2)
    · have bucket : bucketOf (s.mem a) = min (orderOf (s.mem a)) maxOrder := rfl
      simp only
      omega

/-- **The block of `malloc_large`** in the page ranges: when there is one, and where it lies. -/
theorem Core.allocLarge (core : Core s F G) (whole : size % pageSize = 0) (pos : 0 < size)
    (small : size < hugePageSize) (word : k < 64) :
    ((s.allocLarge size (2 ^ k) false).1 ≠ none ↔ s.FitsLarge size (2 ^ k)) ∧
      ∀ pr, (s.allocLarge size (2 ^ k) false).1 = some pr → pr % pageSize = 0 ∧
        pr + size ≤ memAreaSize ∧ (pageSize < 2 ^ k → 2 ^ k ∣ physMem + pr + pageSize) := by
  have rep := core.bare.rep
  have inArea : ∀ r ∈ F, r.1 + r.2 ≤ memAreaSize := fun r mem =>
    (core.bare.layout.inside r mem).trans core.area
  unfold PageRangeAllocator.allocLarge FitsLarge
  by_cases larger : pageSize < 2 ^ k
  · have exact : s.AlignedExact size pageSize (2 ^ k) := alignedExact_of_le _ (Nat.two_pow_pos k) (by
      have : 2 ^ k ≤ 2 ^ 63 := Nat.pow_le_pow_right (by decide) (by omega)
      simp only [hugePageSize] at small
      omega)
    obtain ⟨-, missing, found⟩ := (core.alignedSpec_iff whole pos
      (show pageSize % pageSize = 0 by decide) word false).2 exact
    rw [if_pos larger, if_pos larger]
    refine ⟨?_, fun pr some_ => ?_⟩
    · rw [Ne, missing]
      push Not
      rfl
    · obtain ⟨r, listed, block, -⟩ := found pr some_
      have high := block.high
      have := inArea r ((rep.mem_freeRanges r).1 listed)
      exact ⟨block.page, by omega, fun _ => dvd_of_mod_eq_zero block.aligned⟩
  · rw [if_neg larger, if_neg larger]
    have order : ilog2Roundup (size / pageSize) ≤ maxOrder :=
      (ilog2Roundup_le (m := 9) (by simp only [hugePageSize, pageSize] at *; omega)).trans (by decide)
    refine ⟨?_, fun pr some_ => ?_⟩
    · rw [rep.alloc_ne_none_iff whole order]
      simp only [rep.mem_freeRanges]
    · obtain failed | ⟨r, mem, fits, taken⟩ := rep.alloc_cases whole true false
      · rw [failed] at some_
        cases some_
      · rw [taken] at some_
        obtain rfl : r.1 = pr := Option.some.inj some_
        have := inArea r mem
        exact ⟨(rep.wf r mem).aligned, by omega, fun lt => absurd lt larger⟩

/-- A page can be had while there is any free range. -/
theorem Core.alloc_page (core : Core s F G) :
    ((s.alloc true pageSize true).1 ≠ none ↔ s.freeRanges ≠ []) ∧
      ∀ pr, (s.alloc true pageSize true).1 = some pr → MainPage (physMem + pr) := by
  have rep := core.bare.rep
  obtain ⟨-, missing, found⟩ := core.allocSpec (show pageSize % pageSize = 0 by decide) (by decide)
  refine ⟨?_, fun pr some_ => ?_⟩
  · rw [Ne, missing]
    constructor
    · rintro found empty
      exact found fun r listed => absurd listed (empty ▸ List.not_mem_nil)
    · intro nonempty none
      obtain ⟨r, listed⟩ := List.exists_mem_of_ne_nil _ nonempty
      have page := (rep.wf r ((rep.mem_freeRanges r).1 listed)).page_le
      exact absurd (none r listed) (not_lt.2 page)
  · obtain ⟨r, listed, fits, rfl, -⟩ := found pr some_
    have mem := (rep.mem_freeRanges r).1 listed
    have inArea := (core.bare.layout.inside r mem).trans core.area
    have aligned := (rep.wf r mem).aligned
    exact ⟨by simp only [physMem, pageSize] at *; omega, Nat.le_add_right _ _, by
      show physMem + r.1 + pageSize ≤ physMem + memAreaSize
      omega⟩

end Ranges

/-! ## What `std_malloc` has to know of them -/

namespace Memory

variable {Cpu Thread : Type} {m : Memory Cpu Thread} {h : Heap} {size k : ℕ}

theorem computeObjectSize_fits (n : ℕ) : ObjectPool.FitsPage (computeObjectSize n) := by
  refine ⟨lt_min (Nat.two_pow_pos n) (by decide), ?_⟩
  have := min_le_right (2 ^ n) maxObjectSize
  simp only [computeObjectSize, maxObjectSize, ObjectPool.sizeofPageHeader, pageSize] at *
  omega

theorem mapping_eq_some_iff {hole : ℕ} (whole : size % pageSize = 0) (small : size < 2 ^ 64) :
    m.mapping size = some hole ↔ m.mm.findHole Mmu.Mm.mmapHint size = some (.ok hole) := by
  have rounded : alignUp size pageSize = size := Mmu.alignUp_eq whole small
  have search : (!Nat.testBit (2 ^ 1) 0) = true := by decide
  simp only [mapping, Mmu.Mm.mapAnon, rounded, Mmu.Mm.allocate, search, if_true]
  change _ ↔ m.mm.findHole 0x200000000000 size = _
  cases m.mm.findHole 0x200000000000 size with
  | none => simp
  | some answer => cases answer <;> simp

theorem largeSize_spec (large : h.path size (2 ^ k) = .large) :
    mallocLargeSize size (2 ^ k) % pageSize = 0 ∧ 0 < mallocLargeSize size (2 ^ k) ∧
      Mmu.Mm.mmapHint + mallocLargeSize size (2 ^ k) < 2 ^ 64 := by
  have small := h.path_spec size k
  rw [large] at small
  obtain ⟨enough, bound⟩ := mallocLargeSize_spec (k := k) small
  obtain ⟨pos, offset, -, -⟩ := largeOffset_spec (k := k)
  simp only [Mmu.Mm.mmapHint, pageSize] at *
  exact ⟨mallocLargeSize_whole _ _, by omega, by omega⟩

section

variable [Fintype Cpu] [Fintype Thread] (sound : m.Sound h size (2 ^ k))

include sound

theorem Sound.page_main (there : m.page h ≠ 0) : MainPage (m.page h) := by
  unfold page at there ⊢
  split
  next smp =>
    rw [if_pos smp] at there
    obtain ⟨cfg, all, inv, main⟩ := sound.pages
    cases list : m.pagePool.l1 m.cpu with
    | nil => simp [list] at there
    | cons p rest =>
      refine main p (inv.l1_mem (show p ∈ m.pagePool.l1 m.cpu from ?_))
      rw [list]
      exact List.mem_cons_self
  next early =>
    rw [if_neg early] at there
    obtain ⟨F, G, core⟩ := sound.ranges
    cases found : (m.ranges.alloc true pageSize true).1 with
    | none => simp [found] at there
    | some pr => exact core.alloc_page.2 pr found

/-- After SMP `alloc_page` only returns with a page. -/
theorem Sound.page_ne_zero (smp : h.smpAllocator = true) (taken : h.path size (2 ^ k) = .page) :
    m.page h ≠ 0 := by
  obtain ⟨cfg, all, inv, main⟩ := sound.pages
  obtain ⟨p, rest, list⟩ := List.exists_cons_of_ne_nil (sound.local_ smp taken)
  have low := (main p (inv.l1_mem (list ▸ List.mem_cons_self))).low
  rw [page, if_pos smp, list]
  exact ne_of_gt (lt_of_lt_of_le (by decide) low)

/-- Before SMP there is a page while any range is free. -/
theorem Sound.page_ne_zero_iff (early : h.smpAllocator = false) :
    m.page h ≠ 0 ↔ m.ranges.freeRanges ≠ [] := by
  obtain ⟨F, G, core⟩ := sound.ranges
  rw [page, if_neg (by simp [early]), ← core.alloc_page.1]
  cases (m.ranges.alloc true pageSize true).1 with
  | none => simp
  | some pr => simp [physMem]

theorem Sound.hole {hole : ℕ} (large : h.path size (2 ^ k) = .large)
    (found : m.mm.findHole Mmu.Mm.mmapHint (mallocLargeSize size (2 ^ k)) = some (.ok hole)) :
    hole % pageSize = 0 ∧ 0x200000000000 ≤ hole ∧
      hole + mallocLargeSize size (2 ^ k) ≤ main.base := by
  obtain ⟨whole, pos, small⟩ := largeSize_spec large
  obtain ⟨wf, pages⟩ := sound.areas
  obtain ⟨proper, -, -⟩ := wf.hole pages 3 2 pos whole small found
  have spec := Mmu.findHole_spec wf.ordered (by decide) pos small
  rw [found] at spec
  exact ⟨proper.startAligned, spec.1.1, proper.inside⟩

variable [DecidableEq Cpu]

theorem Sound.poolObject {n : ℕ} (taken : h.path size (2 ^ k) = .pool n) :
    PoolObject h n ((m.lower h size (2 ^ k)).poolObject n) := by
  obtain ⟨s', o, header, alloc, handed, here, owner, place⟩ :=
    sound.pools.alloc_object computeObjectSize_fits (sound.objects n taken)
  have object : (m.lower h size (2 ^ k)).poolObject n = o := by
    simp [lower, alloc, handed]
  obtain ⟨main, word⟩ := sound.owners _ header here
  rw [object]
  exact ⟨main, by rw [← owner]; exact word, place⟩

/-- **The invariants of the allocators give what `std_malloc` needs.** -/
theorem Sound.lower (word : k < 64) : (m.lower h size (2 ^ k)).Sound h size (2 ^ k) where
  pool n taken := sound.poolObject taken
  page := sound.page_main
  range large notHuge header found := by
    obtain ⟨whole, pos, -⟩ := largeSize_spec large
    obtain ⟨F, G, core⟩ := sound.ranges
    obtain ⟨pr, some_, rfl⟩ := map_eq_some_iff.1 found
    obtain ⟨aligned, inside, -⟩ := (core.allocLarge whole pos notHuge word).2 pr some_
    exact ⟨by simp only [physMem, pageSize] at *; omega, Nat.le_add_right _ _, by
      show physMem + pr + _ ≤ physMem + memAreaSize
      omega⟩
  mapping large obj found := by
    obtain ⟨whole, -, small⟩ := largeSize_spec large
    exact sound.hole large ((mapping_eq_some_iff whole (by omega)).1 found)

end

end Memory

/-! ## The promise -/

/-- What `posix_memalign` promises.  A page that is not there is no allocation. -/
def Memalign.Kept (alignment size : ℕ) : Memalign → Prop
  | .einval => alignment = 0 ∨ ¬∃ k, alignment = 2 ^ k
  | .enomem => ∃ k, alignment = 2 ^ k
  | .stored ptr block _ => (∃ k, alignment = 2 ^ k) ∧ alignment ∣ ptr ∧ sizeofPointer ∣ ptr ∧
      block ≠ .page 0 ∧ size ≤ block.bytesFrom ptr
  | .threw => False
  | .crashed => False

/-- What the block has to be like besides. -/
def Block.Good (k : ℕ) : Block → Prop
  | .pool _ _ => True
  | .early object _ => sizeofPointer ∣ object
  | .page addr => addr ≠ 0
  | .range addr _ | .mapped addr _ => pageSize < 2 ^ k → 2 ^ k ∣ addr + pageSize

section Promise

variable {h h' : Heap} {lower : Lower} {size alignment k ptr : ℕ} {block : Block}

/-- The object of a large block: its header is on a page boundary. -/
theorem large_aligned {addr : ℕ} (aligned : addr % pageSize = 0) :
    (2 ^ k ∣ addr + largeOffset (2 ^ k) ↔ (pageSize < 2 ^ k → 2 ^ k ∣ addr + pageSize)) ∧
      sizeofPointer ∣ addr + largeOffset (2 ^ k) := by
  obtain ⟨-, -, offsetEight, offsetDvd⟩ := largeOffset_spec (k := k)
  refine ⟨?_, Nat.dvd_add (dvd_of_page (k := 3) (by decide) aligned) offsetEight⟩
  by_cases fits : 2 ^ k ≤ pageSize
  · exact iff_of_true (Nat.dvd_add (dvd_of_page fits aligned) (offsetDvd fits))
      fun lt => absurd lt (not_lt.2 fits)
  · rw [largeOffset, if_neg fun lt => fits lt.le]
    simp only [Nat.lt_of_not_le fits, true_imp_iff]

theorem Placed.good_iff (placed : Placed h ptr size (2 ^ k) block) :
    (2 ^ k ∣ ptr ∧ sizeofPointer ∣ ptr ∧ block ≠ .page 0 ∧ size ≤ block.bytesFrom ptr ↔
      block.Good k) ∧ ptr ≠ 0 := by
  obtain ⟨shape, -⟩ := placed
  obtain ⟨offsetPos, -, -, -⟩ := largeOffset_spec (k := k)
  cases block with
  | pool n object =>
    obtain ⟨place, low, high, fits, enough, pooled⟩ := shape
    obtain ⟨lower, upper⟩ := pooled.inMain high
    have whole : 2 ^ n ∣ ptr := by
      rw [place, translate_main _ lower upper.le]
      exact Nat.dvd_add (pooled.dvd high)
        (Nat.dvd_mul_left_of_dvd (two_pow_dvd_memAreaSize (by omega)) 2)
    refine ⟨iff_of_true ⟨Nat.dvd_trans (Nat.pow_dvd_pow 2 (pow_le_iff.1 fits)) whole,
      Nat.dvd_trans (Nat.pow_dvd_pow 2 (m := 3) low) whole, nofun, ?_⟩ trivial, ?_⟩
    · rw [Block.bytesFrom, computeObjectSize_eq high]
      exact enough
    · rw [place, translate_main _ lower upper.le]
      exact ne_of_gt (lt_of_lt_of_le (by decide) (le_add_left _ _))
  | early object size' =>
    obtain ⟨rfl, place, page, object'⟩ := shape
    have lower : main.base ≤ object := object'.main.low.trans (by
      have := object'.behind
      omega)
    have upper : object ≤ main.base + memAreaSize :=
      (le_add_right _ _).trans (object'.fits.trans object'.main.high)
    rw [place, translate_main _ lower upper]
    have eight : sizeofPointer ∣ object + mempool.index * memAreaSize ↔ sizeofPointer ∣ object :=
      Nat.dvd_add_left (by decide)
    refine ⟨⟨fun kept => eight.1 kept.2.1, fun good => ⟨?_, eight.2 good, nofun, le_rfl⟩⟩, ?_⟩
    · exact Nat.dvd_add object'.aligned (dvd_of_page object'.small (by decide))
    · exact ne_of_gt (lt_of_lt_of_le (by decide) (le_add_left _ _))
  | page addr =>
    obtain ⟨place, isPage, enough, fits⟩ := shape
    by_cases zero : addr = 0
    · subst zero
      exact ⟨iff_of_false (fun kept => kept.2.2.1 rfl) (fun good => good rfl), place ▸ by decide⟩
    · have main := isPage zero
      rw [place, translate_main _ main.low main.lt.le]
      have area : page.index * memAreaSize % pageSize = 0 := by decide
      refine ⟨iff_of_true ⟨?_, ?_, fun same => zero (Block.page.inj same), enough⟩ zero, ?_⟩
      · exact Nat.dvd_add (dvd_of_page fits main.aligned) (dvd_of_page fits area)
      · exact Nat.dvd_add (dvd_of_page (k := 3) (by decide) main.aligned) (by decide)
      · exact ne_of_gt (lt_of_lt_of_le (by decide) (le_add_left _ _))
  | range header size' =>
    obtain ⟨place, aligned, -, -, -, enough⟩ := shape
    obtain ⟨exactly, eight⟩ := large_aligned (k := k) aligned
    subst place
    exact ⟨⟨fun kept => exactly.1 kept.1, fun good => ⟨exactly.2 good, eight, nofun, by
      simp only [Block.bytesFrom]
      omega⟩⟩, by omega⟩
  | mapped addr size' =>
    obtain ⟨place, aligned, -, -, -, enough⟩ := shape
    obtain ⟨exactly, eight⟩ := large_aligned (k := k) aligned
    subst place
    exact ⟨⟨fun kept => exactly.1 kept.1, fun good => ⟨exactly.2 good, eight, nofun, by
      simp only [Block.bytesFrom]
      omega⟩⟩, by omega⟩

theorem posixMemalign_ok (power : isPowerOfTwo alignment = true)
    (result : stdMalloc h lower size alignment = .ok (ptr, block, h')) (there : ptr ≠ 0) :
    posixMemalign h lower alignment size =
      if ptr &&& sub64 alignment 1 = 0 then .stored ptr block h' else .crashed := by
  simp only [posixMemalign, power, result, if_neg there, if_true]

/-- The promise after `std_malloc` has returned a block. -/
theorem Placed.kept_iff (power : isPowerOfTwo (2 ^ k) = true) (word : 2 ^ k < 2 ^ 64)
    (result : stdMalloc h lower size (2 ^ k) = .ok (ptr, block, h'))
    (placed : Placed h' ptr size (2 ^ k) block) :
    (posixMemalign h lower (2 ^ k) size).Kept (2 ^ k) size ↔ block.Good k := by
  obtain ⟨good, there⟩ := placed.good_iff
  have masked : ptr &&& sub64 (2 ^ k) 1 = 0 ↔ 2 ^ k ∣ ptr := by
    rw [sub64_eq (Nat.two_pow_pos k) word, Nat.and_two_pow_sub_one_eq_mod, dvd_iff_mod_eq_zero]
  rw [posixMemalign_ok power result there, ← good]
  split
  next stored => exact ⟨And.right, fun kept => ⟨⟨k, rfl⟩, kept⟩⟩
  next crashed => exact iff_of_false id fun kept => crashed (masked.2 kept.1)

/-- Zero passes for a power of two, and then the promise is not kept. -/
theorem posixMemalign_zero : ¬(posixMemalign h lower 0 size).Kept 0 size := by
  have none : ¬∃ k, 0 = 2 ^ k := fun ⟨k, eq⟩ => absurd eq.symm (Nat.two_pow_pos k).ne'
  rw [posixMemalign, if_pos (by decide)]
  split
  · exact none
  · exact id
  · exact id
  · split
    · exact none
    · split
      · exact fun kept => none kept.1
      · exact id

/-! ## Early objects -/

theorem Heap.earlyAllocObject_eq_none {page : ℕ} (full : ¬h.HasEarlyRoom size alignment)
    (missing : page = 0) : h.earlyAllocObject page size alignment = none := by
  have setup : ∀ h : Heap, h.setupEarlyAllocPage page = none := fun _ => if_pos missing
  by_cases fresh : h.earlyObjectPage = 0
  · rw [earlyAllocObject, earlyPageReady, if_pos fresh, setup]
    rfl
  · have room : h.earlyRoom page size alignment = none := by
      rw [earlyRoom, if_pos (Nat.lt_of_not_le fun le => full ⟨fresh, le⟩), setup]
    rw [earlyAllocObject, earlyPageReady, if_neg fresh, bind_some, room]
    rfl

def Heap.earlyStart (h : Heap) (size alignment : ℕ) : ℕ :=
  if h.HasEarlyRoom size alignment then h.earlyAllocNextOffset else sizeofEarlyHeader

/-- The object is on a multiple of eight when the bytes between the size field and the next
multiple of the alignment reach one. -/
theorem eight_dvd_alignUp_iff {page next : ℕ} (aligned : page % pageSize = 0)
    (small : next ≤ pageSize) (le : k ≤ 12) :
    sizeofPointer ∣ page + alignUp (next + sizeofShort) (2 ^ k) ↔
      (next + 1 + 2 ^ k) % sizeofPointer < 2 ^ k := by
  have eight : sizeofPointer ∣ page := dvd_of_page (k := 3) (by decide) aligned
  rw [Nat.dvd_add_right eight]
  by_cases large : 3 ≤ k
  · have power : 2 ^ 3 ≤ 2 ^ k := pow_le_iff.2 large
    refine iff_of_true ?_ ((Nat.mod_lt _ (by decide)).trans_le power)
    have bound : 2 ^ k ≤ 2 ^ 12 := pow_le_iff.2 le
    exact Nat.dvd_trans (Nat.pow_dvd_pow 2 large) (alignUp_spec (by
      simp only [pageSize, sizeofShort] at *
      omega)).1
  · have few : k < 3 := Nat.lt_of_not_le large
    simp only [alignUp, alignDown, wrap64, sizeofPointer, sizeofShort, pageSize,
      dvd_iff_mod_eq_zero] at *
    interval_cases k <;> omega

end Promise

/-! ## The requests that are served -/

namespace Memory

variable {Cpu Thread : Type}

/-- The promise can be kept: before SMP there is room or a free range, and the next early object
is on a multiple of eight; a large block is in the ranges, or there is a hole for it that suits the
alignment. -/
def Served (m : Memory Cpu Thread) (h : Heap) (size alignment : ℕ) : Prop :=
  alignment ≠ 0 ∧ (isPowerOfTwo alignment = true →
    match h.path size alignment with
    | .refused => True
    | .pool _ => True
    | .early => (h.HasEarlyRoom size alignment ∨ m.ranges.freeRanges ≠ []) ∧
        (h.earlyStart size alignment + 1 + alignment) % sizeofPointer < alignment
    | .page => h.smpAllocator = true ∨ m.ranges.freeRanges ≠ []
    | .large =>
        (mallocLargeSize size alignment < hugePageSize ∧
          m.ranges.FitsLarge (mallocLargeSize size alignment) alignment) ∨
        ∃ hole, m.mm.findHole Mmu.Mm.mmapHint (mallocLargeSize size alignment) = some (.ok hole) ∧
          (pageSize < alignment → alignment ∣ hole + pageSize))

variable [DecidableEq Cpu] [Fintype Cpu] [Fintype Thread] {m : Memory Cpu Thread} {h : Heap}
  {size k : ℕ}

section

variable (heap : h.Sound) (sound : m.Sound h size (2 ^ k)) (word : k < 64)
  (power : isPowerOfTwo (2 ^ k) = true)

include heap sound word power

theorem Sound.kept_iff_good {ptr : ℕ} {block : Block} {h' : Heap}
    (result : stdMalloc h (m.lower h size (2 ^ k)) size (2 ^ k) = .ok (ptr, block, h')) :
    (posixMemalign h (m.lower h size (2 ^ k)) (2 ^ k) size).Kept (2 ^ k) size ↔ block.Good k := by
  have lt : 2 ^ k < 2 ^ 64 := Nat.pow_lt_pow_right (by decide) word
  exact (heap.stdMalloc (sound.lower word) lt result).kept_iff power lt result

theorem Sound.early_kept_iff (taken : h.path size (2 ^ k) = .early) :
    (posixMemalign h (m.lower h size (2 ^ k)) (2 ^ k) size).Kept (2 ^ k) size ↔
      (h.HasEarlyRoom size (2 ^ k) ∨ m.ranges.freeRanges ≠ []) ∧
        (h.earlyStart size (2 ^ k) + 1 + 2 ^ k) % sizeofPointer < 2 ^ k := by
  have spec := h.path_spec size k
  rw [taken] at spec
  obtain ⟨small, fits, before⟩ := spec
  have le := willFit_le small (Nat.pow_lt_pow_right (by decide) word) fits
  rw [← sound.page_ne_zero_iff before]
  by_cases granted : h.HasEarlyRoom size (2 ^ k) ∨ m.page h ≠ 0
  · obtain ⟨h', result⟩ := stdMalloc_early (m.lower h size (2 ^ k)) taken granted
    rw [sound.kept_iff_good heap word power result, and_iff_right granted]
    show sizeofPointer ∣ h.earlyTarget (m.page h) size (2 ^ k) ↔ _
    by_cases room : h.HasEarlyRoom size (2 ^ k)
    · obtain ⟨main, -, -, next⟩ := heap.early room.1
      rw [earlyTarget, if_pos room, earlyStart, if_pos room]
      exact eight_dvd_alignUp_iff main.aligned next le
    · rw [earlyTarget, if_neg room, earlyStart, if_neg room]
      exact eight_dvd_alignUp_iff (sound.page_main (granted.resolve_left room)).aligned (by decide) le
  · obtain ⟨full, missing⟩ := not_or.1 granted
    refine iff_of_false ?_ fun served => granted served.1
    rw [posixMemalign, if_pos power, stdMalloc_path, taken]
    simp only
    rw [earlyAllocObject_eq_none full (show (m.lower h size (2 ^ k)).page = 0 from not_not.1 missing)]
    exact id

theorem Sound.mapped_kept_iff (large : h.path size (2 ^ k) = .large)
    (maps : stdMalloc h (m.lower h size (2 ^ k)) size (2 ^ k) =
      h.mappedMallocLarge (m.lower h size (2 ^ k)) (mallocLargeSize size (2 ^ k))
        (largeOffset (2 ^ k))) :
    (posixMemalign h (m.lower h size (2 ^ k)) (2 ^ k) size).Kept (2 ^ k) size ↔
      ∃ hole, m.mm.findHole Mmu.Mm.mmapHint (mallocLargeSize size (2 ^ k)) = some (.ok hole) ∧
        (pageSize < 2 ^ k → 2 ^ k ∣ hole + pageSize) := by
  obtain ⟨whole, -, small⟩ := largeSize_spec large
  have hole : ∀ {a}, m.mapping (mallocLargeSize size (2 ^ k)) = some a ↔ _ :=
    mapping_eq_some_iff whole (by omega)
  cases found : m.mapping (mallocLargeSize size (2 ^ k)) with
  | none =>
    have threw : stdMalloc h (m.lower h size (2 ^ k)) size (2 ^ k) = .threw := by
      rw [maps, mappedMallocLarge]
      simp only [Memory.lower, found]
    refine iff_of_false ?_ ?_
    · rw [posixMemalign, if_pos power, threw]
      exact id
    · rintro ⟨a, here, -⟩
      rw [hole.2 here] at found
      cases found
  | some obj =>
    have mapped : stdMalloc h (m.lower h size (2 ^ k)) size (2 ^ k) =
        .ok (obj + largeOffset (2 ^ k), .mapped obj (mallocLargeSize size (2 ^ k)),
          h.setWord obj (mallocLargeSize size (2 ^ k))) := by
      rw [maps, mappedMallocLarge]
      simp only [Memory.lower, found]
    rw [sound.kept_iff_good heap word power mapped]
    refine ⟨fun good => ⟨obj, hole.1 found, good⟩, ?_⟩
    rintro ⟨a, here, good⟩
    rw [hole.2 here] at found
    cases found
    exact good

theorem Sound.large_kept_iff (large : h.path size (2 ^ k) = .large) :
    (posixMemalign h (m.lower h size (2 ^ k)) (2 ^ k) size).Kept (2 ^ k) size ↔
      (mallocLargeSize size (2 ^ k) < hugePageSize ∧
        m.ranges.FitsLarge (mallocLargeSize size (2 ^ k)) (2 ^ k)) ∨
      ∃ hole, m.mm.findHole Mmu.Mm.mmapHint (mallocLargeSize size (2 ^ k)) = some (.ok hole) ∧
        (pageSize < 2 ^ k → 2 ^ k ∣ hole + pageSize) := by
  obtain ⟨F, G, core⟩ := sound.ranges
  obtain ⟨whole, pos, -⟩ := largeSize_spec large
  have path : stdMalloc h (m.lower h size (2 ^ k)) size (2 ^ k) =
      h.mallocLarge (m.lower h size (2 ^ k)) size (2 ^ k) := by
    rw [stdMalloc_path, large]
  by_cases huge : hugePageSize ≤ mallocLargeSize size (2 ^ k)
  · rw [sound.mapped_kept_iff heap word power large (path.trans (if_pos huge))]
    exact ⟨.inr, fun served => served.resolve_left fun ranged => absurd ranged.1 (not_lt.2 huge)⟩
  · have small : mallocLargeSize size (2 ^ k) < hugePageSize := Nat.lt_of_not_le huge
    obtain ⟨fits, inRange⟩ := core.allocLarge whole pos small word
    cases found : (m.ranges.allocLarge (mallocLargeSize size (2 ^ k)) (2 ^ k) false).1 with
    | none =>
      have maps : h.mallocLarge (m.lower h size (2 ^ k)) size (2 ^ k) =
          h.mappedMallocLarge (m.lower h size (2 ^ k)) (mallocLargeSize size (2 ^ k))
            (largeOffset (2 ^ k)) := by
        simp only [mallocLarge, if_neg huge, Memory.lower, found, Option.map_none]
      rw [sound.mapped_kept_iff heap word power large (path.trans maps)]
      exact ⟨.inr, fun served => served.resolve_left fun ranged => fits.2 ranged.2 found⟩
    | some pr =>
      have ranged : stdMalloc h (m.lower h size (2 ^ k)) size (2 ^ k) =
          .ok (physMem + pr + largeOffset (2 ^ k), .range (physMem + pr) (mallocLargeSize size (2 ^ k)),
            h.setWord (physMem + pr) (mallocLargeSize size (2 ^ k))) := by
        rw [path]
        simp only [mallocLarge, if_neg huge, Memory.lower, found, Option.map_some]
      rw [sound.kept_iff_good heap word power ranged]
      exact iff_of_true (inRange pr found).2.2 (.inl ⟨small, fits.1 (by simp [found])⟩)

end

end Memory

def sampleMemory : Memory Bool Bool where
  pools := ObjectPool.atBoot
  pagePool := ⟨fun _ => [], [], 0, fun _ => [], [], [], fun _ => .idle, false⟩
  cpu := false
  ranges := sampleWorld.alloc
  mm := Mmu.twoAreas

/-- The pools are empty, so the request must not need them. -/
theorem sampleMemory_sound {smp : Bool} {size alignment : ℕ}
    (large : (sampleHeap smp).path size alignment = .large) :
    sampleMemory.Sound (sampleHeap smp) size alignment where
  pools := ObjectPool.atBoot_inv _
  owners _ _ found := by cases found
  objects n taken := by
    rw [large] at taken
    cases taken
  pages := ⟨⟨8, 2, 8, 0, by decide⟩, ∅, (show PagePool.Boot _ ∅ _ from
    ⟨fun _ => rfl, rfl, rfl, rfl, fun _ => rfl, fun _ => rfl, rfl, by decide⟩).inv, nofun⟩
  local_ _ taken := by
    rw [large] at taken
    cases taken
  ranges := by
    obtain ⟨F, inv⟩ := sampleWorld_reached.inv
    exact ⟨F, _, inv.core⟩
  areas := by
    refine ⟨Mmu.twoAreas_wf, fun l mem => ?_⟩
    obtain rfl := List.mem_singleton.1 mem
    exact fun _ _ => rfl

end MiniOsv.Mempool
