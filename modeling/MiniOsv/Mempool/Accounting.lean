/-
# Mempool.Accounting -- free_memory against the free ranges

`stats::free()` reads the counter `free_memory`, which the callers of the page range
allocator adjust with `on_alloc` and `on_free`.  A `Section` is the code one of them runs
while it holds `free_page_ranges_lock`.  Sections that wait for memory release the lock
while the ranges and the counter are as another section left them, so a wait adds no
state of its own.

Most sections adjust the counter by what they took or gave back.  Two of them do not look
at the result: `l2::refill` counts `nr_pages` pages whether or not they were allocated, and
`early_alloc_page` counts its page before it asks for it.  `malloc_large` computes its size
with `size_t` additions, and a request that rounds to zero bytes takes a whole range for
nothing.  `counted_of_sound_run` is the result for the runs that avoid these cases.
-/
import MiniOsv.Mempool.AllocComplete

namespace MiniOsv.Mempool

open Theory PageRangeAllocator Option List

def nrPages : ℕ := 32

def hugePageSize : ℕ := 2 ^ 21

/-- `sizeof(page_range)`: the size, a tree hook (three links and the colour) and a list hook. -/
def sizeofPageRange : ℕ := 56

/-- The `offset` of `malloc_large`. -/
def largeOffset (alignment : ℕ) : ℕ :=
  if alignment < pageSize then alignUp sizeofPageRange alignment else pageSize

/-- The size that `malloc_large` asks the page ranges for. -/
def mallocLargeSize (size alignment : ℕ) : ℕ :=
  alignUp (wrap64 (size + largeOffset alignment)) pageSize

theorem mallocLargeSize_whole (size alignment : ℕ) :
    mallocLargeSize size alignment % pageSize = 0 := by
  exact Nat.mul_mod_left _ _

/-- The call of `malloc_large` to the page ranges. -/
def PageRangeAllocator.allocLarge (s : PageRangeAllocator) (size alignment : ℕ) (contiguous : Bool) :
    Option ℕ × PageRangeAllocator :=
  if alignment > pageSize then s.allocAligned size pageSize alignment false
  else s.alloc true size contiguous

def PageRangeAllocator.freePageRangeLocked (s : PageRangeAllocator) (pr : ℕ) : PageRangeAllocator :=
  (s.onFree (s.mem pr)).free pr

namespace World

/-! ## Sections -/

def onAlloc (w : World) (mem : ℕ) : World := { w with alloc := w.alloc.onAlloc mem }

def onFree (w : World) (mem : ℕ) : World := { w with alloc := w.alloc.onFree mem }

/-- The loop of `l2::refill`; a page that could not be allocated is a null pointer in the
batch. -/
def allocPages : ℕ → World → List (Option ℕ) × World
  | 0, w => ([], w)
  | n + 1, w =>
    let page := w.alloc.alloc true pageSize true
    let rest := allocPages n (w.granted page pageSize false)
    (page.1 :: rest.1, rest.2)

def l2Refill (w : World) : List (Option ℕ) × World :=
  let batch := allocPages nrPages w
  (batch.1, batch.2.onAlloc (nrPages * pageSize))

def earlyAllocPage (w : World) : Option ℕ × World :=
  let w := w.onAlloc pageSize
  let page := w.alloc.alloc true pageSize true
  (page.1, w.granted page pageSize false)

/-- Count an allocation that succeeded. -/
def grantedCounted (w : World) (range : Option ℕ × PageRangeAllocator) (size : ℕ) (fill : Bool) :
    World :=
  if range.1.isSome then (w.granted range size fill).onAlloc size else w.granted range size fill

/-- The locked part of `malloc_large`.  A request that may be mapped instead does not take
the lock. -/
def mallocLarge (w : World) (size alignment : ℕ) (contiguous : Bool) : World :=
  let size := mallocLargeSize size alignment
  if hugePageSize ≤ size && !contiguous then w
  else w.grantedCounted (w.alloc.allocLarge size alignment contiguous) size false

def allocHugePage (w : World) (N : ℕ) : World :=
  w.grantedCounted (w.alloc.allocAligned N 0 N true) N true

/-- `free_page_range(addr, size)` of the piece `q` of the grant `g`. -/
def freePageRange (w : World) (g : Grant) (q : Extent) : World :=
  ⟨(w.alloc.write q.1 q.2).freePageRangeLocked q.1, release w.grants g q, w.added⟩

def freeLarge (w : World) (g : Grant) : World :=
  ⟨w.alloc.freePageRangeLocked g.start, release w.grants g g.extent, w.added⟩

/-- `l2::free_batch`, each page with the grant it belongs to. -/
def l2FreeBatch : World → List (Grant × ℕ) → World
  | w, [] => w
  | w, (g, v) :: rest => l2FreeBatch (w.freePageRange g (v, pageSize)) rest

/-- `none` is a run that does not return. -/
def freeInitialMemoryRange (w : World) (addr size : ℕ) : Option World :=
  if size = 0 then some w
  else
    let delta := alignUp addr pageSize - addr
    if delta > size then some w
    else
      let addr := addr + delta
      let size := (size - delta) / pageSize * pageSize
      if size = 0 then some w
      else (((w.onFree size).alloc.write addr size).initialAdd addr).map fun s =>
        ⟨s, w.grants, insert (addr, size) w.added⟩

end World

/-- What can run while `free_page_ranges_lock` is held, and the stores of the owners. -/
inductive Section
  | l2Refill
  | l2FreeBatch (batch : List (Grant × ℕ))
  | mallocLarge (size alignment : ℕ) (contiguous : Bool)
  | freeLarge (g : Grant)
  | allocHugePage (N : ℕ)
  | freeHugePage (g : Grant) (v N : ℕ)
  | earlyAllocPage
  | earlyFreePage (g : Grant) (v : ℕ)
  | freeInitialMemoryRange (addr size : ℕ)
  | store (g : Grant) (addr v : ℕ)

open Section

namespace Section

def run : Section → World → Option World
  | .l2Refill, w => some w.l2Refill.2
  | .l2FreeBatch batch, w => some (w.l2FreeBatch batch)
  | .mallocLarge size alignment contiguous, w => some (w.mallocLarge size alignment contiguous)
  | .freeLarge g, w => some (w.freeLarge g)
  | .allocHugePage N, w => some (w.allocHugePage N)
  | .freeHugePage g v N, w => some (w.freePageRange g (v, N))
  | .earlyAllocPage, w => some w.earlyAllocPage.2
  | .earlyFreePage g v, w => some (w.freePageRange g (v, pageSize))
  | .freeInitialMemoryRange addr size, w => w.freeInitialMemoryRange addr size
  | .store _ addr v, w => some (w.stored addr v)

/-- Each page of the batch is granted when its turn comes. -/
def BatchGranted : World → List (Grant × ℕ) → Prop
  | _, [] => True
  | w, (g, v) :: rest => g ∈ w.grants ∧ g.Piece (v, pageSize) ∧
      BatchGranted (w.freePageRange g (v, pageSize)) rest

/-- What the callers keep to: they free what they were granted, alignments and huge pages
are powers of two, and added ranges are new memory. -/
def Allowed : Section → World → Prop
  | .l2Refill, _ => True
  | .l2FreeBatch batch, w => batch.length = nrPages ∧ BatchGranted w batch
  | .mallocLarge size alignment _, _ => size < 2 ^ 64 ∧ ∃ j < 64, alignment = 2 ^ j
  | .freeLarge g, w => g ∈ w.grants ∧ w.alloc.mem g.start = g.size
  | .allocHugePage N, _ => ∃ j, 12 ≤ j ∧ j < 64 ∧ N = 2 ^ j
  | .freeHugePage g v N, w => g ∈ w.grants ∧ g.Piece (v, N)
  | .earlyAllocPage, _ => True
  | .earlyFreePage g v, w => g ∈ w.grants ∧ g.Piece (v, pageSize)
  | .freeInitialMemoryRange addr size, w =>
    addr + size ≤ memAreaSize ∧ ∀ a ∈ w.added, Extent.Apart (addr, size) a
  | .store g addr _, w => g ∈ w.grants ∧ g.extent.Covers addr ∧ addr % 8 = 0

/-- The section counts exactly what it takes. -/
def Sound : Section → World → Prop
  | .l2Refill, w => nrPages * pageSize ≤ w.alloc.freeBytes
  | .earlyAllocPage, w => w.alloc.freeRanges ≠ []
  | .mallocLarge size alignment contiguous, w =>
    hugePageSize ≤ mallocLargeSize size alignment ∧ contiguous = false ∨
      0 < mallocLargeSize size alignment ∧ (alignment > pageSize →
        w.alloc.AlignedExact (mallocLargeSize size alignment) pageSize alignment)
  | _, _ => True

/-- One section of one of the callers; `ok` is required of each. -/
def Step (ok : Section → World → Prop) (w w' : World) : Prop :=
  ∃ sec : Section, sec.Allowed w ∧ ok sec w ∧ sec.run w = some w'

end Section

/-! ## Each section counts what it takes -/

namespace World

def Counted (w : World) : Prop := ∃ F, Inv w F ∧ w.alloc.freeMemory = total F

variable {w : World} {F : Finset Extent} {size : ℕ} {fill : Bool}

section

variable (inv : Inv w F)

include inv

theorem Inv.total_lt : total F < 2 ^ 64 :=
  inv.core.bare.total_lt inv.core.area

theorem Inv.onAlloc (mem : ℕ) : Inv (w.onAlloc mem) F :=
  ⟨inv.core.congr rfl rfl rfl ⟨rfl, rfl⟩ rfl, inv.buffer, inv.idle, inv.pages⟩

theorem Inv.onFree (mem : ℕ) : Inv (w.onFree mem) F :=
  ⟨inv.core.congr rfl rfl rfl ⟨rfl, rfl⟩ rfl, inv.buffer, inv.idle, inv.pages⟩

theorem Inv.counted_onAlloc (memory : w.alloc.freeMemory = size + total F)
    (small : size + total F < 2 ^ 64) : (w.onAlloc size).Counted := by
  refine ⟨F, inv.onAlloc size, ?_⟩
  show sub64 w.alloc.freeMemory size = total F
  rw [memory, sub64_eq (by omega) small]
  omega

/-- An allocation that is counted only when it succeeds. -/
theorem Inv.grantedCounted (memory : w.alloc.freeMemory = total F) (pos : 0 < size)
    {range : Option ℕ × PageRangeAllocator}
    (spec : range = (none, w.alloc) ∨ ∃ pr s' F', range = (some pr, s') ∧
      Core s' F' (insert ⟨pr, size, fill⟩ w.outstanding) ∧
      SameBitmapStore w.alloc s' ∧
      ∀ x, Covered F x ↔ Extent.Covers (pr, size) x ∨ Covered F' x) :
    (w.grantedCounted range size fill).Counted := by
  have small := inv.total_lt
  obtain ⟨F', inv', same, ⟨none, rfl⟩ | ⟨some, split⟩⟩ := inv.granted pos spec
  · rw [World.grantedCounted, if_neg (by simp [none])]
    exact ⟨F', inv', same.trans memory⟩
  · rw [World.grantedCounted, if_pos (isSome_iff_ne_none.2 some)]
    exact inv'.counted_onAlloc (by rw [same, memory, split]) (by omega)

theorem Inv.allocPages {n : ℕ} (enough : n * pageSize ≤ total F) :
    ∃ F', Inv (World.allocPages n w).2 F' ∧ total F = n * pageSize + total F' ∧
      (World.allocPages n w).2.alloc.freeMemory = w.alloc.freeMemory := by
  induction n generalizing w F with
  | zero => exact ⟨F, inv, by simp, rfl⟩
  | succ n ih =>
    have page : 0 < pageSize := by decide
    have nonempty : F.Nonempty := by
      rw [Finset.nonempty_iff_ne_empty]
      rintro rfl
      simp [total, pageSize] at enough
    obtain ⟨r, mem⟩ := nonempty
    have some := inv.core.bare.rep.alloc_page mem
    obtain ⟨F₁, inv₁, same, ⟨none, -⟩ | ⟨-, split⟩⟩ :=
      inv.granted page (inv.core.alloc (by decide) page true)
    · exact absurd none some
    · obtain ⟨F', inv', rest, memory⟩ := ih inv₁ (by rw [Nat.succ_mul] at enough; omega)
      exact ⟨F', inv', by rw [split, rest, Nat.succ_mul]; omega, memory.trans same⟩

end

section

variable (counted : w.Counted)

include counted

theorem Counted.l2Refill (enough : nrPages * pageSize ≤ w.alloc.freeBytes) :
    w.l2Refill.2.Counted := by
  obtain ⟨F, inv, memory⟩ := counted
  have small := inv.total_lt
  rw [inv.core.bare.rep.freeBytes] at enough
  obtain ⟨F', inv', split, same⟩ := inv.allocPages enough
  exact inv'.counted_onAlloc (by rw [same, memory, split]) (by omega)

theorem Counted.earlyAllocPage (free : w.alloc.freeRanges ≠ []) : w.earlyAllocPage.2.Counted := by
  obtain ⟨F, inv, memory⟩ := counted
  obtain ⟨r, listed⟩ := exists_mem_of_ne_nil _ free
  have mem := (inv.core.bare.rep.mem_freeRanges r).1 listed
  have charged := inv.onAlloc pageSize
  have small := inv.total_lt
  have page : 0 < pageSize := by decide
  have some := charged.core.bare.rep.alloc_page mem
  obtain ⟨F', inv', same, ⟨none, -⟩ | ⟨-, split⟩⟩ :=
    charged.granted page (charged.core.alloc (by decide) page true)
  · exact absurd none some
  · refine ⟨F', inv', same.trans ?_⟩
    show sub64 w.alloc.freeMemory pageSize = total F'
    rw [memory, sub64_eq (by omega) small]
    omega

theorem Counted.mallocLarge {alignment : ℕ} {contiguous : Bool}
    (power : ∃ j < 64, alignment = 2 ^ j)
    (sound : hugePageSize ≤ mallocLargeSize size alignment ∧ contiguous = false ∨
      0 < mallocLargeSize size alignment ∧ (alignment > pageSize →
        w.alloc.AlignedExact (mallocLargeSize size alignment) pageSize alignment)) :
    (w.mallocLarge size alignment contiguous).Counted := by
  obtain ⟨F, inv, memory⟩ := counted
  have whole := mallocLargeSize_whole size alignment
  simp only [World.mallocLarge]
  split
  · exact ⟨F, inv, memory⟩
  next locked =>
    obtain ⟨pos, exact⟩ : 0 < mallocLargeSize size alignment ∧ (alignment > pageSize →
        w.alloc.AlignedExact (mallocLargeSize size alignment) pageSize alignment) := by
      rcases sound with ⟨huge, mapped⟩ | sound
      · simp [huge, mapped] at locked
      · exact sound
    unfold allocLarge
    split
    next larger =>
      have alignmentWhole : alignment % pageSize = 0 := by
        obtain ⟨j, -, rfl⟩ := power
        have exponent : 12 ≤ j := by
          by_contra below
          have := Nat.pow_le_pow_right (n := 2) (by decide) (show j ≤ 12 by omega)
          simp only [pageSize] at larger
          omega
        exact Nat.mod_eq_zero_of_dvd (pow_dvd_pow 2 exponent)
      exact inv.grantedCounted memory pos
        (inv.core.allocAligned whole pos (by decide) alignmentWhole (exact larger) false)
    · exact inv.grantedCounted memory pos (inv.core.alloc whole pos contiguous)

theorem Counted.allocHugePage {N : ℕ}
    (power : ∃ j, 12 ≤ j ∧ j < 64 ∧ N = 2 ^ j) : (w.allocHugePage N).Counted := by
  obtain ⟨F, inv, memory⟩ := counted
  obtain ⟨j, low, high, rfl⟩ := power
  have whole : 2 ^ j % pageSize = 0 := Nat.mod_eq_zero_of_dvd (pow_dvd_pow 2 low)
  have pos : 0 < 2 ^ j := Nat.two_pow_pos j
  -- The size is its own alignment, so the sum of the test stays below twice the size.
  have fits : 2 ^ j + 2 ^ j ≤ 2 ^ 64 := by
    have := Nat.pow_le_pow_right (n := 2) (by decide) (show j ≤ 63 by omega)
    omega
  exact inv.grantedCounted memory pos (inv.core.allocAligned whole pos (by decide) whole
    (alignedExact_of_le _ pos fits) true)

end

/-- Freeing a granted piece gives back its size. -/
theorem Inv.counted_freed (inv : Inv w F) (memory : w.alloc.freeMemory = total F) {g : Grant}
    {q : Extent} (mem : g ∈ w.grants) (piece : g.Piece q) (header : w.alloc.mem q.1 = q.2) :
    ((w.onFree q.2).freed g q).Counted := by
  obtain ⟨F', inv', cover⟩ := (inv.onFree q.2).freed mem piece header
  have loose := inv.core.ungrant (Finset.mem_union_left _ mem) piece header
  have split : total F' = q.2 + total F :=
    total_of_cover inv'.core.bare.rep.apart inv.core.bare.rep.apart loose.bare.pend.apart cover
  have small := inv'.total_lt
  refine ⟨F', inv', ?_⟩
  show ((w.onFree q.2).alloc.free q.1).freeMemory = total F'
  rw [(free_store (w.onFree q.2).alloc q.1).memory]
  show wrap64 (w.alloc.freeMemory + q.2) = total F'
  rw [memory, wrap64, Nat.mod_eq_of_lt (by omega)]
  omega

section

variable (counted : w.Counted)

include counted

theorem Counted.freePageRange {g : Grant} {q : Extent}
    (mem : g ∈ w.grants) (piece : g.Piece q) : (w.freePageRange g q).Counted := by
  obtain ⟨F, inv, memory⟩ := counted
  have low := piece.low
  have high := piece.high
  have pos := piece.wf.pos
  have written : Inv (w.stored q.1 q.2) F := inv.stored mem
    (by simp only [Grant.extent, Extent.Covers]; omega)
    (by have aligned := piece.wf.aligned; simp only [pageSize] at aligned; omega)
  have header : (w.stored q.1 q.2).alloc.mem q.1 = q.2 := Function.update_self _ _ _
  have result := written.counted_freed memory mem piece header
  have same : w.freePageRange g q = ((w.stored q.1 q.2).onFree q.2).freed g q := by
    simp [World.freePageRange, freePageRangeLocked, World.freed, World.onFree, World.stored]
  rw [same]
  exact result

theorem Counted.freeLarge {g : Grant} (mem : g ∈ w.grants)
    (header : w.alloc.mem g.start = g.size) : (w.freeLarge g).Counted := by
  obtain ⟨F, inv, memory⟩ := counted
  have wf := inv.core.bare.layout.grantWf g (Finset.mem_union_left _ mem)
  have result := inv.counted_freed memory mem (Grant.piece_whole wf) header
  have same : w.freeLarge g = (w.onFree g.extent.2).freed g g.extent := by
    simp [World.freeLarge, freePageRangeLocked, World.freed, World.onFree, header, Grant.extent]
  rw [same]
  exact result

theorem Counted.l2FreeBatch {batch : List (Grant × ℕ)}
    (granted : BatchGranted w batch) : (w.l2FreeBatch batch).Counted := by
  induction batch generalizing w with
  | nil => exact counted
  | cons entry rest ih =>
    obtain ⟨mem, piece, granted⟩ := granted
    exact ih (counted.freePageRange mem piece) granted

theorem Counted.freeInitialMemoryRange {w' : World} {addr : ℕ}
    (inArea : addr + size ≤ memAreaSize) (new : ∀ a ∈ w.added, Extent.Apart (addr, size) a)
    (result : w.freeInitialMemoryRange addr size = some w') : w'.Counted := by
  unfold World.freeInitialMemoryRange at result
  by_cases empty : size = 0
  · rw [if_pos empty] at result
    exact Option.some.inj result ▸ counted
  rw [if_neg empty] at result
  by_cases short : alignUp addr pageSize - addr > size
  · rw [if_pos short] at result
    exact Option.some.inj result ▸ counted
  rw [if_neg short] at result
  by_cases nothing : (size - (alignUp addr pageSize - addr)) / pageSize * pageSize = 0
  · rw [if_pos nothing] at result
    exact Option.some.inj result ▸ counted
  rw [if_neg nothing] at result
  obtain ⟨s, added, rfl⟩ := map_eq_some_iff.1 result
  clear result
  obtain ⟨F, inv, memory⟩ := counted
  -- The whole pages of the range.
  obtain ⟨P, start, length⟩ : ∃ P : Extent, addr + (alignUp addr pageSize - addr) = P.1 ∧
      (size - (alignUp addr pageSize - addr)) / pageSize * pageSize = P.2 := ⟨(_, _), rfl, rfl⟩
  have rounded : addr ≤ alignUp addr pageSize ∧ alignUp addr pageSize % pageSize = 0 := by
    simp only [alignUp, alignDown, wrap64, pageSize, memAreaSize] at *
    omega
  have wf : PageExtent P := by
    constructor <;> simp only [← start, ← length, pageSize] at * <;> omega
  have inside : addr ≤ P.1 ∧ P.1 + P.2 ≤ addr + size := by
    simp only [← start, ← length, pageSize] at *
    omega
  rw [start, length] at added ⊢
  have free : total F ≤ memAreaSize :=
    total_le inv.core.bare.rep.apart fun r rm => (inv.core.bare.layout.inside r rm).trans inv.core.area
  have credited : (w.onFree P.2).alloc.freeMemory = P.2 + total F := by
    show wrap64 (w.alloc.freeMemory + P.2) = P.2 + total F
    rw [memory, wrap64, Nat.mod_eq_of_lt (by simp only [memAreaSize] at *; omega)]
    omega
  obtain ⟨F', inv', memory'⟩ := (inv.onFree P.2).initialAdd wf (by omega)
    (fun a mem => by have := new a mem; simp only [Extent.Apart] at *; omega) added
  exact ⟨F', inv', memory' credited⟩

end

end World

/-! ## Runs of sections -/

/-- **One section keeps the counter in step with the ranges.** -/
theorem Section.Step.counted {w w' : World} (taken : Step Sound w w')
    (counted : w.Counted) : w'.Counted := by
  obtain ⟨sec, allowed, sound, result⟩ := taken
  cases sec
  case freeInitialMemoryRange addr size =>
    exact counted.freeInitialMemoryRange allowed.1 allowed.2 result
  all_goals obtain rfl := Option.some.inj result
  case l2Refill => exact counted.l2Refill sound
  case l2FreeBatch batch => exact counted.l2FreeBatch allowed.2
  case mallocLarge size alignment contiguous => exact counted.mallocLarge allowed.2 sound
  case freeLarge g => exact counted.freeLarge allowed.1 allowed.2
  case allocHugePage N => exact counted.allocHugePage allowed
  case freeHugePage | earlyFreePage => exact counted.freePageRange allowed.1 allowed.2
  case earlyAllocPage => exact counted.earlyAllocPage sound
  case store g addr v =>
    obtain ⟨F, inv, memory⟩ := counted
    obtain ⟨mem, inside, word⟩ := allowed
    exact ⟨F, inv.stored mem inside word, memory⟩

/-- **`stats::free()` is the size of the free ranges whenever the lock is free**, in every
run whose sections count what they take. -/
theorem counted_of_sound_run {w : World} (reached : Reachable World.Initial (Step Sound) w) :
    w.alloc.freeMemory = w.alloc.freeBytes := by
  have counted : w.Counted := by
    refine Reachable.invariant (I := World.Counted) ?_ ?_ reached
    · rintro w ⟨mem, rfl⟩
      exact ⟨∅, World.inv_initial mem, rfl⟩
    · intro w w' _ counted taken
      exact taken.counted counted
  obtain ⟨F, inv, memory⟩ := counted
  rw [memory, inv.core.bare.rep.freeBytes]

/-! ## Near exhaustion -/

def emptyWorld : World := ⟨initial fun _ => 0, ∅, ∅⟩

theorem fourPages_isSome : (emptyWorld.freeInitialMemoryRange 4096 16384).isSome = true := by
  decide +kernel

def fourPages : World := (emptyWorld.freeInitialMemoryRange 4096 16384).get fourPages_isSome

theorem fourPages_reached (ok : Section → World → Prop)
    (adds : ok (.freeInitialMemoryRange 4096 16384) emptyWorld) :
    Reachable World.Initial (Step ok) fourPages := by
  refine Reachable.next (.start ⟨fun _ => 0, rfl⟩)
    ⟨.freeInitialMemoryRange 4096 16384, ⟨by decide, ?_⟩, adds, ?_⟩
  · intro a mem
    exact absurd mem (Finset.notMem_empty a)
  · exact (some_get fourPages_isSome).symm

/-- A page taken from the three that are free. -/
theorem fourPages_early_counted :
    fourPages.earlyAllocPage.2.alloc.freeMemory = fourPages.earlyAllocPage.2.alloc.freeBytes :=
  counted_of_sound_run ((fourPages_reached Sound trivial).next
    ⟨.earlyAllocPage, trivial, by show fourPages.alloc.freeRanges ≠ []; decide +kernel, rfl⟩)

/-- With three pages left `l2::refill` counts 32, and with none left `early_alloc_page`
counts one. -/
theorem uncounted_near_exhaustion :
    (Reachable World.Initial (Step fun _ _ => True) fourPages.l2Refill.2 ∧
      fourPages.l2Refill.2.alloc.freeMemory ≠ fourPages.l2Refill.2.alloc.freeBytes) ∧
    Reachable World.Initial (Step fun _ _ => True) emptyWorld.earlyAllocPage.2 ∧
      emptyWorld.earlyAllocPage.2.alloc.freeMemory ≠ emptyWorld.earlyAllocPage.2.alloc.freeBytes := by
  refine ⟨⟨(fourPages_reached _ trivial).next ⟨.l2Refill, trivial, trivial, rfl⟩, ?_⟩,
    Reachable.next (.start ⟨fun _ => 0, rfl⟩) ⟨.earlyAllocPage, trivial, trivial, rfl⟩, ?_⟩ <;> decide +kernel

end MiniOsv.Mempool
