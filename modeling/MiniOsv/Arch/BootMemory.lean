/-
# Arch.BootMemory -- handing the boot memory map over to the page allocator

`arch_setup_free_memory` goes through the usable ranges of the boot memory map more than
once, because only low memory is mapped at first: it frees what is mapped, maps the rest
and frees that.  The kernel image lies somewhere in between and must not be freed.  The
two ports cut the ranges in their own ways.

What a port does is the list of its calls (`Action`).  `HandedOver` is what the list must
amount to: every byte of the usable ranges that is not in the image is freed once and no
other byte is, no size has wrapped around, and nothing above the initial mapping is freed
before it is mapped.
-/
import Mathlib.Algebra.Order.Ring.Int
import Mathlib.Data.List.Basic

namespace MiniOsv.Arch

open List Nat

abbrev U64 := BitVec 64

structure MemRange where
  addr : U64
  size : U64
  deriving DecidableEq

open MemRange

inductive BootMemType where
  | usable
  | reserved
  deriving DecidableEq

structure BootMemmapEntry where
  addr : U64
  size : U64
  type : BootMemType

/-- `identity_mapped_areas`, and the windows of the kernel and of a device. -/
inductive Window where
  | main
  | page
  | mempool
  | kernel
  | device
  deriving DecidableEq

def identityMappedAreas : List Window := [.main, .page, .mempool]

/-- The calls into the memory management. -/
inductive Action where
  /-- `free_initial_memory_range(addr, size)`. -/
  | free (r : MemRange)
  /-- `linear_map` of a physical range. -/
  | linearMap (window : Window) (r : MemRange)
  | switchToRuntimePageTables
  deriving DecidableEq

/-! ## x64 -/

def intersects (ent : MemRange) (a : U64) : Bool :=
  decide (a > ent.addr) && decide (a < ent.addr + ent.size)

def truncateBelow (ent : MemRange) (a : U64) : MemRange :=
  let delta := a - ent.addr
  ⟨ent.addr + delta, ent.size - delta⟩

def truncateAbove (ent : MemRange) (a : U64) : MemRange :=
  let delta := ent.addr + ent.size - a
  ⟨ent.addr, ent.size - delta⟩

namespace X64

/-- 1 GiB is mapped by the startup code. -/
def initialMap : U64 := 0x40000000

/-- `for_each_usable_range` over the snapshot, which has 512 places. -/
def usableRanges (memmap : List BootMemmapEntry) : List MemRange :=
  ((memmap.take 512).filter fun e => e.type = .usable).map fun e => ⟨e.addr, e.size⟩

/-- The second pass: what lies behind the kernel and is mapped. -/
def freeLow (edataPhys : U64) (ent : MemRange) : List Action :=
  if ent.addr + ent.size ≤ edataPhys then []
  else
    let ent := if intersects ent edataPhys then truncateBelow ent edataPhys else ent
    if intersects ent initialMap then [.free (truncateAbove ent initialMap)]
    else if ent.addr ≥ initialMap then []
    else [.free ent]

/-- The end of the last pass: what lies above the initial mapping. -/
def mapAndFree (ent : MemRange) : List Action :=
  if ent.addr + ent.size ≤ initialMap then []
  else
    let ent := if intersects ent initialMap then truncateBelow ent initialMap else ent
    identityMappedAreas.map (.linearMap · ent) ++ [.free ent]

def entBelowKernel (elfPhysStart : U64) (ent : MemRange) : MemRange :=
  if ent.addr + ent.size ≥ elfPhysStart then truncateAbove ent elfPhysStart else ent

/-- The last pass: what lies below the kernel, and what was not mapped before. -/
def freeRest (elfPhysStart : U64) (ent : MemRange) : List Action :=
  if ent.addr < elfPhysStart then
    if ent.addr + ent.size ≤ elfPhysStart then [.free (entBelowKernel elfPhysStart ent)]
    else .free (entBelowKernel elfPhysStart ent) :: mapAndFree ent
  else mapAndFree ent

def archSetupFreeMemory (memmap : List BootMemmapEntry) (elfPhysStart edataPhys : U64) :
    List Action :=
  (usableRanges memmap).flatMap (freeLow edataPhys) ++
    (identityMappedAreas.map (.linearMap · ⟨0, initialMap⟩) ++
      [.linearMap .kernel ⟨elfPhysStart, edataPhys - elfPhysStart⟩, .switchToRuntimePageTables] ++
      (usableRanges memmap).flatMap (freeRest elfPhysStart))

end X64

/-! ## aarch64 -/

namespace Aarch64

/-- 4 GiB are mapped by `boot.S`. -/
def initialMap : U64 := 0x100000000

def hugePageSize : U64 := 0x200000

/-- `snapshot_usable_ranges`: the first 512 usable entries. -/
def snapshotUsableRanges (memmap : List BootMemmapEntry) : List MemRange :=
  ((memmap.filter fun e => e.type = .usable).take 512).map fun e => ⟨e.addr, e.size⟩

def memAddr (kernelPhysBase : U64) : U64 := kernelPhysBase &&& ~~~(0x200000 - 1)

def freeUsable (rstart rend lo hi kstart kend : U64) : List Action :=
  let s := if rstart < lo then lo else rstart
  let e := if rend > hi then hi else rend
  if s ≥ e then []
  else if e ≤ kstart ∨ s ≥ kend then [.free ⟨s, e - s⟩]
  else
    (if s < kstart then [.free ⟨s, kstart - s⟩] else []) ++
      if e > kend then [.free ⟨kend, e - kend⟩] else []

/-- A range rounded out to huge pages. -/
def roundOut (r : MemRange) : MemRange :=
  let rend := r.addr + r.size
  let mstart := r.addr &&& ~~~(hugePageSize - 1)
  let mend := (rend + hugePageSize - 1) &&& ~~~(hugePageSize - 1)
  ⟨mstart, mend - mstart⟩

/-- The loops of steps 1 and 3. -/
def freeRanges (ranges : List MemRange) (lo hi kernelStart kernelEnd : U64) : List Action :=
  ranges.flatMap fun r => freeUsable r.addr (r.addr + r.size) lo hi kernelStart kernelEnd

/-- Step 2 up to the switch; `uart` is the base of an active PL011 console. -/
def mappings (ranges : List MemRange) (kernelStart kernelEnd : U64) (uart : Option U64) :
    List Action :=
  (identityMappedAreas.flatMap fun area => ranges.map fun r => .linearMap area (roundOut r)) ++
    (.linearMap .kernel ⟨kernelStart, kernelEnd - kernelStart⟩ ::
      (uart.toList.map (.linearMap .device ⟨·, 0x1000⟩) ++ [.switchToRuntimePageTables]))

/-- `uefi_memory_setup` stops without usable memory (`none`). -/
def archSetupFreeMemory (memmap : List BootMemmapEntry) (kernelPhysBase elfHeader elfSize : U64)
    (uart : Option U64) : Option (List Action) :=
  let ranges := snapshotUsableRanges memmap
  let kernelStart := memAddr kernelPhysBase
  let kernelEnd := elfHeader + elfSize
  if ranges.isEmpty then none
  else
    some (freeRanges ranges 0 initialMap kernelStart kernelEnd ++
      (mappings ranges kernelStart kernelEnd uart ++
        freeRanges ranges initialMap (~~~0) kernelStart kernelEnd))

end Aarch64

/-! ## What is asked -/

namespace MemRange

/-- Byte `b` is in the range; the end is not cut at 2^64. -/
def Holds (r : MemRange) (b : ℕ) : Prop := r.addr.toNat ≤ b ∧ b < r.addr.toNat + r.size.toNat

instance (r : MemRange) (b : ℕ) : Decidable (r.Holds b) := by
  unfold Holds
  infer_instance

/-- Not empty, and the end is an address. -/
def Valid (r : MemRange) : Prop := 0 < r.size.toNat ∧ r.addr.toNat + r.size.toNat < 2 ^ 64

def Apart (r q : MemRange) : Prop := ∀ b, r.Holds b → ¬ q.Holds b

end MemRange

def usable (memmap : List BootMemmapEntry) : List MemRange :=
  (memmap.filter fun e => e.type = .usable).map fun e => ⟨e.addr, e.size⟩

def Action.frees (b : ℕ) : Action → Bool
  | .free r => r.Holds b
  | _ => false

def passes (trace : List Action) (b : ℕ) : ℕ := trace.countP (Action.frees b)

/-- The calls free exactly the bytes of `part`, each once and in proper ranges. -/
structure Frees (part : ℕ → Prop) (trace : List Action) : Prop where
  once : ∀ b, part b → passes trace b = 1
  never : ∀ b, ¬ part b → passes trace b = 0
  sizes : ∀ r, .free r ∈ trace → r.Valid

open Frees

/-- What `r` has at or above `limit` is mapped in each area by one of the calls `before`. -/
def Covered (limit : ℕ) (before : List Action) (r : MemRange) : Prop :=
  ∀ b, r.Holds b → limit ≤ b → ∀ area ∈ identityMappedAreas,
    ∃ m, .linearMap area m ∈ before ∧ m.Holds b

/-- After the calls `before`, `trace` frees nothing at or above `limit` that is not mapped. -/
def MapsFirst (limit : ℕ) : List Action → List Action → Prop
  | _, [] => True
  | before, a :: rest =>
    (∀ r, a = .free r → Covered limit before r) ∧ MapsFirst limit (a :: before) rest

/-- **The hand-over** of the usable ranges without the image `[start, stop)`. -/
structure HandedOver (ranges : List MemRange) (start stop limit : ℕ) (trace : List Action) :
    Prop where
  freed : Frees (fun b => (∃ r ∈ ranges, r.Holds b) ∧ ¬ (start ≤ b ∧ b < stop)) trace
  mapped : MapsFirst limit [] trace

/-! ## Traces -/

namespace Frees

theorem congr {part part' : ℕ → Prop} {trace : List Action} (same : ∀ b, part b ↔ part' b)
    (frees : Frees part trace) : Frees part' trace :=
  ⟨fun b inside => frees.once b ((same b).mpr inside),
    fun b outside => frees.never b fun inside => outside ((same b).mp inside), frees.sizes⟩

/-- Calls that free nothing. -/
theorem silent {trace : List Action} (none : ∀ r, .free r ∉ trace) :
    Frees (fun _ => False) trace := by
  refine ⟨fun b inside => inside.elim, fun b _ => ?_, fun r mem => absurd mem (none r)⟩
  rw [passes, countP_eq_zero]
  intro a mem
  cases a with
  | free r => exact absurd mem (none r)
  | linearMap window r => exact Bool.false_ne_true
  | switchToRuntimePageTables => exact Bool.false_ne_true

theorem nothing {part : ℕ → Prop} (empty : ∀ b, ¬ part b) : Frees part [] :=
  (silent fun _ mem => absurd mem not_mem_nil).congr fun b =>
    ⟨False.elim, fun inside => empty b inside⟩

theorem single {r : MemRange} (valid : r.Valid) : Frees r.Holds [.free r] := by
  refine ⟨fun b inside => ?_, fun b outside => ?_, fun q mem => ?_⟩
  · simp [passes, Action.frees, inside]
  · simp [passes, Action.frees, outside]
  · obtain rfl : q = r := by simpa using mem
    exact valid

theorem append {part part' : ℕ → Prop} {xs ys : List Action} (first : Frees part xs)
    (second : Frees part' ys) (apart : ∀ b, part b → ¬ part' b) :
    Frees (fun b => part b ∨ part' b) (xs ++ ys) := by
  have sum : ∀ b, passes (xs ++ ys) b = passes xs b + passes ys b :=
    fun b => countP_append
  refine ⟨fun b inside => ?_, fun b outside => ?_, fun r mem => ?_⟩
  · rw [sum]
    rcases inside with inside | inside
    · rw [first.once b inside, second.never b (apart b inside)]
    · rw [first.never b fun other => apart b other inside, second.once b inside]
  · rw [sum, first.never b fun inside => outside (.inl inside),
      second.never b fun inside => outside (.inr inside)]
  · rcases mem_append.mp mem with mem | mem
    · exact first.sizes r mem
    · exact second.sizes r mem

/-- A freed range lies in the part. -/
theorem mem {part : ℕ → Prop} {trace : List Action} {r : MemRange} {b : ℕ}
    (frees : Frees part trace) (mem : .free r ∈ trace) (holds : r.Holds b) : part b := by
  by_contra outside
  have none := frees.never b outside
  rw [passes, countP_eq_zero] at none
  exact none _ mem (by simpa [Action.frees] using holds)

/-- **One pass**: every range frees its own share, and the ranges are apart. -/
theorem flatMap {part : ℕ → Prop} {f : MemRange → List Action} :
    ∀ {ranges : List MemRange}, ranges.Pairwise Apart →
      (∀ r ∈ ranges, Frees (fun b => r.Holds b ∧ part b) (f r)) →
      Frees (fun b => (∃ r ∈ ranges, r.Holds b) ∧ part b) (ranges.flatMap f)
  | [], _, _ => nothing (by simp)
  | r :: rest, apart, each => by
      rw [pairwise_cons] at apart
      have tail := flatMap apart.2 fun q mem => each q (mem_cons_of_mem _ mem)
      refine ((each r mem_cons_self).append tail ?_).congr fun b => ?_
      · rintro b ⟨here, _⟩ ⟨⟨q, mem, there⟩, _⟩
        exact apart.1 q mem b here there
      · simp only [exists_mem_cons_iff]
        tauto

end Frees

variable {r : MemRange}

theorem Covered.mono {limit : ℕ} {before before' : List Action}
    (sub : before ⊆ before') (covered : Covered limit before r) : Covered limit before' r := by
  intro b holds high area mem
  obtain ⟨m, mapped, inside⟩ := covered b holds high area mem
  exact ⟨m, sub mapped, inside⟩

namespace MapsFirst

variable {limit : ℕ}

theorem of_covered : ∀ {before trace : List Action},
    (∀ r, .free r ∈ trace → Covered limit before r) → MapsFirst limit before trace
  | _, [], _ => trivial
  | _, a :: rest, covered => by
      refine ⟨fun r here => covered r (here ▸ mem_cons_self), of_covered fun r mem => ?_⟩
      exact (covered r (mem_cons_of_mem _ mem)).mono (subset_cons_self _ _)

theorem mono : ∀ {before before' trace : List Action}, before ⊆ before' →
    MapsFirst limit before trace → MapsFirst limit before' trace
  | _, _, [], _, _ => trivial
  | _, _, a :: _, sub, maps =>
    ⟨fun r here => (maps.1 r here).mono sub, mono (cons_subset_cons a sub) maps.2⟩

theorem append : ∀ {before xs ys : List Action}, MapsFirst limit before xs →
    MapsFirst limit (xs ++ before) ys → MapsFirst limit before (xs ++ ys)
  | _, [], _, _, second => second
  | before, a :: xs, _, first, second => by
      refine ⟨first.1, append first.2 (second.mono ?_)⟩
      intro c mem
      simp only [mem_append, mem_cons] at mem ⊢
      tauto

theorem flatMap {f : MemRange → List Action} : ∀ {before : List Action} {ranges : List MemRange},
    (∀ r ∈ ranges, MapsFirst limit before (f r)) → MapsFirst limit before (ranges.flatMap f)
  | _, [], _ => trivial
  | before, r :: rest, each => by
      have tail : MapsFirst limit before (rest.flatMap f) :=
        flatMap fun q mem => each q (mem_cons_of_mem _ mem)
      exact (each r mem_cons_self).append (tail.mono (subset_append_right _ _))

end MapsFirst

/-- Low memory needs no mapping. -/
theorem Covered.low {limit : ℕ} {before : List Action}
    (low : ∀ b, r.Holds b → b < limit) : Covered limit before r :=
  fun b holds high => absurd (low b holds) (not_lt.mpr high)

/-! ## Cutting ranges -/

section

variable (valid : r.Valid)

include valid

theorem MemRange.Valid.stop : (r.addr + r.size).toNat = r.addr.toNat + r.size.toNat := by
  rw [BitVec.toNat_add, mod_eq_of_lt valid.2]

theorem intersects_iff (a : U64) :
    intersects r a = true ↔ r.addr.toNat < a.toNat ∧ a.toNat < r.addr.toNat + r.size.toNat := by
  simp only [intersects, Bool.and_eq_true, decide_eq_true_eq, gt_iff_lt, BitVec.lt_def, valid.stop]

omit valid in
theorem truncateBelow_spec {a : U64}
    (begins : r.addr.toNat ≤ a.toNat) (ends : a.toNat < r.addr.toNat + r.size.toNat) :
    (truncateBelow r a).addr = a ∧
      (truncateBelow r a).size.toNat = r.addr.toNat + r.size.toNat - a.toNat := by
  refine ⟨by simp only [truncateBelow]; bv_omega, ?_⟩
  simp only [truncateBelow, BitVec.toNat_sub]
  omega

theorem truncateAbove_spec {a : U64} (begins : r.addr.toNat < a.toNat) :
    (truncateAbove r a).addr = r.addr ∧
      (truncateAbove r a).size.toNat = a.toNat - r.addr.toNat := by
  have stop := valid.stop
  refine ⟨rfl, ?_⟩
  simp only [truncateAbove, BitVec.toNat_sub, stop]
  omega

/-- The range from `a` on, cut as both passes of the x64 port cut it. -/
theorem clip_below {a : U64} (ends : a.toNat < r.addr.toNat + r.size.toNat) :
    (if intersects r a then truncateBelow r a else r).Valid ∧
      ∀ b, (if intersects r a then truncateBelow r a else r).Holds b ↔ r.Holds b ∧ a.toNat ≤ b := by
  by_cases cut : intersects r a = true
  · have inside := (intersects_iff valid a).mp cut
    obtain ⟨addr, size⟩ := truncateBelow_spec (le_of_lt inside.1) ends
    obtain ⟨_, bound⟩ := valid
    rw [if_pos cut]
    simp only [Valid, Holds, addr, size]
    exact ⟨by omega, fun b => by omega⟩
  · have outside := mt (intersects_iff valid a).mpr cut
    rw [if_neg cut]
    refine ⟨valid, fun b => ?_⟩
    simp only [Holds]
    omega

end

/-! ## The x64 port -/

namespace X64

theorem initialMap_toNat : initialMap.toNat = 2 ^ 30 := rfl

variable {r : MemRange}

/-- The second pass frees the share between the end of the kernel and the initial limit. -/
theorem freeLow_frees {edataPhys : U64} (valid : r.Valid) :
    Frees (fun b => r.Holds b ∧ edataPhys.toNat ≤ b ∧ b < 2 ^ 30) (freeLow edataPhys r) := by
  unfold freeLow
  dsimp only
  split
  case isTrue short =>
    rw [BitVec.le_def, valid.stop] at short
    refine nothing fun b => ?_
    simp only [Holds]
    omega
  case isFalse long =>
    rw [BitVec.le_def, valid.stop, not_le] at long
    obtain ⟨valid', holds⟩ := clip_below valid long
    generalize (if intersects r edataPhys then truncateBelow r edataPhys else r) = q
      at valid' holds ⊢
    split
    case isTrue cut =>
      have inside := (intersects_iff valid' initialMap).mp cut
      obtain ⟨addr, size⟩ := truncateAbove_spec valid' inside.1
      rw [initialMap_toNat] at inside size
      refine (single ?_).congr fun b => ?_
      · simp only [Valid, addr, size]
        omega
      · rw [← and_assoc, ← holds b]
        simp only [Holds, addr, size]
        omega
    case isFalse uncut =>
      rw [intersects_iff valid', initialMap_toNat] at uncut
      split
      case isTrue high =>
        rw [ge_iff_le, BitVec.le_def, initialMap_toNat] at high
        refine nothing fun b => ?_
        rw [← and_assoc, ← holds b]
        simp only [Holds]
        omega
      case isFalse low =>
        rw [ge_iff_le, BitVec.le_def, initialMap_toNat] at low
        refine (single valid').congr fun b => ?_
        rw [← and_assoc, ← holds b]
        simp only [Holds]
        omega

/-- The end of the last pass frees the share above the initial limit. -/
theorem mapAndFree_frees (valid : r.Valid) :
    Frees (fun b => r.Holds b ∧ 2 ^ 30 ≤ b) (mapAndFree r) := by
  unfold mapAndFree
  dsimp only
  split
  case isTrue short =>
    rw [BitVec.le_def, valid.stop, initialMap_toNat] at short
    refine nothing fun b => ?_
    simp only [Holds]
    omega
  case isFalse long =>
    rw [BitVec.le_def, valid.stop, not_le] at long
    obtain ⟨valid', holds⟩ := clip_below valid long
    generalize (if intersects r initialMap then truncateBelow r initialMap else r) = q
      at valid' holds ⊢
    refine ((silent ?_).append (single valid') fun b none => none.elim).congr
      fun b => ?_
    · intro r mem
      simp [identityMappedAreas] at mem
    · rw [false_or, holds b, initialMap_toNat]

/-- It maps that share before. -/
theorem mapAndFree_maps (r : MemRange) (before : List Action) :
    MapsFirst (2 ^ 30) before (mapAndFree r) := by
  unfold mapAndFree
  dsimp only
  split
  · trivial
  · refine MapsFirst.append (MapsFirst.of_covered fun q mem => ?_)
      (MapsFirst.of_covered fun q mem => ?_)
    · simp [identityMappedAreas] at mem
    · intro b holds high area inside
      obtain rfl : q = _ := by simpa using mem
      exact ⟨_, mem_append_left _ (mem_map.mpr ⟨area, inside, rfl⟩), holds⟩

theorem entBelowKernel_spec {elfPhysStart : U64} (valid : r.Valid)
    (begins : r.addr.toNat < elfPhysStart.toNat) :
    (entBelowKernel elfPhysStart r).Valid ∧
      ∀ b, (entBelowKernel elfPhysStart r).Holds b ↔ r.Holds b ∧ b < elfPhysStart.toNat := by
  unfold entBelowKernel
  split
  case isTrue reaches =>
    rw [ge_iff_le, BitVec.le_def, valid.stop] at reaches
    obtain ⟨addr, size⟩ := truncateAbove_spec valid begins
    simp only [Valid, Holds, addr, size]
    exact ⟨by omega, fun b => by omega⟩
  case isFalse short =>
    rw [ge_iff_le, BitVec.le_def, valid.stop] at short
    refine ⟨valid, fun b => ?_⟩
    simp only [Holds]
    omega

/-- The last pass frees the shares below the kernel and above the initial limit. -/
theorem freeRest_frees {elfPhysStart : U64} (valid : r.Valid)
    (image : elfPhysStart.toNat ≤ 2 ^ 30) :
    Frees (fun b => r.Holds b ∧ (b < elfPhysStart.toNat ∨ 2 ^ 30 ≤ b))
      (freeRest elfPhysStart r) := by
  unfold freeRest
  split
  case isTrue begins =>
    rw [BitVec.lt_def] at begins
    obtain ⟨valid', holds⟩ := entBelowKernel_spec valid begins
    split
    case isTrue short =>
      rw [BitVec.le_def, valid.stop] at short
      refine (single valid').congr fun b => ?_
      rw [holds b]
      simp only [Holds]
      omega
    case isFalse long =>
      have both := (single valid').append (mapAndFree_frees valid) fun b low high => by
        have := (holds b).mp low
        omega
      refine both.congr fun b => ?_
      rw [holds b]
      tauto
  case isFalse begins =>
    rw [BitVec.lt_def] at begins
    refine (mapAndFree_frees valid).congr fun b => ?_
    simp only [Holds]
    omega

theorem freeRest_maps {elfPhysStart : U64} (valid : r.Valid) (image : elfPhysStart.toNat ≤ 2 ^ 30)
    (before : List Action) : MapsFirst (2 ^ 30) before (freeRest elfPhysStart r) := by
  unfold freeRest
  split
  case isTrue begins =>
    rw [BitVec.lt_def] at begins
    have low : Covered (2 ^ 30) before (entBelowKernel elfPhysStart r) := by
      refine Covered.low fun b holds => ?_
      have := ((entBelowKernel_spec valid begins).2 b).mp holds
      omega
    split
    · exact ⟨fun q here => (Action.free.inj here) ▸ low, trivial⟩
    · exact ⟨fun q here => (Action.free.inj here) ▸ low, mapAndFree_maps r _⟩
  case isFalse => exact mapAndFree_maps r before

/-- **The x64 port hands over** every map that fits the snapshot. -/
theorem handedOver (memmap : List BootMemmapEntry)
    (elfPhysStart edataPhys : U64) (fits : memmap.length ≤ 512)
    (valid : ∀ r ∈ usable memmap, r.Valid) (apart : (usable memmap).Pairwise Apart)
    (image : elfPhysStart.toNat ≤ edataPhys.toNat) (low : edataPhys.toNat ≤ 2 ^ 30) :
    HandedOver (usable memmap) elfPhysStart.toNat edataPhys.toNat (2 ^ 30)
      (archSetupFreeMemory memmap elfPhysStart edataPhys) := by
  have ranges : usableRanges memmap = usable memmap := by
    rw [usableRanges, usable, take_of_length_le fits]
  have elf : elfPhysStart.toNat ≤ 2 ^ 30 := le_trans image low
  have early : Frees _ ((usable memmap).flatMap (freeLow edataPhys)) :=
    flatMap apart fun r mem => freeLow_frees (valid r mem)
  have late : Frees _ ((usable memmap).flatMap (freeRest elfPhysStart)) :=
    flatMap apart fun r mem => freeRest_frees (valid r mem) elf
  unfold archSetupFreeMemory
  rw [ranges]
  constructor
  · have maps : Frees _ (identityMappedAreas.map (Action.linearMap · ⟨0, initialMap⟩) ++
        [.linearMap .kernel ⟨elfPhysStart, edataPhys - elfPhysStart⟩,
          .switchToRuntimePageTables]) := silent (by simp [identityMappedAreas])
    refine (early.append (maps.append late fun b none => none.elim) ?_).congr fun b => ?_
    · rintro b ⟨_, kept⟩ (none | ⟨_, rest⟩)
      · exact none
      · omega
    · simp only [false_or, ← and_or_left]
      refine and_congr_right fun _ => ?_
      omega
  · refine MapsFirst.append (MapsFirst.of_covered fun r mem => Covered.low fun b holds => ?_) ?_
    · exact (early.mem mem holds).2.2
    · refine MapsFirst.append (MapsFirst.of_covered fun r mem => ?_) ?_
      · simp [identityMappedAreas] at mem
      · exact MapsFirst.flatMap fun r mem => freeRest_maps (valid r mem) elf _

end X64

/-! ## The aarch64 port -/

namespace Aarch64

theorem initialMap_toNat : initialMap.toNat = 2 ^ 32 := rfl

theorem interval_frees {s e : U64} (order : s.toNat < e.toNat) :
    Frees (fun b => s.toNat ≤ b ∧ b < e.toNat) [.free ⟨s, e - s⟩] := by
  have size : (e - s).toNat = e.toNat - s.toNat := by
    rw [BitVec.toNat_sub_of_le]
    exact BitVec.le_def.mpr (le_of_lt order)
  refine (single ?_).congr fun b => ?_
  · simp only [Valid, size]
    omega
  · simp only [Holds, size]
    omega

/-- A piece of an interval that is freed only if it is not empty. -/
theorem piece_frees {s e : U64} :
    Frees (fun b => s.toNat ≤ b ∧ b < e.toNat) (if s < e then [.free ⟨s, e - s⟩] else []) := by
  split
  case isTrue order => exact interval_frees (BitVec.lt_def.mp order)
  case isFalse order =>
    rw [BitVec.lt_def] at order
    exact nothing fun b => by omega

/-- `free_usable` frees the share of `[rstart, rend)` in the window and outside the kernel. -/
theorem freeUsable_frees {rstart rend lo hi kstart kend : U64}
    (image : kstart.toNat ≤ kend.toNat) :
    Frees (fun b => (rstart.toNat ≤ b ∧ b < rend.toNat) ∧ (lo.toNat ≤ b ∧ b < hi.toNat) ∧
        ¬ (kstart.toNat ≤ b ∧ b < kend.toNat))
      (freeUsable rstart rend lo hi kstart kend) := by
  have begins : (if rstart < lo then lo else rstart).toNat = max rstart.toNat lo.toNat := by
    split <;> rename_i order <;> rw [BitVec.lt_def] at order <;> omega
  have ends : (if rend > hi then hi else rend).toNat = min rend.toNat hi.toNat := by
    split <;> rename_i order <;> rw [gt_iff_lt, BitVec.lt_def] at order <;> omega
  unfold freeUsable
  dsimp only
  generalize (if rstart < lo then lo else rstart) = s at begins ⊢
  generalize (if rend > hi then hi else rend) = e at ends ⊢
  have window : ∀ b, ((rstart.toNat ≤ b ∧ b < rend.toNat) ∧ (lo.toNat ≤ b ∧ b < hi.toNat) ∧
      ¬ (kstart.toNat ≤ b ∧ b < kend.toNat)) ↔
      (s.toNat ≤ b ∧ b < e.toNat) ∧ ¬ (kstart.toNat ≤ b ∧ b < kend.toNat) := fun b => by
    rw [← and_assoc, begins, ends, Nat.max_le, Nat.lt_min]
    tauto
  clear begins ends
  split
  case isTrue empty =>
    rw [ge_iff_le, BitVec.le_def] at empty
    exact (nothing fun b => by omega).congr fun b => (window b).symm
  case isFalse order =>
    rw [ge_iff_le, BitVec.le_def, not_le] at order
    split
    case isTrue outside =>
      rw [ge_iff_le, BitVec.le_def, BitVec.le_def] at outside
      refine (interval_frees order).congr fun b => ?_
      rw [window]
      omega
    case isFalse overlap =>
      rw [ge_iff_le, BitVec.le_def, BitVec.le_def] at overlap
      refine (piece_frees.append piece_frees fun b below above => ?_).congr fun b => ?_
      · omega
      · rw [window]
        omega

theorem clearLow_toNat (x : U64) :
    (x &&& ~~~(hugePageSize - 1)).toNat = x.toNat / 2 ^ 21 * 2 ^ 21 := by
  have mask : hugePageSize - 1 = BitVec.ofNat 64 (2 ^ 21 - 1) := rfl
  have shifts : x &&& ~~~(hugePageSize - 1) = (x >>> 21) <<< 21 := by
    rw [mask]
    ext i bound
    rw [BitVec.getElem_and, BitVec.getElem_not, BitVec.getElem_shiftLeft,
      ← BitVec.getLsbD_eq_getElem bound, ← BitVec.getLsbD_eq_getElem bound, BitVec.getLsbD_ofNat,
      testBit_two_pow_sub_one]
    by_cases low : i < 21
    · simp [low, bound]
    · simp [low, bound, Nat.add_sub_cancel' (Nat.not_lt.mp low)]
  rw [shifts, BitVec.toNat_shiftLeft, BitVec.toNat_ushiftRight, Nat.shiftRight_eq_div_pow,
    Nat.shiftLeft_eq, Nat.mod_eq_of_lt]
  omega

/-- A range from the first huge page into the last one is rounded out to nothing. -/
def SpansSpace (r : MemRange) : Prop :=
  r.addr.toNat < 2 ^ 21 ∧ 2 ^ 64 - 2 ^ 21 < r.addr.toNat + r.size.toNat

theorem lastByte_toNat {r : MemRange} (valid : r.Valid) :
    (r.addr + r.size + hugePageSize - 1).toNat =
      (r.addr.toNat + r.size.toNat + (2 ^ 21 - 1)) % 2 ^ 64 := by
  have step : hugePageSize + -1 = BitVec.ofNat 64 (2 ^ 21 - 1) := rfl
  rw [BitVec.sub_eq_add_neg, BitVec.add_assoc, step, BitVec.toNat_add, valid.stop,
    BitVec.toNat_ofNat, add_mod_mod]

theorem roundOut_toNat {r : MemRange} (valid : r.Valid) :
    (roundOut r).addr.toNat = r.addr.toNat / 2 ^ 21 * 2 ^ 21 ∧
      (roundOut r).size.toNat = (2 ^ 64 - r.addr.toNat / 2 ^ 21 * 2 ^ 21 +
        (r.addr.toNat + r.size.toNat + (2 ^ 21 - 1)) % 2 ^ 64 / 2 ^ 21 * 2 ^ 21) % 2 ^ 64 := by
  refine ⟨clearLow_toNat _, ?_⟩
  unfold roundOut
  dsimp only
  rw [BitVec.toNat_sub, clearLow_toNat, clearLow_toNat, lastByte_toNat valid]

/-- Other ranges are kept, also where the rounded end is 2^64. -/
theorem roundOut_holds {r : MemRange} (valid : r.Valid) (small : ¬ SpansSpace r) {b : ℕ}
    (holds : r.Holds b) : (roundOut r).Holds b := by
  obtain ⟨addr, size⟩ := roundOut_toNat valid
  obtain ⟨filled, bound⟩ := valid
  unfold SpansSpace at small
  unfold Holds at holds ⊢
  rw [addr, size]
  generalize r.addr.toNat = a at *
  generalize r.size.toNat = n at *
  by_cases room : a + n + (2 ^ 21 - 1) < 2 ^ 64
  · have order : a / 2 ^ 21 * 2 ^ 21 ≤ (a + n + (2 ^ 21 - 1)) / 2 ^ 21 * 2 ^ 21 := by omega
    rw [mod_eq_of_lt room]
    omega
  · have wrapped : (a + n + (2 ^ 21 - 1)) % 2 ^ 64 / 2 ^ 21 = 0 := by omega
    rw [wrapped]
    omega

/-- A pass over all ranges frees their shares in the window. -/
theorem freeRanges_frees {ranges : List MemRange} {lo hi kstart kend : U64}
    (valid : ∀ r ∈ ranges, r.Valid) (apart : ranges.Pairwise Apart)
    (image : kstart.toNat ≤ kend.toNat) :
    Frees (fun b => (∃ r ∈ ranges, r.Holds b) ∧ (lo.toNat ≤ b ∧ b < hi.toNat) ∧
        ¬ (kstart.toNat ≤ b ∧ b < kend.toNat))
      (freeRanges ranges lo hi kstart kend) := by
  refine flatMap apart fun r mem => (freeUsable_frees image).congr fun b => ?_
  rw [(valid r mem).stop, Holds]

theorem mappings_silent (ranges : List MemRange) (kernelStart kernelEnd : U64) (uart : Option U64)
    (r : MemRange) : .free r ∉ mappings ranges kernelStart kernelEnd uart := by
  simp [mappings]

/-- **The aarch64 port hands over** every map that fits the snapshot, if no range fills
the address space. -/
theorem handedOver (memmap : List BootMemmapEntry) (kernelPhysBase elfHeader elfSize : U64)
    (uart : Option U64) (fits : (usable memmap).length ≤ 512)
    (valid : ∀ r ∈ usable memmap, r.Valid) (apart : (usable memmap).Pairwise Apart)
    (small : ∀ r ∈ usable memmap, ¬ SpansSpace r)
    (image : (memAddr kernelPhysBase).toNat ≤ (elfHeader + elfSize).toNat)
    {trace : List Action}
    (run : archSetupFreeMemory memmap kernelPhysBase elfHeader elfSize uart = some trace) :
    HandedOver (usable memmap) (memAddr kernelPhysBase).toNat (elfHeader + elfSize).toNat (2 ^ 32)
      trace := by
  have ranges : snapshotUsableRanges memmap = usable memmap := by
    rw [usable, length_map] at fits
    rw [snapshotUsableRanges, usable, take_of_length_le fits]
  have early : Frees _ (freeRanges (usable memmap) 0 initialMap _ _) :=
    freeRanges_frees valid apart image
  have late : Frees _ (freeRanges (usable memmap) initialMap (~~~0) _ _) :=
    freeRanges_frees valid apart image
  unfold archSetupFreeMemory at run
  rw [ranges] at run
  dsimp only at run
  split at run
  case isTrue => cases run
  case isFalse =>
    cases run
    have top : (~~~0 : U64).toNat = 2 ^ 64 - 1 := rfl
    rw [top, initialMap_toNat] at late
    have bottom : (0 : U64).toNat = 0 := rfl
    rw [bottom, initialMap_toNat] at early
    constructor
    · have maps := silent (mappings_silent (usable memmap) (memAddr kernelPhysBase)
        (elfHeader + elfSize) uart)
      refine (early.append (maps.append late fun b none => none.elim) ?_).congr fun b => ?_
      · rintro b ⟨_, low, _⟩ (none | ⟨_, high, _⟩)
        · exact none
        · omega
      · simp only [false_or, ← and_or_left]
        refine and_congr_right fun held => ?_
        obtain ⟨r, mem, holds⟩ := held
        have bound := (valid r mem).2
        unfold Holds at holds
        omega
    · refine MapsFirst.append (MapsFirst.of_covered fun r mem => Covered.low fun b holds => ?_) ?_
      · exact (early.mem mem holds).2.1.2
      · refine MapsFirst.append (MapsFirst.of_covered fun r mem => ?_)
          (MapsFirst.of_covered fun r mem => ?_)
        · exact absurd mem (mappings_silent _ _ _ _ r)
        · refine Covered.mono (subset_append_left _ _) fun b holds high area below => ?_
          obtain ⟨q, inside, held⟩ := (late.mem mem holds).1
          refine ⟨roundOut q, mem_append_left _ ?_,
            roundOut_holds (valid q inside) (small q inside) held⟩
          exact mem_flatMap.mpr ⟨area, below, mem_map.mpr ⟨q, inside, rfl⟩⟩

end Aarch64

/-! ## Both ports -/

/-- **Every usable byte outside the image is handed over once, and mapped before.**  The
aarch64 port rounds ranges out to huge pages, which needs the end of the address space. -/
theorem usableMemory_handedOver (memmap : List BootMemmapEntry)
    (valid : ∀ r ∈ usable memmap, r.Valid) (apart : (usable memmap).Pairwise Apart) :
    (memmap.length ≤ 512 → ∀ elfPhysStart edataPhys : U64,
      elfPhysStart.toNat ≤ edataPhys.toNat → edataPhys.toNat ≤ 2 ^ 30 →
      HandedOver (usable memmap) elfPhysStart.toNat edataPhys.toNat (2 ^ 30)
        (X64.archSetupFreeMemory memmap elfPhysStart edataPhys)) ∧
    ((usable memmap).length ≤ 512 → (∀ r ∈ usable memmap, ¬ Aarch64.SpansSpace r) →
      ∀ (kernelPhysBase elfHeader elfSize : U64) (uart : Option U64),
      (Aarch64.memAddr kernelPhysBase).toNat ≤ (elfHeader + elfSize).toNat →
      (Aarch64.archSetupFreeMemory memmap kernelPhysBase elfHeader elfSize uart = none ↔
        usable memmap = []) ∧
      ∀ trace,
        Aarch64.archSetupFreeMemory memmap kernelPhysBase elfHeader elfSize uart = some trace →
        HandedOver (usable memmap) (Aarch64.memAddr kernelPhysBase).toNat
          (elfHeader + elfSize).toNat (2 ^ 32) trace) := by
  constructor
  · intro fits elfPhysStart edataPhys image low
    exact X64.handedOver memmap elfPhysStart edataPhys fits valid apart image low
  · intro fits small kernelPhysBase elfHeader elfSize uart image
    refine ⟨by simp [Aarch64.archSetupFreeMemory, Aarch64.snapshotUsableRanges, usable],
      fun trace run => ?_⟩
    exact Aarch64.handedOver memmap _ _ _ uart fits valid apart small image run

/-- A map of 3 GiB with a reserved hole. -/
def threeGigabytes : List BootMemmapEntry :=
  [⟨0, 0xa0000, .usable⟩, ⟨0xa0000, 0x60000, .reserved⟩, ⟨0x100000, 0xbff00000, .usable⟩]

theorem threeGigabytes_handedOver :
    HandedOver (usable threeGigabytes) 0x200000 0x800000 (2 ^ 30)
      (X64.archSetupFreeMemory threeGigabytes 0x200000 0x800000) ∧
    ∃ trace, Aarch64.archSetupFreeMemory threeGigabytes 0x200000 0x280000 0x580000 none =
        some trace ∧
      HandedOver (usable threeGigabytes) 0x200000 0x800000 (2 ^ 32) trace := by
  have ranges : usable threeGigabytes = [⟨0, 0xa0000⟩, ⟨0x100000, 0xbff00000⟩] := rfl
  have valid : ∀ r ∈ usable threeGigabytes, r.Valid := by
    rw [ranges]
    simp [Valid]
  have apart : (usable threeGigabytes).Pairwise Apart := by
    rw [ranges]
    simp [Apart, Holds]
    omega
  have both := usableMemory_handedOver threeGigabytes valid apart
  have small : ∀ r ∈ usable threeGigabytes, ¬ Aarch64.SpansSpace r := by
    rw [ranges]
    simp [Aarch64.SpansSpace]
  refine ⟨both.1 (by decide) 0x200000 0x800000 (by decide) (by decide), _, rfl, ?_⟩
  exact (both.2 (by decide) small 0x200000 0x280000 0x580000 none (by decide)).2 _ rfl

/-- One range that spans the address space: the rounded size is 0, so that nothing is
mapped when the high part is freed. -/
theorem wholeSpace_not_mapped :
    ∃ trace, Aarch64.archSetupFreeMemory [⟨0, 0xfffffffffffff000, .usable⟩] 0x200000 0x280000 0x580000 none =
        some trace ∧
      (∀ r ∈ usable [⟨0, 0xfffffffffffff000, .usable⟩], r.Valid) ∧
      (usable [⟨0, 0xfffffffffffff000, .usable⟩]).Pairwise Apart ∧
      ¬ HandedOver (usable [⟨0, 0xfffffffffffff000, .usable⟩]) 0x200000 0x800000 (2 ^ 32) trace := by
  have run : Aarch64.archSetupFreeMemory [⟨0, 0xfffffffffffff000, .usable⟩] 0x200000 0x280000 0x580000 none =
      some [.free ⟨0, 0x200000⟩, .free ⟨0x800000, 0xff800000⟩, .linearMap .main ⟨0, 0⟩,
        .linearMap .page ⟨0, 0⟩, .linearMap .mempool ⟨0, 0⟩,
        .linearMap .kernel ⟨0x200000, 0x600000⟩, .switchToRuntimePageTables,
        .free ⟨0x100000000, 0xfffffffefffff000⟩] := by
    decide
  refine ⟨_, run, ?_, pairwise_singleton _ _, fun handed => ?_⟩
  · simp [usable, Valid]
  · have last := handed.mapped.2.2.2.2.2.2.2.1 _ rfl
    obtain ⟨m, mapped, holds⟩ := last (2 ^ 32) (by decide) (le_refl _) .main (by decide)
    obtain rfl : m = ⟨0, 0⟩ := by simpa using mapped
    exact absurd holds (by decide)

end MiniOsv.Arch
