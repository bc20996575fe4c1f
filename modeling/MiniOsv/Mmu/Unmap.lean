/-
# Mmu.Unmap -- unmapping is complete

The history of a page table: `populate` (of a mapping or a fault), `mprotect` and `munmap`.
All of them keep the table well formed, and in a well-formed table `munmap` leaves no leaf in
its range, hands on every frame once and changes nothing else; what is handed on is freed
(`freed_turnsTrace`, with the gather of `Mmu.TlbGather`).  What it needs is that no large
page without the valid bit lies only partly in its way: `make_pte` without permissions makes
such large pages on x64.
-/
import MiniOsv.Theory.Transition
import MiniOsv.Mmu.Advise
import MiniOsv.Mmu.TlbGather

namespace MiniOsv.Mmu

open Mempool (pageSize alignDown alignUp)
open Theory (Reachable)

open Option Function List BitVec Mmu.Arch

/-! ## The model of populate -/

/-- `populate::page`; `none` is `false`.  An entry that is not empty stays as it is: it is skipped,
or the exchange of the empty word fails.  `alloc` is `alloc_page` and `alloc_huge_page`. -/
def populatePage (arch : Arch) (perm : Perm) (alloc : ℕ → ℕ → Option Pte) (level base : ℕ)
    (pte : Pte) : Option Pte :=
  if pte ≠ 0 then some pte else (alloc level base).map fun a => arch.makeLeafPte level a perm

/-- The entries below a parent, for a walk that allocates tables; `none` when the assertion of
`next_pt_addr` fails. -/
def allocTable (arch : Arch) (level : ℕ) : Table → Option (ℕ → Table)
  | .entry pte => if pte = 0 then some fun _ => .entry 0 else openTable arch level (.entry pte)
  | .node sub => some sub

def populateVisit (arch : Arch) (perm : Perm) (alloc : ℕ → ℕ → Option Pte) (nrPageSizes : ℕ)
    (below : Table → ℕ → ℕ → ℕ → Option Table) (level vcur vend base : ℕ) (ptep : Table) :
    Option Table :=
  let vstart1 := max (vcur / pageSize * pageSize) base
  let vend1 := min (vend / pageSize * pageSize + (pageSize - 1)) (base + pageSizeLevel level - 1)
  if level < nrPageSizes ∧ vstart1 = base ∧ vend1 = base + pageSizeLevel level - 1 then
    match ptep with
    | .entry pte =>
      match populatePage arch perm alloc level base pte with
      | some pte' => some (.entry pte')
      -- Without a large page small ones are tried.
      | none => if level = 0 then some ptep else below ptep base vstart1 vend1
    | .node _ => below ptep base vstart1 vend1
  else below ptep base vstart1 vend1

def populateEntries (f : ℕ → Table → Option Table) : ℕ → ℕ → (ℕ → Table) → Option (ℕ → Table)
  | 0, _, sub => some sub
  | n + 1, idx, sub =>
    (f idx (sub idx)).bind fun e => populateEntries f n (idx + 1) (update sub idx e)

/-- `map_level` for `populate` (two page sizes) and `populate_small` (one). -/
def populateLevel (arch : Arch) (perm : Perm) (alloc : ℕ → ℕ → Option Pte) (nrPageSizes : ℕ) :
    ℕ → Table → ℕ → ℕ → ℕ → Option Table
  | 0, parent, _, _, _ => some parent
  | level + 1, parent, baseVirt, vcur, vend =>
    (allocTable arch (level + 1) parent).bind fun sub =>
      let idx := ptIndex vcur level
      let eidx := ptIndex vend level
      let base := extend47 (baseVirt + idx * pageSizeLevel level)
      (populateEntries
        (fun i => populateVisit arch perm alloc nrPageSizes
          (populateLevel arch perm alloc nrPageSizes level) level vcur vend
          (base + (i - idx) * pageSizeLevel level))
        (eidx - idx + 1) idx sub).map .node

/-- `operate_range` of `populate`. -/
def populateRange (arch : Arch) (perm : Perm) (alloc : ℕ → ℕ → Option Pte) (nrPageSizes : ℕ)
    (root : Table) (start size : ℕ) : Option Table :=
  let start := alignDown start pageSize
  let size := max (alignUp size pageSize) pageSize
  populateLevel arch perm alloc nrPageSizes 4 root 0 start (start + size - 1)

/-! ## Populated tables are well formed -/

/-- `alloc_huge_page` returns aligned frames. -/
def HugeAligned (alloc : ℕ → ℕ → Option Pte) : Prop :=
  ∀ base a, alloc 1 base = some a → ∀ j, j < 21 → a.getLsbD j = false

theorem Arch.huge_makeLeafPte (arch : Arch) {a : Pte} (perm : Perm)
    (frame : ∀ j, j < 21 → a.getLsbD j = false) : arch.Huge (arch.makeLeafPte 1 a perm) := by
  have zero : ∀ j, (0 : Pte).getLsbD j = false := fun j => by simp
  cases arch with
  | x64 =>
    have bit : ∀ j, j = 7 ∨ 12 ≤ j → j < 21 →
        (x64.makeLeafPte 1 a perm).getLsbD j = decide (j = 7) := by
      intro j place low
      simp only [makeLeafPte, setLarge, setExecutable, setWritable,
        setValid, setAddr, getLsbD_or, getLsbD_and, frame j low, zero,
        getLsbD_setBit, Nat.reduceLT]
      rcases place with rfl | high
      · have mask : (~~~x64.addrMask true).getLsbD 7 = true := by decide
        simp only [decide_true, mask]
        simp
      · simp [show j ≠ 0 by omega, show j ≠ 1 by omega, show j ≠ 2 by omega,
          show j ≠ 5 by omega, show j ≠ 6 by omega, show j ≠ 7 by omega, show j ≠ 63 by omega]
    refine ⟨?_, fun j low high => ?_⟩
    · simp only [large, bit 7 (.inl rfl) (by decide)]
      decide
    · rw [bit j (.inr low) high]
      exact decide_eq_false (by omega)
  | aarch64 =>
    have bit : ∀ j, j ≤ 1 ∨ 12 ≤ j → j < 21 →
        (aarch64.makeLeafPte 1 a perm).getLsbD j = decide (j = 0) := by
      intro j place low
      simp only [makeLeafPte, setLarge, setExecutable, setWritable,
        setValid, setAddr, getLsbD_or, getLsbD_and, frame j low, zero,
        getLsbD_setBit, Nat.reduceLT]
      rcases place with small | high
      · interval_cases j <;> simp
      · have word : (1 : Pte).getLsbD j = false ∧ (784 : Pte).getLsbD j = false := by
          interval_cases j <;> decide
        simp only [word, decide_true, if_true, Bool.or_false]
        simp [ show j ≠ 0 by omega, show j ≠ 1 by omega, show j ≠ 6 by omega,
          show j ≠ 7 by omega, show j ≠ 10 by omega, show j ≠ 53 by omega,
          show j ≠ 55 by omega]
    refine ⟨?_, fun j low high => ?_⟩
    · simp only [large, bit 0 (.inl (by decide)) (by decide),
        bit 1 (.inl (by decide)) (by decide)]
      decide
    · rw [bit j (.inr low) high]
      exact decide_eq_false (by omega)

section Populate

variable {arch : Arch} {perm : Perm} {alloc : ℕ → ℕ → Option Pte} {nr level : ℕ}

theorem populateEntries_wf {f : ℕ → Table → Option Table} {n idx : ℕ} {sub sub' : ℕ → Table}
    (step : ∀ i node node', node.Wf arch level → f i node = some node' → node'.Wf arch level)
    (wf : ∀ i, (sub i).Wf arch level) (result : populateEntries f n idx sub = some sub') :
    ∀ i, (sub' i).Wf arch level := by
  induction n generalizing idx sub with
  | zero => exact Option.some.inj result ▸ wf
  | succ n ih =>
    obtain ⟨e, first, rest⟩ := bind_eq_some_iff.1 result
    refine ih (fun i => ?_) rest
    by_cases here : i = idx
    · subst here
      rw [update_self]
      exact step i _ e (wf i) first
    · rw [update_of_ne here]
      exact wf i

theorem allocTable_wf {node : Table} {sub : ℕ → Table} (wf : node.Wf arch (level + 1))
    (result : allocTable arch (level + 1) node = some sub) : ∀ i, (sub i).Wf arch level := by
  have empty : (Table.entry 0).Wf arch level := by
    cases level with
    | zero => trivial
    | succ level => exact .inl rfl
  cases node with
  | node sub' => exact Option.some.inj result ▸ wf
  | entry pte =>
    rw [allocTable] at result
    split at result
    · exact Option.some.inj result ▸ fun _ => empty
    next there =>
      obtain ⟨rfl, -⟩ := wf.resolve_left there
      rw [openTable] at result
      split at result
      · cases result
      · split at result
        · exact Option.some.inj result ▸ fun _ => trivial
        · cases result

theorem populateVisit_wf (aligned : HugeAligned alloc) (sizes : nr ≤ 2)
    {below : Table → ℕ → ℕ → ℕ → Option Table} {vcur vend base : ℕ} {node node' : Table}
    (deep : ∀ base lo hi next, below node base lo hi = some next → next.Wf arch level)
    (wf : node.Wf arch level)
    (result : populateVisit arch perm alloc nr below level vcur vend base node = some node') :
    node'.Wf arch level := by
  simp only [populateVisit] at result
  split at result
  next full =>
    cases node with
    | node sub => exact deep _ _ _ _ result
    | entry pte =>
      simp only at result
      split at result
      next pte' page =>
        cases result
        cases level with
        | zero => trivial
        | succ level =>
          have one : level = 0 := by omega
          subst one
          rw [populatePage] at page
          split at page
          · cases page
            exact wf
          · obtain ⟨a, allocated, rfl⟩ := map_eq_some_iff.1 page
            exact .inr ⟨rfl, arch.huge_makeLeafPte perm (aligned base a allocated)⟩
      · split at result
        · exact Option.some.inj result ▸ wf
        · exact deep _ _ _ _ result
  · exact deep _ _ _ _ result

theorem populateLevel_wf (aligned : HugeAligned alloc) (sizes : nr ≤ 2) {base vcur vend : ℕ}
    {node node' : Table} (wf : node.Wf arch level)
    (result : populateLevel arch perm alloc nr level node base vcur vend = some node') :
    node'.Wf arch level := by
  induction level generalizing node node' base vcur vend with
  | zero => exact Option.some.inj result ▸ wf
  | succ level ih =>
    obtain ⟨sub, opened, result⟩ := bind_eq_some_iff.1 result
    obtain ⟨sub', entries, rfl⟩ := map_eq_some_iff.1 result
    refine populateEntries_wf (fun i node node' wf visited => ?_) (allocTable_wf wf opened) entries
    exact populateVisit_wf aligned sizes (fun _ _ _ _ deep => ih wf deep) wf visited

theorem Root.populate (aligned : HugeAligned alloc) (sizes : nr ≤ 2) {root root' : Table}
    (isRoot : Root arch root) {start size : ℕ}
    (result : populateRange arch perm alloc nr root start size = some root') : Root arch root' := by
  refine ⟨?_, populateLevel_wf aligned sizes isRoot.wf result⟩
  obtain ⟨sub, -, result⟩ := bind_eq_some_iff.1 result
  obtain ⟨sub', -, rfl⟩ := map_eq_some_iff.1 result
  exact ⟨sub', rfl⟩

end Populate

/-! ## The model of munmap -/

/-- The areas of the range, cut at its ends: what `evacuate` unpopulates. -/
def Mm.deadRanges (s : Mm) (start stop : ℕ) : List (ℕ × ℕ) :=
  (s.meeting start stop).map fun v =>
    let dead := Mm.partInside start stop v
    (dead.start, dead.stop - dead.start)

/-- The part of `munmap` that changes page tables, with the calls of `unpopulate::page`. -/
def Mm.munmapTable (arch : Arch) (s : Mm) (root : Table) (addr length : ℕ) :
    Option (Table × List PageCall) := do
  let length := alignUp length pageSize
  if ← s.ismapped addr length then
    let r ← s.sweepRange (fun _ => false) (fun _ => []) addr
      (Mempool.wrap64 (addr + alignUp length pageSize))
    some (walkTurns arch unpopulate (Mm.actedRanges r.2) root)
  else some (root, [])

/-- No large page that is not valid lies only partly in a range. -/
def Unhidden (root : Table) (turns : List (ℕ × ℕ)) : Prop :=
  ∀ turn ∈ turns, ∀ virt, In virt turn → ∀ pte, leafAt 4 root virt = some (1, pte) →
    valid pte = false → Inside turn.1 (turn.1 + turn.2 - 1) virt 1

/-- A table before any mapping. -/
structure Boot (arch : Arch) (root : Table) : Prop where
  isRoot : Root arch root
  empty : ∀ virt < upperVmaLimit, leafAt 4 root virt = none

/-- The steps of a page table.  A mapping with `MAP_POPULATE` and a page fault are `populate`; the
list of the areas may be any. -/
inductive TableStep (arch : Arch) : Table → Table → Prop
  | populate {root root' : Table} (perm : Perm) (alloc : ℕ → ℕ → Option Pte) (nr start size : ℕ)
      (aligned : HugeAligned alloc) (sizes : nr ≤ 2)
      (result : populateRange arch perm alloc nr root start size = some root') :
      TableStep arch root root'
  | protect {root : Table} (perm : Perm) (ranges : List (ℕ × ℕ))
      (whole : ∀ range ∈ ranges, Whole range.1 range.2) :
      TableStep arch root (walkTurns arch (protection arch perm) ranges root).1
  | unmap {root : Table} (s : Mm) (addr length : ℕ) (wf : s.Wf) (aligned : addr % pageSize = 0)
      (words : addr < 2 ^ 64 ∧ length < 2 ^ 63) {after : Table × List PageCall}
      (result : s.munmapTable arch root addr length = some after) : TableStep arch root after.1

/-! ## Every run -/

section Runs

variable {arch : Arch} {root : Table} {s : Mm} {addr length : ℕ}

/-- The page-aligned range of a request that is mapped. -/
theorem Mm.Wf.mappedRange (wf : s.Wf) (words : addr < 2 ^ 64 ∧ length < 2 ^ 63)
    (mapped : s.ismapped addr (alignUp length pageSize) = some true) :
    Mm.UserRange addr (addr + alignUp length pageSize) ∧ alignUp length pageSize % pageSize = 0 := by
  obtain ⟨whole, -, below⟩ := alignUp_bounds words.2
  have small := words.2
  refine ⟨ismapped_range wf ⟨words.1, ?_⟩ mapped, whole⟩
  simp only [pageSize] at below ⊢
  omega

section Parts

variable {start stop : ℕ} (wf : s.Wf) (range : Mm.UserRange start stop)

include wf range

/-- The parts of the areas in a range are whole pages. -/
theorem partInside_whole (alignedStart : start % pageSize = 0) (alignedStop : stop % pageSize = 0)
    {v : Vma} (mem : v ∈ s.meeting start stop) :
    Whole (Mm.partInside start stop v).start (Mm.partInside start stop v).size := by
  obtain ⟨listed, meets⟩ := mem_filter.1 mem
  obtain ⟨first, last⟩ := of_decide_eq_true meets
  have nonempty := range.nonempty
  have inside := range.inside
  have proper := wf.proper_of_inside listed (by omega) (by omega)
  have full := proper.nonempty
  have startAligned := proper.startAligned
  have stopAligned := proper.stopAligned
  have limit := proper.inside
  simp only [Mm.partInside, Vma.size, upperVmaLimit, pageSize] at *
  refine ⟨?_, ?_, by omega, by omega⟩ <;> simp only [pageSize] <;> omega

/-- An address is in the range exactly if it is in one of the parts, when all of it is mapped. -/
theorem partInside_covers {size : ℕ} (sized : stop = start + size)
    (mapped : s.ismapped start size = some true) (virt : ℕ) :
    (∃ v ∈ s.meeting start stop,
        In virt ((Mm.partInside start stop v).start, (Mm.partInside start stop v).size)) ↔
      In virt (start, size) := by
  subst sized
  constructor
  · rintro ⟨v, -, low, high⟩
    simp only [Mm.partInside, Vma.size] at low high
    exact ⟨by show start ≤ virt; omega, by show virt < _; omega⟩
  · rintro ⟨low, high⟩
    obtain ⟨result, isMapped, iff⟩ := wf.ismapped range
    obtain rfl := Option.some.inj (isMapped.symm.trans mapped)
    obtain ⟨v, listed, first, last⟩ := iff.1 rfl virt low high
    refine ⟨v, mem_filter.2 ⟨listed, decide_eq_true ⟨by omega, by omega⟩⟩, ?_, ?_⟩ <;>
      simp only [Mm.partInside, Vma.size]
    · omega
    · omega

end Parts

variable (arch root) in
/-- The pieces of a mapped range are whole pages that make up the range, and `munmap` goes over
them. -/
theorem deadRanges_spec (wf : s.Wf) (aligned : addr % pageSize = 0)
    (words : addr < 2 ^ 64 ∧ length < 2 ^ 63)
    (mapped : s.ismapped addr (alignUp length pageSize) = some true) :
    s.munmapTable arch root addr length = some (walkTurns arch unpopulate
        (s.deadRanges addr (addr + alignUp length pageSize)) root) ∧
      (∀ t ∈ s.deadRanges addr (addr + alignUp length pageSize), Whole t.1 t.2) ∧
      ∀ virt, (∃ t ∈ s.deadRanges addr (addr + alignUp length pageSize), In virt t) ↔
        In virt (addr, alignUp length pageSize) := by
  obtain ⟨range, whole⟩ := wf.mappedRange words mapped
  have inside := range.inside
  have again : alignUp (alignUp length pageSize) pageSize = alignUp length pageSize :=
    alignUp_eq whole (by simp only [upperVmaLimit] at inside; omega)
  have alignedStop : (addr + alignUp length pageSize) % pageSize = 0 := by
    rw [Nat.add_mod, aligned, whole]
    rfl
  obtain ⟨s', swept⟩ := wf.sweepRange range (fun _ => false) (fun _ => []) (fun _ _ _ => rfl) aligned
    alignedStop
  refine ⟨?_, fun t mem => ?_, fun virt => ?_⟩
  · simp only [Mm.munmapTable, mapped, bind_eq_bind, bind_some, if_true, again, range.wrap, swept,
      Mm.actedRanges_swept, Bool.not_false, filter_true]
    rfl
  · obtain ⟨v, memV, rfl⟩ := mem_map.1 mem
    exact partInside_whole wf range aligned alignedStop memV
  · refine Iff.trans ?_ (partInside_covers wf range rfl mapped virt)
    simp only [Mm.deadRanges, List.mem_map, exists_exists_and_eq_and]
    rfl

theorem Root.step (isRoot : Root arch root) {root' : Table} (taken : TableStep arch root root') :
    Root arch root' := by
  cases taken with
  | populate perm alloc nr start size aligned sizes result => exact isRoot.populate aligned sizes result
  | protect perm ranges whole => exact (isRoot.walkTurns (protection_sound arch perm) whole).1
  | unmap s addr length wf aligned words result =>
    obtain ⟨mapped, isMapped, done⟩ := bind_eq_some_iff.1 result
    cases mapped with
    | false =>
      cases done
      exact isRoot
    | true =>
      obtain ⟨walks, whole, -⟩ := deadRanges_spec arch root wf aligned words isMapped
      obtain rfl := Option.some.inj (walks.symm.trans result)
      exact (isRoot.walkTurns (unpopulate_sound arch) whole).1

/-! ## The frames of a walk -/

def PageCall.leafLevel (c : PageCall) : LeafLevel := if c.level = 0 then .small else .huge

/-- The frame that `unpopulate::page` finds in the entry. -/
def PageCall.frame (arch : Arch) (c : PageCall) : TlbPage :=
  ⟨(arch.addr c.level c.pte).toNat, c.leafLevel.size⟩

/-- The calls as the gather sees them.  A walk comes to an entry once, so that the calls number the
entries. -/
def gatherCalls : ℕ → List PageCall → List Unpopulate.Call
  | _, [] => []
  | n, c :: calls => .page c.leafLevel n :: gatherCalls (n + 1) calls

theorem gathered_gatherCalls {ptes : ℕ → ℕ} {calls : List PageCall} {n : ℕ}
    (holds : ∀ i c, calls[i]? = some c → ptes (n + i) = (c.frame arch).addr) :
    Unpopulate.gathered ptes (gatherCalls n calls) = calls.map (PageCall.frame arch) := by
  induction calls generalizing ptes n with
  | nil => rfl
  | cons c calls ih =>
    have first : ptes n = (c.frame arch).addr := holds 0 c rfl
    rw [gatherCalls, Unpopulate.gathered, ih, first, map_cons]
    · rfl
    · intro i c found
      rw [update_of_ne (by omega), Nat.add_right_comm]
      exact holds (i + 1) c found

/-- What the walks of `evacuate` do to the outside, each with a gather of its own. -/
def turnsTrace (arch : Arch) : List (ℕ × ℕ) → Table → List Event
  | [], _ => []
  | turn :: turns, root =>
    let r := operateRange arch unpopulate root turn.1 turn.2
    let ptes := fun i => (r.2[i]?.map fun c => (c.frame arch).addr).getD 0
    (Unpopulate.operateRange ptes (gatherCalls 0 r.2)).trace ++ turnsTrace arch turns r.1

/-- **What the walks gather is freed**: the frames of their calls, in this order. -/
theorem freed_turnsTrace (turns : List (ℕ × ℕ)) : Unpopulate.freed (turnsTrace arch turns root) =
    (walkTurns arch unpopulate turns root).2.map (PageCall.frame arch) := by
  induction turns generalizing root with
  | nil => rfl
  | cons turn turns ih =>
    rw [turnsTrace, Unpopulate.freed_append, ih, walkTurns, map_append]
    obtain ⟨done, empty, total⟩ := Unpopulate.gathering_operateRange _ (gatherCalls 0 _)
    rw [done.freed_eq empty, total]
    exact congrArg (· ++ _) (gathered_gatherCalls fun i c found => by simp [found])

/-- **Unmapping is complete.**  After `munmap` no leaf is left in the range, every page that was
there went through one call of `unpopulate::page` with its frame, and outside of the range
translations and permissions are what they were. -/
theorem munmap_complete (reached : Reachable (Boot arch) (TableStep arch) root) (wf : s.Wf)
    (aligned : addr % pageSize = 0) (words : addr < 2 ^ 64 ∧ length < 2 ^ 63)
    (mapped : s.ismapped addr (alignUp length pageSize) = some true)
    (unhidden : Unhidden root (s.deadRanges addr (addr + alignUp length pageSize))) :
    ∃ root' calls, s.munmapTable arch root addr length = some (root', calls) ∧
      ∀ virt < 2 ^ 48,
        (In virt (addr, alignUp length pageSize) → leafAt 4 root' virt = none ∧
          ∀ leaf, leafAt 4 root virt = some leaf → ∃ c, calls.filter (PageCall.covers virt) = [c] ∧
            arch.translate (c.level, c.pte) virt = arch.translate leaf virt) ∧
        (¬In virt (addr, alignUp length pageSize) →
          calls.filter (PageCall.covers virt) = [] ∧
          (leafAt 4 root virt = none → leafAt 4 root' virt = none) ∧
          ∀ leaf, leafAt 4 root virt = some leaf →
            ∃ leaf', leafAt 4 root' virt = some leaf' ∧ Same arch virt leaf leaf') := by
  have isRoot : Root arch root :=
    reached.invariant (I := Root arch) (fun _ boot => boot.isRoot) fun _ _ _ holds => holds.step
  obtain ⟨result, whole, covered⟩ := deadRanges_spec arch root wf aligned words mapped
  obtain ⟨-, effect⟩ := isRoot.walkTurns (unpopulate_sound arch) whole
  refine ⟨_, _, result, fun virt low => ?_⟩
  rw [(effect virt low).1, (effect virt low).2]
  cases found : leafAt 4 root virt with
  | none => exact ⟨fun _ => ⟨rfl, nofun⟩, fun _ => ⟨rfl, fun _ => rfl, nofun⟩⟩
  | some leaf =>
    obtain ⟨hits, misses⟩ := afterTurns_unpopulate virt whole (leafAt_leaf isRoot.wf found)
    refine ⟨fun within => ?_, fun outside => ?_⟩
    · obtain ⟨t, mem, inside⟩ := (covered virt).2 within
      have hit : Hit _ virt leaf := ⟨t, mem, inside, fun hidden => by
        obtain ⟨level, pte⟩ := leaf
        obtain ⟨rfl, notValid⟩ := hidden
        exact unhidden t mem virt inside pte found notValid⟩
      refine ⟨(hits hit).1, fun _ same => ?_⟩
      obtain rfl := Option.some.inj same
      exact (hits hit).2
    · have miss : ¬Hit _ virt leaf := fun ⟨t, mem, inside, _⟩ =>
        outside ((covered virt).1 ⟨t, mem, inside⟩)
      obtain ⟨quiet, part, stays, isPart⟩ := misses miss
      refine ⟨quiet, nofun, fun _ same => ?_⟩
      obtain rfl := Option.some.inj same
      exact ⟨part, stays, isPart.same⟩

end Runs

/-! ## A page and a large page -/

def emptyTable : Table := .node fun _ => .entry 0

def largeArea : Mm where
  vmaList := [Mm.lowerEdge, ⟨0x200000000000, 0x200000200000, 0, 0⟩, Mm.upperEdge]
  vmaRangeSet := [.vma lowerVmaLimit, .vma 0x200000000000, .vma upperVmaLimit,
    .linear ⟨0x500000000000, 0x1000⟩]
  linearVmaSet := [⟨0x500000000000, 0x1000⟩]

def smallFrames (level _base : ℕ) : Option Pte := if level = 0 then some 0x1000 else none

def largeFrames (level _base : ℕ) : Option Pte := if level = 1 then some 0x200000 else none

theorem emptyTable_boot (arch : Arch) : Boot arch emptyTable :=
  ⟨⟨⟨_, rfl⟩, fun _ => .inl rfl⟩, fun _ _ => rfl⟩

theorem Table.only_eq (i : ℕ) (entry : Table) :
    Table.only i entry = .node (update (fun _ => .entry 0) i entry) := by
  refine congrArg Table.node (funext fun j => ?_)
  rw [update_apply]

theorem pageTable_reachable (perm : Perm) :
    Reachable (Boot .x64) (TableStep .x64) (pageTable .x64 perm) := by
  refine .next (.start (emptyTable_boot .x64)) (.populate perm smallFrames 2 0x200000000000 0x1000
    nofun le_rfl ?_)
  simp only [pageTable, Table.only_eq]
  rfl

theorem hugeTable_reachable (perm : Perm) :
    Reachable (Boot .x64) (TableStep .x64) (hugeTable .x64 perm) := by
  refine .next (.start (emptyTable_boot .x64)) (.populate perm largeFrames 2 0x200000000000 0x200000
    (fun _ _ some j low => ?_) le_rfl ?_)
  · cases some
    interval_cases j <;> rfl
  · simp only [hugeTable, Table.only_eq]
    rfl

theorem page_munmapped :
    ∃ root' calls, twoAreas.munmapTable .x64 (pageTable .x64 ⟨true, true, false⟩)
        0x200000000000 0x2000 = some (root', calls) ∧ leafAt 4 root' 0x200000000000 = none := by
  obtain ⟨root', calls, result, effect⟩ := munmap_complete (pageTable_reachable ⟨true, true, false⟩)
    twoAreas_wf (show 0x200000000000 % pageSize = 0 by decide)
    (show _ ∧ 0x2000 < 2 ^ 63 by decide) rfl
    (fun turn _ virt _ pte found => by
      have found := leafAt_only (leafAt_only (leafAt_only (leafAt_only found)))
      rw [leafAt_entry, kept, if_neg (by decide)] at found
      cases found)
  exact ⟨root', calls, result, ((effect 0x200000000000 (by decide)).1 ⟨by decide, by decide⟩).1⟩

/-- **A large page without permissions stays** when a part of it is unmapped: its word does not
carry the valid bit, so the walk neither splits it nor goes on. -/
theorem largePage_stays :
    Reachable (Boot .x64) (TableStep .x64) (hugeTable .x64 Perm.none) ∧
      (largeArea.munmapTable .x64 (hugeTable .x64 Perm.none) 0x200000000000 0x1000).map
          (fun r => (leafAt 4 r.1 0x200000000000, r.2)) =
        some (some (1, x64.makeLeafPte 1 0x200000 Perm.none), []) :=
  ⟨hugeTable_reachable Perm.none, by decide +kernel⟩

end MiniOsv.Mmu
