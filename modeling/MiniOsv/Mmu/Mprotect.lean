/-
# Mmu.Mprotect -- effective permissions after mprotect

`protect` walks over the areas of the range whose permissions are others, and the walks give
every entry that they reach the new ones.  So each entry of the range permits what it should
exactly if the hardware can show it and the entries that are not reached permit it already
(`mprotect_effective_iff`).  The two ways to fail: aarch64 has no reserved bit that could hide
a page, so an entry without permissions stays readable there; and a large page that was
populated without permissions is not valid on x64, so the walker does not split it.
-/
import MiniOsv.Mmu.Unmap

namespace MiniOsv.Mmu

open Mempool (pageSize wrap64 alignUp)

open Option List BitVec Mmu.Arch

/-! ## The model -/

/-- `perm_read | perm_write | perm_exec`, as far as they are in the set. -/
def Perm.bits (perm : Perm) : ℕ := perm.read.toNat + 2 * perm.write.toNat + 4 * perm.exec.toNat

/-- `mprotect` of the C library and of the kernel, with `protect`; the flag says that a TLB flush is
requested. -/
def mprotect (arch : Arch) (s : Mm) (root : Table) (addr len : ℕ) (perm : Perm) :
    Option (Mm × Table × Bool × Except Errno Unit) :=
  if addr % pageSize ≠ 0 then some (s, root, false, .error .einval)
  else do
    let len := alignUp len pageSize
    if ← s.ismapped addr len then
      let r ← s.sweepRange (fun v => v.perm = perm.bits) (fun v => [{ v with perm := perm.bits }])
        addr (wrap64 (addr + len))
      let t := walkTurns arch (protection arch perm) (Mm.actedRanges r.2) root
      some (r.1, t.1, t.2.any fun c => (arch.changePerm c.level c.pte perm).2, .ok ())
    else some (s, root, false, .error .enomem)

/-- The parts of the areas in the range whose permissions change. -/
def Mm.changed (s : Mm) (start stop : ℕ) (perm : Perm) : List (ℕ × ℕ) :=
  ((s.meeting start stop).filter fun v => !decide (v.perm = perm.bits)).map fun v =>
    ((Mm.partInside start stop v).start, (Mm.partInside start stop v).size)

/-! ## What the caller asks for -/

/-- The entries of the pages permit exactly this. -/
def Effective (arch : Arch) (root : Table) (pages : ℕ × ℕ) (perm : Perm) : Prop :=
  ∀ virt, In virt pages → ∀ leaf, leafAt 4 root virt = some leaf →
    arch.permits leaf.2 = perm.effective

/-- On aarch64 no entry is left without permissions, and the entries that the walks do not reach are
right already. -/
def Protectable (arch : Arch) (s : Mm) (root : Table) (pages : ℕ × ℕ) (perm : Perm) : Prop :=
  ∀ virt, In virt pages → ∀ leaf, leafAt 4 root virt = some leaf →
    (Hit (s.changed pages.1 (pages.1 + pages.2) perm) virt leaf →
      arch = .aarch64 → perm ≠ Perm.none) ∧
    (¬Hit (s.changed pages.1 (pages.1 + pages.2) perm) virt leaf →
      arch.permits leaf.2 = perm.effective)

theorem shown_eq_effective {arch : Arch} {perm : Perm} :
    arch.shown perm = perm.effective ↔ (arch = .aarch64 → perm ≠ Perm.none) := by
  unfold shown Perm.effective
  by_cases none : perm = Perm.none
  · subst none
    cases arch <;> simp [Perm.none]
  · simp [none]

/-! ## New entries -/

/-- An entry that `populate` makes shows the permissions of its area, and is not marked as
copy-on-write. -/
theorem Arch.makeLeafPte_shows (arch : Arch) (level : ℕ) (perm : Perm) {a : Pte}
    (frame : a &&& arch.addrMask (level = 1) = a) :
    arch.permits (arch.makeLeafPte level a perm) = arch.shown perm ∧
      arch.cow (arch.makeLeafPte level a perm) = false := by
  have outside : ∀ j, (arch.addrMask (level = 1)).getLsbD j = false → a.getLsbD j = false := by
    intro j notAddr
    rw [← frame, getLsbD_and, notAddr, Bool.and_false]
  unfold makeLeafPte
  generalize decide (level = 1) = large at outside
  cases arch with
  | x64 =>
    have word : ∀ j ∈ [0, 1, 51, 53, 63], (x64.addrMask large).getLsbD j = false := by
      cases large <;> decide
    simp only [forall_mem_cons] at word
    obtain ⟨b0, b1, b51, b53, b63, -⟩ := word
    simp only [permits, cow, writable, executable, setLarge, setExecutable, setWritable, setValid,
      setAddr, shown, getLsbD_setBit, getLsbD_or, getLsbD_and, getLsbD_not, outside, b0, b1, b51, b53, b63,
      Nat.reduceLT]
    by_cases none : perm = Perm.none
    · simp [none, Perm.none]
    · simp [none]
  | aarch64 =>
    have word : ∀ j ∈ [7, 53, 56], (aarch64.addrMask large).getLsbD j = false := by
      cases large <;> decide
    simp only [forall_mem_cons] at word
    obtain ⟨b7, b53, b56, -⟩ := word
    simp only [permits, cow, writable, executable, setLarge, setExecutable, setWritable, setValid,
      setAddr, shown, getLsbD_setBit, getLsbD_or, getLsbD_and, getLsbD_not, outside, b7, b53, b56,
      Nat.reduceLT]
    cases large <;> simp

/-- `populate` leaves an entry as it is or makes such a one. -/
theorem populatePage_shows {arch : Arch} {perm : Perm} {alloc : ℕ → ℕ → Option Pte}
    (frames : ∀ level base a, alloc level base = some a → a &&& arch.addrMask (level = 1) = a)
    {level base : ℕ} {pte pte' : Pte}
    (result : populatePage arch perm alloc level base pte = some pte') :
    pte' = pte ∨ arch.permits pte' = arch.shown perm ∧ arch.cow pte' = false := by
  rw [populatePage] at result
  split at result
  · exact .inl (Option.some.inj result).symm
  · obtain ⟨a, allocated, rfl⟩ := map_eq_some_iff.1 result
    exact .inr (arch.makeLeafPte_shows level perm (frames level base a allocated))

section Mprotect

variable {arch : Arch} {s s' : Mm} {root root' : Table} {addr len : ℕ} {perm : Perm} {flush : Bool}

theorem mprotect_ok (wf : s.Wf) (words : addr < 2 ^ 64 ∧ len < 2 ^ 63)
    (result : mprotect arch s root addr len perm = some (s', root', flush, .ok ())) :
    Mm.UserRange addr (addr + alignUp len pageSize) ∧
      (∀ t ∈ s.changed addr (addr + alignUp len pageSize) perm,
        Whole t.1 t.2 ∧ ∀ virt, In virt t → In virt (addr, alignUp len pageSize)) ∧
      root' = (walkTurns arch (protection arch perm)
        (s.changed addr (addr + alignUp len pageSize) perm) root).1 ∧
      flush = (walkTurns arch (protection arch perm)
        (s.changed addr (addr + alignUp len pageSize) perm) root).2.any
          fun c => (arch.changePerm c.level c.pte perm).2 := by
  rw [mprotect] at result
  split at result
  · simp at result
  next aligned =>
    have aligned := not_not.1 aligned
    obtain ⟨mapped, isMapped, result⟩ := bind_eq_some_iff.1 result
    cases mapped with
    | false => simp at result
    | true =>
      obtain ⟨range, whole⟩ := wf.mappedRange words isMapped
      have alignedStop : (addr + alignUp len pageSize) % pageSize = 0 := by
        rw [Nat.add_mod, aligned, whole]
        rfl
      obtain ⟨s₁, swept⟩ := wf.sweepRange range (fun v => v.perm = perm.bits)
        (fun v => [{ v with perm := perm.bits }]) (fun _ _ _ => rfl) aligned alignedStop
      simp only [if_true, range.wrap, swept, bind_eq_bind, bind_some, Mm.actedRanges_swept,
        Option.some.injEq, Prod.mk.injEq, and_true] at result
      obtain ⟨-, rfl, rfl⟩ := result
      refine ⟨range, fun t mem => ?_, rfl, rfl⟩
      obtain ⟨v, memV, rfl⟩ := List.mem_map.1 mem
      have meets := (mem_filter.1 memV).1
      exact ⟨partInside_whole wf range aligned alignedStop meets, fun virt within =>
        (partInside_covers wf range rfl isMapped virt).1 ⟨v, meets, within⟩⟩

/-- **Effective permissions after mprotect**: they are right exactly if the entries can show them and
those that are not reached have them.  Elsewhere nothing changes, and no access is lost without a
request to flush. -/
theorem mprotect_effective_iff (wf : s.Wf) (isRoot : Root arch root)
    (plain : ∀ virt < 2 ^ 48, ∀ leaf, leafAt 4 root virt = some leaf → arch.cow leaf.2 = false)
    (words : addr < 2 ^ 64 ∧ len < 2 ^ 63)
    (result : mprotect arch s root addr len perm = some (s', root', flush, .ok ())) :
    (Effective arch root' (addr, alignUp len pageSize) perm ↔
        Protectable arch s root (addr, alignUp len pageSize) perm) ∧
      ∀ virt < 2 ^ 48, (leafAt 4 root virt = none → leafAt 4 root' virt = none) ∧
        ∀ leaf, leafAt 4 root virt = some leaf → ∃ leaf', leafAt 4 root' virt = some leaf' ∧
          (¬In virt (addr, alignUp len pageSize) → Same arch virt leaf leaf') ∧
          (flush = false → (arch.permits leaf.2).Covered (arch.permits leaf'.2)) := by
  obtain ⟨range, ranges, rfl, rfl⟩ := mprotect_ok wf words result
  have whole : ∀ t ∈ s.changed addr (addr + alignUp len pageSize) perm, Whole t.1 t.2 :=
    fun t mem => (ranges t mem).1
  obtain ⟨-, effect⟩ := isRoot.walkTurns (protection_sound arch perm) whole
  have walks := fun virt low leaf found => afterTurns_protection perm virt whole
    (leafAt_leaf isRoot.wf found) (plain virt low leaf found)
  refine ⟨forall_congr' fun virt => forall_congr' fun within => ?_, fun virt low => ?_⟩
  · have low : virt < 2 ^ 48 := by
      have inside := range.inside
      have high := within.2
      simp only [upperVmaLimit] at *
      omega
    rw [(effect virt low).1]
    cases found : leafAt 4 root virt with
    | none => simp
    | some leaf =>
      obtain ⟨leaf', stays, -, hits, misses, -⟩ := walks virt low leaf found
      simp only [bind_some, stays, Option.some.injEq, forall_eq']
      by_cases hit : Hit (s.changed addr (addr + alignUp len pageSize) perm) virt leaf
      · rw [hits hit, shown_eq_effective]
        simp [hit]
      · rw [(misses hit).same.2]
        simp [hit]
  · rw [(effect virt low).1]
    cases found : leafAt 4 root virt with
    | none => simp
    | some leaf =>
      obtain ⟨leaf', stays, -, -, misses, covered⟩ := walks virt low leaf found
      simp only [reduceCtorEq, false_implies, true_and, Option.some.injEq, forall_eq', bind_some, stays,
        exists_eq_left']
      refine ⟨fun outside => (misses ?_).same, fun quiet => covered fun c mem => ?_⟩
      · rintro ⟨t, mem, inside, -⟩
        exact outside ((ranges t mem).2 virt inside)
      · have calls := (effect virt low).2
        rw [found, elim_some] at calls
        rw [← calls] at mem
        exact Bool.eq_false_iff.2 (any_eq_false.1 quiet c (mem_of_mem_filter mem))

end Mprotect

/-! ## Three pages of two areas -/

theorem fourPages_plain {virt : ℕ} {leaf : ℕ × Pte} (found : leafAt 4 fourPages virt = some leaf) :
    x64.cow leaf.2 = false := by
  have found := leafAt_only (leafAt_only (leafAt_only found))
  change kept 0 (if ptIndex virt 0 < 4 then _ else 0) = some leaf at found
  split at found
  next small =>
    rw [kept] at found
    split at found
    · cases found
    · cases found
      refine (x64.makeLeafPte_shows 0 _ ?_).2
      interval_cases ptIndex virt 0 <;> decide
  · cases found

theorem threePages_readOnly :
    ∃ s' root' flush, mprotect .x64 twoAreas fourPages 0x200000001000 0x3000 ⟨true, false, false⟩ =
        some (s', root', flush, .ok ()) ∧
      Effective .x64 root' (0x200000001000, 0x3000) ⟨true, false, false⟩ := by
  refine ⟨_, _, _, rfl, (mprotect_effective_iff twoAreas_wf fourPages_root
    (fun _ _ _ found => fourPages_plain found) (show _ ∧ 0x3000 < 2 ^ 63 by decide) rfl).1.2 ?_⟩
  intro virt within leaf found
  refine ⟨fun _ other => absurd other (by decide), fun miss => absurd ?_ miss⟩
  have small : ¬Hidden leaf := fun hidden => by
    have := fourPages_small found
    have := hidden.1
    omega
  have ranges : twoAreas.changed 0x200000001000 0x200000004000 ⟨true, false, false⟩ =
      [(0x200000001000, 0x1000), (0x200000002000, 0x2000)] := by decide +kernel
  have low := within.1
  have high : virt < 0x200000001000 + 0x3000 := within.2
  show Hit (twoAreas.changed 0x200000001000 0x200000004000 ⟨true, false, false⟩) virt leaf
  simp only [ranges, Hit, List.mem_cons, not_mem_nil, or_false, exists_eq_or_imp, exists_eq_left, In,
    small, false_implies, and_true]
  omega

/-- **Two wrong results**: without permissions a page stays readable on aarch64, and on x64 the
first page of a large page that was populated without permissions does not get the new ones. -/
theorem mprotect_wrong_permissions :
    (mprotect .aarch64 twoAreas (pageTable .aarch64 ⟨true, true, false⟩) 0x200000000000 0x1000
        Perm.none).map (fun r => (leafAt 4 r.2.1 0x200000000000).map fun leaf =>
          aarch64.permits leaf.2) = some (some ⟨true, false, false⟩) ∧
      (mprotect .x64 largeArea (hugeTable .x64 Perm.none) 0x200000000000 0x1000
        ⟨true, true, false⟩).map (fun r => (leafAt 4 r.2.1 0x200000000000).map fun leaf =>
          x64.permits leaf.2) = some (some Perm.none) := by
  constructor <;> decide +kernel

end MiniOsv.Mmu
