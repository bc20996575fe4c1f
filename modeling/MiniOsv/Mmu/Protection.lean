/-
# Mmu.Protection -- changes of permissions in the page table

`change_perm` rewrites the leaf entries of a range on both architectures.  What an entry
permits is read as the hardware reads it (`Arch.permits`).  An entry with some permissions
lets these through, with reading, and one without them nothing at all on x64 (`Arch.shown`);
aarch64 has no reserved bit that could hide a page, so the entry stays readable there.
-/
import MiniOsv.Mmu.Walks

namespace MiniOsv.Mmu

open Mempool (pageSize alignDown alignUp)

open List BitVec Mmu.Arch

/-! ## The model -/

def protection (arch : Arch) (perm : Perm) : PageOp where
  page level pte := (arch.changePerm level pte perm).1
  releases := false
  nrPageSizes := 2

/-- Everything that `p` permits is permitted by `q`. -/
def Perm.Covered (p q : Perm) : Prop :=
  (p.read = true → q.read = true) ∧ (p.write = true → q.write = true) ∧
    (p.exec = true → q.exec = true)

def Perm.effective (perm : Perm) : Perm :=
  if perm = Perm.none then Perm.none else ⟨true, perm.write, perm.exec⟩

/-- What an entry with the permissions lets through. -/
def Arch.shown (arch : Arch) (perm : Perm) : Perm :=
  if arch = .x64 ∧ perm = Perm.none then Perm.none else ⟨true, perm.write, perm.exec⟩

/-! ## Words -/

/-- The permissions that `change_perm` grants. -/
def Arch.granted (arch : Arch) (level : ℕ) (x : Pte) (perm : Perm) : Perm :=
  if arch.pteIsCow level x then { perm with write := false } else perm

theorem Arch.getLsbD_changePerm_x64 (level : ℕ) (x : Pte) (perm : Perm) (j : ℕ) :
    (x64.changePerm level x perm).1.getLsbD j =
      if j = 51 then decide (x64.granted level x perm = Perm.none)
      else if j = 63 then !(x64.granted level x perm).exec
      else if j = 1 then (x64.granted level x perm).write
      else if j = 0 then true else x.getLsbD j := by
  simp only [changePerm, setRsvdBit, setExecutable, setWritable, setValid, getLsbD_setBit,
    Nat.reduceLT]
  rfl

theorem Arch.getLsbD_changePerm_aarch64 (level : ℕ) (x : Pte) (perm : Perm) (j : ℕ) :
    (aarch64.changePerm level x perm).1.getLsbD j =
      if j = 53 then !(aarch64.granted level x perm).exec
      else if j = 7 then !(aarch64.granted level x perm).write
      else if j = 0 then true else x.getLsbD j := by
  simp only [changePerm, setRsvdBit, setExecutable, setWritable, setValid, getLsbD_setBit,
    Nat.reduceLT]
  rfl

section

variable (arch : Arch)

include arch

theorem Arch.permits_changePerm (level : ℕ) (x : Pte) (perm : Perm) :
    arch.permits (arch.changePerm level x perm).1 =
      arch.shown (arch.granted level x perm) := by
  unfold shown
  cases arch with
  | x64 =>
    simp only [permits, writable, executable, getLsbD_changePerm_x64]
    by_cases none : x64.granted level x perm = Perm.none
    · simp [none, Perm.none]
    · simp [none]
  | aarch64 =>
    simp only [permits, writable, executable, getLsbD_changePerm_aarch64]
    simp

/-- Without a request to flush, what was permitted still is. -/
theorem Arch.changePerm_flush {level : ℕ} {x : Pte} {perm : Perm}
    (quiet : (arch.changePerm level x perm).2 = false) :
    (arch.permits x).Covered (arch.permits (arch.changePerm level x perm).1) := by
  rw [permits_changePerm, shown]
  cases arch with
  | x64 =>
    change (valid x && !(x64.granted level x perm).read ||
      x64.writable x && !(x64.granted level x perm).write ||
      x64.executable x && !(x64.granted level x perm).exec) = false at quiet
    simp only [permits, valid] at quiet ⊢
    generalize x64.granted level x perm = granted at quiet ⊢
    obtain ⟨r, w, e⟩ := granted
    cases r <;> cases w <;> cases e <;> simp_all [Perm.Covered, Perm.none]
  | aarch64 =>
    have same : (⟨valid x, aarch64.writable x, aarch64.executable x⟩ : Perm) =
        aarch64.granted level x perm := by
      by_contra other
      exact absurd quiet (by simpa [changePerm, granted] using other)
    rw [← same]
    simp [Perm.Covered, permits]

theorem Arch.cow_changePerm (level : ℕ) (x : Pte) (perm : Perm) :
    arch.cow (arch.changePerm level x perm).1 = arch.cow x := by
  cases arch with
  | x64 =>
    simp only [cow, getLsbD_changePerm_x64]
    rfl
  | aarch64 =>
    simp only [cow, getLsbD_changePerm_aarch64]
    rfl

end

/-! ## Walks of `protection` -/

section Protect

variable {arch : Arch} {perm : Perm}

theorem valid_changePerm (level : ℕ) (x : Pte) : valid (arch.changePerm level x perm).1 = true := by
  cases arch with
  | x64 => rw [valid, getLsbD_changePerm_x64]; rfl
  | aarch64 => rw [valid, getLsbD_changePerm_aarch64]; rfl

theorem protection_sound (arch : Arch) (perm : Perm) : (protection arch perm).Sound arch := by
  refine ⟨⟨Nat.le_succ 1, le_rfl⟩, fun pte huge => .inr ⟨?_, fun j low high => ?_⟩, nofun⟩
  · have large := huge.large
    cases arch with
    | x64 =>
      simp only [Arch.large, protection, Arch.getLsbD_changePerm_x64] at large ⊢
      simpa using large
    | aarch64 =>
      simp only [Arch.large, protection, Arch.getLsbD_changePerm_aarch64] at large ⊢
      simp at large ⊢
      exact large.2
  · have same := huge.frame j low high
    cases arch with
    | x64 =>
      rw [protection, getLsbD_changePerm_x64, if_neg (by omega), if_neg (by omega),
        if_neg (by omega), if_neg (by omega), same]
    | aarch64 =>
      rw [protection, getLsbD_changePerm_aarch64, if_neg (by omega), if_neg (by omega),
        if_neg (by omega), same]

theorem Perm.Covered.trans {p q r : Perm} (first : p.Covered q) (second : q.Covered r) :
    p.Covered r :=
  ⟨fun h => second.1 (first.1 h), fun h => second.2.1 (first.2.1 h),
    fun h => second.2.2 (first.2.2 h)⟩

theorem Arch.granted_of_plain {level : ℕ} {x : Pte} (plain : arch.cow x = false) :
    arch.granted level x perm = perm := by
  rw [granted, pteIsCow, plain, Bool.and_false]
  rfl

variable (perm) in
/-- **Walks of `protection`** give the pages that they hit the permissions, and no access is lost
without a request to flush. -/
theorem afterTurns_protection (virt : ℕ) {turns : List (ℕ × ℕ)} {leaf : ℕ × Pte}
    (whole : ∀ turn ∈ turns, Whole turn.1 turn.2) (isLeaf : Leaf arch leaf)
    (plain : arch.cow leaf.2 = false) :
    ∃ leaf', afterTurns arch (protection arch perm) virt turns leaf = some leaf' ∧
      arch.cow leaf'.2 = false ∧
      (Hit turns virt leaf → arch.permits leaf'.2 = arch.shown perm) ∧
      (¬Hit turns virt leaf → Part arch virt leaf leaf') ∧
      ((∀ c ∈ calledTurns arch (protection arch perm) virt turns leaf,
          (arch.changePerm c.level c.pte perm).2 = false) →
        (arch.permits leaf.2).Covered (arch.permits leaf'.2)) := by
  induction turns generalizing leaf with
  | nil =>
    exact ⟨leaf, rfl, plain, fun ⟨_, mem, _⟩ => absurd mem not_mem_nil, fun _ => .refl leaf,
      fun _ => ⟨id, id, id⟩⟩
  | cons turn rest ih =>
    obtain ⟨part, isPart, taken⟩ := after_turn (protection arch perm) virt rfl
      (whole turn mem_cons_self) isLeaf
    have partPlain := isPart.cow.trans plain
    have wholeRest := fun t mem => whole t (mem_cons_of_mem turn mem)
    simp only [afterTurns, calledTurns]
    rcases taken with ⟨hit, changed, calls⟩ | ⟨miss, stays, calls⟩ <;> rw [hit_cons]
    · have valid : valid (arch.changePerm part.1 part.2 perm).1 = true :=
        valid_changePerm part.1 part.2
      have isLeaf₁ : Leaf arch (part.1, (arch.changePerm part.1 part.2 perm).1) := by
        refine ⟨ne_zero_of_valid valid, (isPart.isLeaf isLeaf).small, fun one => ?_⟩
        have huge := (protection_sound arch perm).huge part.2 ((isPart.isLeaf isLeaf).huge one)
        rw [show part.1 = 1 from one] at valid ⊢
        exact huge.resolve_left (ne_zero_of_valid valid)
      obtain ⟨leaf', result, plain', hits, misses, covered⟩ := ih wholeRest isLeaf₁
        ((arch.cow_changePerm _ _ _).trans partPlain)
      have shown : arch.permits (arch.changePerm part.1 part.2 perm).1 = arch.shown perm := by
        rw [permits_changePerm, granted_of_plain partPlain]
      have there : kept part.1 ((protection arch perm).page part.1 part.2) =
          some (part.1, (arch.changePerm part.1 part.2 perm).1) := if_neg isLeaf₁.there
      rw [changed, calls, there]
      refine ⟨leaf', result, plain', fun _ => ?_, fun no => absurd (.inl hit) no, fun quiet => ?_⟩
      · by_cases again : Hit rest virt (part.1, (arch.changePerm part.1 part.2 perm).1)
        · exact hits again
        · exact (misses again).same.2.trans shown
      · rw [← isPart.same.2]
        refine (arch.changePerm_flush (quiet _ (mem_append_left _ (mem_singleton_self _)))).trans ?_
        exact covered fun c mem => quiet c (mem_append_right _ mem)
    · obtain ⟨leaf', result, plain', hits, misses, covered⟩ := ih wholeRest
        (isPart.isLeaf isLeaf) partPlain
      rw [isPart.hit] at hits misses
      rw [stays, calls, or_iff_right miss, ← isPart.same.2]
      exact ⟨leaf', result, plain', hits, fun none => isPart.trans (misses none), covered⟩

end Protect

/-! ## Small page tables -/

/-- A table with one entry that is not empty. -/
def Table.only (i : ℕ) (entry : Table) : Table := .node fun j => if j = i then entry else .entry 0

/-- A page at `0x200000000000` that was populated with the permissions. -/
def pageTable (arch : Arch) (perm : Perm) : Table :=
  .only 64 (.only 0 (.only 0 (.only 0 (.entry (arch.makeLeafPte 0 0x1000 perm)))))

/-- A large page at `0x200000000000` that was populated with the permissions. -/
def hugeTable (arch : Arch) (perm : Perm) : Table :=
  .only 64 (.only 0 (.only 0 (.entry (arch.makeLeafPte 1 0x200000 perm))))

section Small

variable {arch : Arch} {level i virt : ℕ} {node : Table} {leaf : ℕ × Pte}

theorem leafAt_only (found : leafAt (level + 1) (.only i node) virt = some leaf) :
    leafAt level node virt = some leaf := by
  rw [Table.only, leafAt] at found
  split at found
  · exact found
  · rw [leafAt_entry] at found
    cases found

theorem wf_only (wf : node.Wf arch level) : (Table.only i node).Wf arch (level + 1) := by
  intro j
  dsimp only
  split
  · exact wf
  · cases level with
    | zero => trivial
    | succ level => exact .inl rfl

end Small

end MiniOsv.Mmu
