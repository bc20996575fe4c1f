/-
# Theory.Tally -- counting over the threads of a concurrent system

A concurrent state has one local state per thread.  `tally f locals` adds up `f` over
the threads; with `f` zero or one it counts the threads in some situation.  A step of
one thread changes one local state, and `tally_update` says what that does to a tally.
-/
import Mathlib.Algebra.Order.BigOperators.Group.Finset
import Mathlib.Data.Fintype.BigOperators

namespace MiniOsv.Theory

open Function Finset

universe u v

variable {ι : Type u} [Fintype ι] {α : Type v}

def tally (f : α → ℕ) (locals : ι → α) : ℕ := ∑ i, f (locals i)

theorem le_tally (f : α → ℕ) (locals : ι → α) (i : ι) : f (locals i) ≤ tally f locals :=
  single_le_sum (f := fun i => f (locals i)) (fun _ _ => Nat.zero_le _) (mem_univ i)

variable {locals : ι → α}

theorem tally_eq_zero {f : α → ℕ} : tally f locals = 0 ↔ ∀ i, f (locals i) = 0 := by
  simp [tally]

theorem exists_of_tally_pos {f : α → ℕ} (pos : 0 < tally f locals) : ∃ i, 0 < f (locals i) := by
  by_contra none
  have : tally f locals = 0 := tally_eq_zero.2 fun i => by
    by_contra ne
    exact none ⟨i, by omega⟩
  omega

/-- A tally of ones is a number of threads. -/
theorem tally_eq_card {f : α → ℕ} (one : ∀ i, f (locals i) ≤ 1) :
    tally f locals = (Finset.univ.filter fun i => 0 < f (locals i)).card := by
  rw [tally, card_filter]
  refine sum_congr rfl fun i _ => ?_
  have := one i
  split <;> omega

variable [DecidableEq ι]

/-- What one thread's step does to a tally. -/
theorem tally_update (f : α → ℕ) (locals : ι → α) (i : ι) (a : α) :
    tally f (update locals i a) + f (locals i) = tally f locals + f a := by
  have rest : ∀ g : ι → α, tally f g = f (g i) + ∑ j ∈ Finset.univ.erase i, f (g j) := fun g =>
    (add_sum_erase Finset.univ (fun j => f (g j)) (mem_univ i)).symm
  have same : ∑ j ∈ Finset.univ.erase i, f (update locals i a j) =
      ∑ j ∈ Finset.univ.erase i, f (locals j) :=
    sum_congr rfl fun j mem => by
      rw [update_of_ne (ne_of_mem_erase mem)]
  rw [rest (update locals i a), rest locals, same, update_self]
  omega

/-- What a step that changes two threads does to a tally. -/
theorem tally_update_update (f : α → ℕ) (locals : ι → α) {i j : ι} (ne : i ≠ j) (a b : α) :
    tally f (update (update locals i a) j b) + f (locals i) + f (locals j) =
      tally f locals + f a + f b := by
  have first := tally_update f locals i a
  have second := tally_update f (update locals i a) j b
  rw [update_of_ne ne.symm] at second
  omega

/-- Two threads contribute at most the whole. -/
theorem add_le_tally (f : α → ℕ) (locals : ι → α) {i j : ι} (ne : i ≠ j) :
    f (locals i) + f (locals j) ≤ tally f locals := by
  rw [tally, ← add_sum_erase Finset.univ _ (mem_univ i)]
  have mem : j ∈ Finset.univ.erase i := mem_erase.2 ⟨ne.symm, mem_univ j⟩
  have := single_le_sum (f := fun j => f (locals j)) (fun _ _ => Nat.zero_le _) mem
  omega

/-- A tally of one comes from one thread. -/
theorem existsUnique_of_tally_eq_one {f : α → ℕ} (one : tally f locals = 1) :
    ∃! i, f (locals i) = 1 := by
  obtain ⟨i, pos⟩ := exists_of_tally_pos (one ▸ Nat.one_pos)
  have bound := le_tally f locals i
  refine ⟨i, by omega, fun j (atOne : f (locals j) = 1) => ?_⟩
  by_contra ne
  have := add_le_tally f locals ne
  omega

end MiniOsv.Theory
