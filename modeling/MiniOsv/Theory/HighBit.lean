/-
# Theory.HighBit -- the highest bit in which two numbers differ

Numbers are sorted into blocks of `2 ^ k`; two numbers agree above bit `k` exactly when
they lie in one block.  A radix structure that files a number under the highest bit in
which it differs from a reference point can move the reference point without touching most
of its buckets; `highBit_far`, `lt_of_highBit_lt` and `highBit_same` say which.
-/
import Mathlib.Data.Nat.Bitwise

namespace MiniOsv.Theory

variable {a b c k l : ℕ}

/-- The highest bit in which `a` and `b` differ. -/
def highBit (a b : ℕ) : ℕ := (a ^^^ b).log2

/-! ## Blocks -/

theorem block_mono (le : k ≤ l) (same : a / 2 ^ k = b / 2 ^ k) : a / 2 ^ l = b / 2 ^ l := by
  obtain ⟨d, rfl⟩ := Nat.exists_eq_add_of_le le
  rw [Nat.pow_add, ← Nat.div_div_eq_div_mul, ← Nat.div_div_eq_div_mul, same]

/-! ## The highest differing bit -/

theorem highBit_lt_iff (ne : a ≠ b) : highBit a b < k ↔ a / 2 ^ k = b / 2 ^ k := by
  rw [highBit, Nat.log2_lt (Nat.xor_ne_zero_iff.2 ne), ← Nat.shiftRight_eq_div_pow,
    ← Nat.shiftRight_eq_div_pow, ← Nat.xor_eq_zero_iff, ← Nat.shiftRight_xor_distrib,
    Nat.shiftRight_eq_div_pow, Nat.div_eq_zero_iff]
  simp

theorem block_highBit (ne : a ≠ b) :
    a / 2 ^ (highBit a b + 1) = b / 2 ^ (highBit a b + 1) ∧
      a / 2 ^ highBit a b ≠ b / 2 ^ highBit a b :=
  ⟨(highBit_lt_iff ne).1 (Nat.lt_succ_self _), fun same =>
    absurd ((highBit_lt_iff ne).2 same) (lt_irrefl _)⟩

theorem highBit_lt_of_lt {n : ℕ} (ha : a < 2 ^ n) (hb : b < 2 ^ n) (ne : a ≠ b) :
    highBit a b < n := by
  rw [highBit_lt_iff ne, Nat.div_eq_of_lt ha, Nat.div_eq_of_lt hb]

/-! ## Moving the reference point from `a` to `b` -/

/-- Of two numbers above `a`, the one that differs from it in the lower bit is smaller. -/
theorem lt_of_highBit_lt (ab : a < b) (ac : a < c) (lt : highBit a b < highBit a c) : b < c := by
  by_contra le
  have same := block_mono (Nat.succ_le_of_lt lt) (block_highBit ab.ne).1
  refine (block_highBit ac.ne).2 (le_antisymm (Nat.div_le_div_right ac.le) ?_)
  exact same ▸ Nat.div_le_div_right (Nat.le_of_not_lt le)

/-- A number that differs from `a` in a higher bit than `b` does is filed as before. -/
theorem highBit_far (ab : a < b) (ac : a < c) (lt : highBit a b < highBit a c) :
    highBit b c = highBit a c := by
  have bc := lt_of_highBit_lt ab ac lt
  have low := block_mono (Nat.succ_le_of_lt lt) (block_highBit ab.ne).1
  have high := block_mono (Nat.le_succ_of_le (Nat.succ_le_of_lt lt)) (block_highBit ab.ne).1
  obtain ⟨same, other⟩ := block_highBit ac.ne
  have := (highBit_lt_iff bc.ne).2 (high.symm.trans same)
  have := mt (highBit_lt_iff bc.ne).1 fun eq => other (low.trans eq)
  omega

/-- A number above `b` that was filed with it comes closer. -/
theorem highBit_same (ab : a < b) (bc : b < c) (eq : highBit a c = highBit a b) :
    highBit b c < highBit a b := by
  obtain ⟨sameB, otherB⟩ := block_highBit ab.ne
  obtain ⟨sameC, otherC⟩ := block_highBit (ab.trans bc).ne
  rw [eq] at sameC otherC
  rw [highBit_lt_iff bc.ne]
  -- A block has two halves, and `a` is in neither `b`'s nor `c`'s.
  rw [Nat.pow_succ, ← Nat.div_div_eq_div_mul, ← Nat.div_div_eq_div_mul] at sameB sameC
  omega

end MiniOsv.Theory
