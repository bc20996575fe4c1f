/-
# Theory.Extent -- half-open extents and the maximal runs of their union

An extent is a pair `(start, length)` and stands for the addresses
`start ≤ x < start + length`.  A set of nonempty extents that neither overlap nor
touch (`Separated`) is determined by the addresses it covers: its members are
exactly the maximal runs of covered addresses (`Separated.mem_iff_maximalRun`).
Two separated sets that cover the same addresses are therefore equal
(`Separated.eq_of_covered`), whatever order their members were put in.  The total length
of disjoint extents counts the addresses they cover (`card_addresses`), so it can be
followed through operations that are specified by what they cover.
-/
import Mathlib.Algebra.Order.BigOperators.Group.Finset
import Mathlib.Order.Interval.Finset.Nat

namespace MiniOsv.Theory

open Finset

/-- `(start, length)`: the addresses `start ≤ x < start + length`. -/
abbrev Extent := ℕ × ℕ

namespace Extent

def Covers (r : Extent) (x : ℕ) : Prop := r.1 ≤ x ∧ x < r.1 + r.2

/-- No common address, stated by the ends. -/
def Apart (r q : Extent) : Prop := r.1 + r.2 ≤ q.1 ∨ q.1 + q.2 ≤ r.1

/-- No common address and no shared end. -/
def Separate (r q : Extent) : Prop := r.1 + r.2 < q.1 ∨ q.1 + q.2 < r.1

instance (r : Extent) (x : ℕ) : Decidable (r.Covers x) :=
  inferInstanceAs (Decidable (_ ∧ _))

instance (r q : Extent) : Decidable (r.Apart q) :=
  inferInstanceAs (Decidable (_ ∨ _))

theorem Apart.symm {r q : Extent} (apart : r.Apart q) : q.Apart r := Or.symm apart

/-- What is disjoint from an extent is disjoint from its parts. -/
theorem Apart.part {P r q : Extent} (apart : P.Apart r) (low : P.1 ≤ q.1)
    (high : q.1 + q.2 ≤ P.1 + P.2) : q.Apart r := by
  simp only [Apart] at *
  omega

theorem Apart.not_covers {r q : Extent} {x : ℕ} (apart : r.Apart q) (inR : r.Covers x) :
    ¬ q.Covers x := by
  simp only [Apart, Covers] at *
  omega

/-- Nonempty extents with no common address are apart. -/
theorem Apart.of_forall {r q : Extent} (rpos : 0 < r.2) (qpos : 0 < q.2)
    (none : ∀ x, r.Covers x → ¬ q.Covers x) : r.Apart q := by
  have rStart := none r.1
  have qStart := none q.1
  simp only [Apart, Covers] at *
  omega

end Extent

/-- `r` is a run of addresses satisfying `P` that no longer run contains. -/
def MaximalRun (P : ℕ → Prop) (r : Extent) : Prop :=
  0 < r.2 ∧ (∀ x, r.Covers x → P x) ∧ ¬ P (r.1 + r.2) ∧ (0 < r.1 → ¬ P (r.1 - 1))

/-- The addresses covered by a set of extents. -/
def Covered (F : Finset Extent) (x : ℕ) : Prop := ∃ r ∈ F, r.Covers x

variable {F : Finset Extent}

theorem covered_insert {r : Extent} {x : ℕ} :
    Covered (insert r F) x ↔ r.Covers x ∨ Covered F x := by
  simp [Covered]

theorem covered_erase {r : Extent} (mem : r ∈ F) {x : ℕ} :
    Covered F x ↔ r.Covers x ∨ Covered (F.erase r) x := by
  rw [← covered_insert, insert_erase mem]

/-- Moving the part `B` of an extent over to the set leaves the part `A`. -/
theorem covered_cut {P A B : Extent} (split : ∀ x, P.Covers x ↔ A.Covers x ∨ B.Covers x) (x : ℕ) :
    P.Covers x ∨ Covered F x ↔ A.Covers x ∨ Covered (insert B F) x := by
  rw [covered_insert, split, or_assoc]

/-! ## Total length -/

def PairwiseApart (F : Finset Extent) : Prop := ∀ r ∈ F, ∀ q ∈ F, r ≠ q → r.Apart q

def total (F : Finset Extent) : ℕ := ∑ r ∈ F, r.2

/-- The covered addresses as a finite set. -/
def addresses (F : Finset Extent) : Finset ℕ := F.biUnion fun r => Finset.Ico r.1 (r.1 + r.2)

theorem mem_addresses {x : ℕ} : x ∈ addresses F ↔ Covered F x := by
  simp [addresses, Covered, Extent.Covers]

theorem card_addresses (apart : PairwiseApart F) : (addresses F).card = total F := by
  rw [addresses, card_biUnion]
  · simp [total]
  · intro r rm q qm ne
    refine disjoint_left.2 fun x inR inQ => ?_
    exact (apart r rm q qm ne).not_covers (mem_Ico.1 inR) (mem_Ico.1 inQ)

/-- Splitting off an extent splits off its length. -/
theorem total_of_cover {F F' : Finset Extent} {q : Extent} (apart : PairwiseApart F)
    (apart' : PairwiseApart F') (outside : ∀ r ∈ F', q.Apart r)
    (cover : ∀ x, Covered F x ↔ q.Covers x ∨ Covered F' x) : total F = q.2 + total F' := by
  have split : addresses F = Finset.Ico q.1 (q.1 + q.2) ∪ addresses F' := by
    ext x
    rw [mem_addresses, cover, mem_union, mem_addresses, mem_Ico]
    rfl
  have disjoint : Disjoint (Finset.Ico q.1 (q.1 + q.2)) (addresses F') := by
    refine disjoint_left.2 fun x inQ inF => ?_
    obtain ⟨r, mem, covers⟩ := mem_addresses.1 inF
    exact (outside r mem).not_covers (mem_Ico.1 inQ) covers
  rw [← card_addresses apart, split, card_union_of_disjoint disjoint,
    card_addresses apart', Nat.card_Ico]
  omega

theorem total_le {bound : ℕ} (apart : PairwiseApart F)
    (inside : ∀ r ∈ F, r.1 + r.2 ≤ bound) : total F ≤ bound := by
  have sub : addresses F ⊆ Finset.range bound := fun x mem => by
    obtain ⟨r, inF, -, below⟩ := mem_addresses.1 mem
    exact mem_range.2 (below.trans_le (inside r inF))
  simpa [card_addresses apart] using card_le_card sub

/-! ## Maximal runs -/

/-- Nonempty extents that neither overlap nor touch. -/
structure Separated (F : Finset Extent) : Prop where
  pos : ∀ r ∈ F, 0 < r.2
  separate : ∀ r ∈ F, ∀ q ∈ F, r ≠ q → r.Separate q

namespace Separated

variable {F G : Finset Extent}

theorem maximalRun (sep : Separated F) {r : Extent} (mem : r ∈ F) :
    MaximalRun (Covered F) r := by
  have rpos := sep.pos r mem
  refine ⟨rpos, fun x covers => ⟨r, mem, covers⟩, ?_, ?_⟩
  · rintro ⟨q, qmem, qlow, qhigh⟩
    rcases eq_or_ne r q with rfl | ne
    · omega
    · rcases sep.separate r mem q qmem ne with h | h <;> omega
  · rintro start ⟨q, qmem, qlow, qhigh⟩
    rcases eq_or_ne r q with rfl | ne
    · omega
    · rcases sep.separate r mem q qmem ne with h | h <;> omega

/-- A maximal run starts where some member starts: its first address is covered by
a member `q`, and neither can begin before the other. -/
theorem mem_of_maximalRun (sep : Separated F) {r : Extent}
    (run : MaximalRun (Covered F) r) : r ∈ F := by
  obtain ⟨rpos, inside, afterEnd, beforeStart⟩ := run
  obtain ⟨q, qmem, qlow, qhigh⟩ := inside r.1 ⟨le_refl _, by omega⟩
  obtain ⟨-, qinside, qafter, qbefore⟩ := sep.maximalRun qmem
  have sameStart : q.1 = r.1 := by
    by_contra ne
    exact beforeStart (by omega) ⟨q, qmem, by omega, by omega⟩
  have sameLength : q.2 = r.2 := by
    rcases Nat.lt_trichotomy q.2 r.2 with shorter | same | longer
    · exact absurd (inside (q.1 + q.2) ⟨by omega, by omega⟩) qafter
    · exact same
    · exact absurd ⟨q, qmem, by omega, by omega⟩ afterEnd
  have same : q = r := Prod.ext sameStart sameLength
  exact same ▸ qmem

/-- **Members are exactly the maximal runs of the covered addresses.** -/
theorem mem_iff_maximalRun (sep : Separated F) (r : Extent) : r ∈ F ↔ MaximalRun (Covered F) r :=
  ⟨sep.maximalRun, sep.mem_of_maximalRun⟩

theorem eq_of_covered (sepF : Separated F) (sepG : Separated G)
    (same : ∀ x, Covered F x ↔ Covered G x) : F = G := by
  have samePred : Covered F = Covered G := funext fun x => propext (same x)
  ext r
  rw [sepF.mem_iff_maximalRun, sepG.mem_iff_maximalRun, samePred]

end Separated

/-! ## Cutting a block out of an extent -/

/-- What is left of `r` on both sides of a block of `size` bytes at `b`. -/
def Extent.around (r : Extent) (b size : ℕ) : Finset Extent :=
  ({(r.1, b - r.1), (b + size, r.1 + r.2 - (b + size))} : Finset Extent).filter (0 < ·.2)

theorem Extent.mem_around {r q : Extent} {b size : ℕ} : q ∈ r.around b size ↔
    0 < q.2 ∧ (q = (r.1, b - r.1) ∨ q = (b + size, r.1 + r.2 - (b + size))) := by
  simp [Extent.around, and_comm]

/-- The extents with what is left of `r` in its place. -/
def cutOut (F : Finset Extent) (r : Extent) (b size : ℕ) : Finset Extent :=
  F.erase r ∪ r.around b size

section CutOut

variable {F : Finset Extent} {r : Extent} {b size : ℕ}

theorem Separated.cutOut (sep : Separated F) (mem : r ∈ F) (pos : 0 < size) (low : r.1 ≤ b)
    (high : b + size ≤ r.1 + r.2) : Separated (cutOut F r b size) := by
  have within : ∀ q ∈ r.around b size, 0 < q.2 ∧ r.1 ≤ q.1 ∧ q.1 + q.2 ≤ r.1 + r.2 := by
    intro q piece
    obtain ⟨full, rfl | rfl⟩ := Extent.mem_around.1 piece <;> simp only at full ⊢ <;> omega
  have apart : ∀ q ∈ F.erase r, ∀ p ∈ r.around b size, q.Separate p := by
    intro q other p piece
    obtain ⟨ne, inF⟩ := mem_erase.1 other
    have outside := sep.separate q inF r mem ne
    have inside := within p piece
    simp only [Extent.Separate] at *
    omega
  refine ⟨fun q inCut => ?_, fun q inCut p inCut' ne => ?_⟩
  · rcases mem_union.1 inCut with other | piece
    · exact sep.pos q (mem_of_mem_erase other)
    · exact (within q piece).1
  · rcases mem_union.1 inCut with other | piece <;>
      rcases mem_union.1 inCut' with other' | piece'
    · exact sep.separate q (mem_of_mem_erase other) p (mem_of_mem_erase other') ne
    · exact apart q other p piece'
    · exact Or.symm (apart p other' q piece)
    · obtain ⟨full, rfl | rfl⟩ := Extent.mem_around.1 piece <;>
        obtain ⟨full', rfl | rfl⟩ := Extent.mem_around.1 piece'
      · exact absurd rfl ne
      · exact .inl (by simp only at full ⊢; omega)
      · exact .inr (by simp only at full' ⊢; omega)
      · exact absurd rfl ne

theorem covered_cutOut (mem : r ∈ F) (apart : PairwiseApart F) (low : r.1 ≤ b)
    (high : b + size ≤ r.1 + r.2) (x : ℕ) :
    Covered (cutOut F r b size) x ↔ Covered F x ∧ ¬Extent.Covers (b, size) x := by
  have pieces : Covered (r.around b size) x ↔ r.Covers x ∧ ¬Extent.Covers (b, size) x := by
    constructor
    · rintro ⟨q, piece, covers⟩
      obtain ⟨full, rfl | rfl⟩ := Extent.mem_around.1 piece <;>
        simp only [Extent.Covers] at covers full ⊢ <;> omega
    · rintro ⟨covers, outside⟩
      simp only [Extent.Covers] at covers outside
      rcases Nat.lt_or_ge x b with before | behind
      · exact ⟨(r.1, b - r.1), Extent.mem_around.2 ⟨by simp only; omega, .inl rfl⟩,
          ⟨covers.1, by simp only; omega⟩⟩
      · exact ⟨_, Extent.mem_around.2 ⟨by simp only; omega, .inr rfl⟩,
          ⟨by simp only; omega, by simp only; omega⟩⟩
  have union : Covered (cutOut F r b size) x ↔
      Covered (F.erase r) x ∨ Covered (r.around b size) x := by
    simp only [Covered, cutOut, mem_union]
    constructor
    · rintro ⟨q, inLeft | inRight, covers⟩
      · exact .inl ⟨q, inLeft, covers⟩
      · exact .inr ⟨q, inRight, covers⟩
    · rintro (⟨q, inLeft, covers⟩ | ⟨q, inRight, covers⟩)
      · exact ⟨q, .inl inLeft, covers⟩
      · exact ⟨q, .inr inRight, covers⟩
  have others : Covered (F.erase r) x → ¬Extent.Covers (b, size) x := by
    rintro ⟨q, other, covers⟩ inBlock
    obtain ⟨ne, inF⟩ := mem_erase.1 other
    refine (apart q inF r mem ne).not_covers covers ?_
    simp only [Extent.Covers] at inBlock ⊢
    omega
  rw [union, pieces, covered_erase mem]
  tauto

end CutOut

end MiniOsv.Theory
