/-
# Theory.KeyedList -- ordered sets of records with a key

A tree-backed ordered set with unique keys is the list of its elements in iteration
order.  Insertion keeps an element that is already there with the same key, as `std::set`
and `boost::intrusive::set` do.  Searches are followed on a list that is cut at the element
in question.
-/
import Mathlib.Data.List.Basic
import Mathlib.Data.List.TakeWhile

namespace MiniOsv.Theory

open List Option

universe u

variable {α : Type u} (key : α → ℕ)

/-- The keys increase strictly. -/
def Keyed (l : List α) : Prop := l.Pairwise fun a b => key a < key b

def insertKey (a : α) : List α → List α
  | [] => [a]
  | b :: l =>
    if key a < key b then a :: b :: l
    else if key a = key b then b :: l
    else b :: insertKey a l

variable {key} {l before after : List α} {a : α}

/-! ## Order -/

theorem Keyed.eq_of_key (keyed : Keyed key l) {x y : α} (memX : x ∈ l) (memY : y ∈ l)
    (same : key x = key y) : x = y := by
  induction l with
  | nil => simp at memX
  | cons b l ih =>
    obtain ⟨below, rest⟩ := pairwise_cons.1 keyed
    rcases mem_cons.1 memX with rfl | deepX <;> rcases mem_cons.1 memY with rfl | deepY
    · rfl
    · exact absurd same (below y deepY).ne
    · exact absurd same (below x deepX).ne'
    · exact ih rest deepX deepY

/-! ## Lists cut at an element -/

theorem Keyed.append (keyed : Keyed key (before ++ a :: after)) :
    (∀ b ∈ before, key b < key a) ∧ (∀ b ∈ after, key a < key b) := by
  obtain ⟨-, rest, across⟩ := pairwise_append.1 keyed
  exact ⟨fun b mem => across b mem a mem_cons_self, (pairwise_cons.1 rest).1⟩

section

variable (keyed : Keyed key (before ++ a :: after))

include keyed

theorem Keyed.find_append :
    (before ++ a :: after).find? (fun b => decide (key b = key a)) = some a := by
  obtain ⟨below, -⟩ := keyed.append
  rw [List.find?_append, List.find?_eq_none.2]
  · simp
  · exact fun b mem => by simpa using (below b mem).ne

theorem Keyed.prev_append :
    (before ++ a :: after).filter (fun b => decide (key b < key a)) = before := by
  obtain ⟨below, above⟩ := keyed.append
  rw [filter_append, filter_cons_of_neg (by simp), filter_eq_self.2,
    filter_eq_nil_iff.2, append_nil]
  · exact fun b mem => by simpa using (above b mem).le
  · exact fun b mem => by simpa using below b mem

end

theorem find_le_append {k : ℕ} (below : ∀ b ∈ before, key b < k) (above : ∀ b ∈ after, k ≤ key b) :
    (before ++ after).find? (fun b => decide (k ≤ key b)) = after.head? := by
  rw [List.find?_append, List.find?_eq_none.2]
  · rw [none_or]
    cases after with
    | nil => rfl
    | cons b after => exact List.find?_cons_of_pos (by simpa using above b mem_cons_self)
  · exact fun b mem => by simpa using below b mem

/-- A property that is lost for good along the list splits it. -/
theorem not_of_mem_dropWhile {R : α → α → Prop} {p : α → Bool} (sorted : l.Pairwise R)
    (lost : ∀ a ∈ l, ∀ b ∈ l, R a b → p a = false → p b = false) :
    ∀ b ∈ l.dropWhile p, p b = false := by
  induction l with
  | nil => simp
  | cons a l ih =>
    obtain ⟨first, rest⟩ := pairwise_cons.1 sorted
    cases holds : p a with
    | true =>
      rw [dropWhile_cons_of_pos holds]
      exact ih rest fun b memB c memC =>
        lost b (mem_cons_of_mem _ memB) c (mem_cons_of_mem _ memC)
    | false =>
      rw [dropWhile_cons_of_neg (by simp [holds])]
      intro b mem
      rcases mem_cons.1 mem with rfl | deep
      · exact holds
      · exact lost a mem_cons_self b mem (first b deep) holds

theorem Keyed.lowerBound (keyed : Keyed key l) (k : ℕ) :
    ∃ below above, l = below ++ above ∧ (∀ b ∈ below, key b < k) ∧ (∀ b ∈ above, k ≤ key b) ∧
      l.takeWhile (fun b => decide (key b < k)) = below ∧
      l.dropWhile (fun b => decide (key b < k)) = above := by
  refine ⟨_, _, takeWhile_append_dropWhile.symm, ?_, ?_, rfl, rfl⟩ <;> intro b mem
  · simpa using mem_takeWhile_imp mem
  · have past := not_of_mem_dropWhile keyed (p := fun b => decide (key b < k)) ?_ b mem
    · simpa using past
    · intro a _ b _ lt above
      simp only [decide_eq_false_iff_not] at above ⊢
      omega

end MiniOsv.Theory
