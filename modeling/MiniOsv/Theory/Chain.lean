/-
# Theory.Chain -- singly linked lists in a memory of next pointers

A memory of next pointers is a function `next : α → Option α`, `none` being the null
pointer.  `Segment next p l q` says that from `p` the pointers run through the nodes of
`l` in order and arrive at `q`; a whole list is a segment that ends at `none`.  A write
to a node outside the list keeps the segment (`Segment.update`), and a list without
repetition can be cut at any place (`segment_append`), so changes in the middle of a
list are changes of two neighbours.
-/
import Mathlib.Data.List.Nodup

namespace MiniOsv.Theory

open List Function

universe u

variable {α : Type u}

/-- From `p` the pointers of `next` run through the list and arrive at the last argument. -/
def Segment (next : α → Option α) : Option α → List α → Option α → Prop
  | p, [], q => p = q
  | p, a :: l, q => p = some a ∧ Segment next (next a) l q

namespace Segment

variable {next next' : α → Option α} {p q r : Option α} {l l₁ l₂ : List α} {a : α}

@[simp]
theorem nil : Segment next p [] q ↔ p = q :=
  Iff.rfl

@[simp]
theorem cons : Segment next p (a :: l) q ↔ p = some a ∧ Segment next (next a) l q :=
  Iff.rfl

theorem append : Segment next p (l₁ ++ l₂) r ↔ ∃ q, Segment next p l₁ q ∧ Segment next q l₂ r := by
  induction l₁ generalizing p with
  | nil => simp
  | cons a l₁ ih => simp [ih, and_assoc]

/-- The last node of a segment points to where the segment arrives. -/
theorem concat : Segment next p (l ++ [a]) r ↔ Segment next p l (some a) ∧ next a = r := by
  simp [append]

/-- Only the pointers of the nodes on a segment matter to it. -/
theorem congr (same : ∀ a ∈ l, next' a = next a) (segment : Segment next p l q) :
    Segment next' p l q := by
  induction l generalizing p with
  | nil => exact segment
  | cons a l ih =>
    obtain ⟨first, rest⟩ := segment
    refine ⟨first, ?_⟩
    rw [same a mem_cons_self]
    exact ih (fun b mem => same b (mem_cons_of_mem _ mem)) rest

theorem update [DecidableEq α] (outside : a ∉ l) (segment : Segment next p l q) :
    Segment (update next a r) p l q :=
  segment.congr fun _ mem =>
    update_of_ne (ne_of_mem_of_not_mem mem outside) _ _

theorem head (segment : Segment next p (a :: l) q) : p = some a :=
  segment.1

/-- A whole list is empty exactly when its head is null. -/
theorem eq_nil_iff (segment : Segment next p l none) : l = [] ↔ p = none := by
  cases l with
  | nil => simpa using segment
  | cons a l => simp [segment.head]

theorem exists_cons (segment : Segment next (some a) l none) :
    ∃ rest, l = a :: rest ∧ Segment next (next a) rest none := by
  cases l with
  | nil => cases segment
  | cons b l =>
    obtain ⟨first, rest⟩ := segment
    cases first
    exact ⟨l, rfl, rest⟩

/-- The pointer at the start leads to a node of the segment or to where it arrives. -/
theorem mem_of_start (segment : Segment next p l q) (start : a ∈ p.toList) :
    a ∈ l ∨ a ∈ q.toList := by
  cases l with
  | nil =>
    rw [← nil.1 segment]
    exact .inr start
  | cons b l =>
    rw [segment.head] at start
    simp_all

/-- A write to the last node of a segment redirects the segment. -/
theorem redirect [DecidableEq α] (segment : Segment next p (l ++ [a]) q) (fresh : a ∉ l) :
    Segment (Function.update next a r) p (l ++ [a]) r :=
  concat.2 ⟨(concat.1 segment).1.update fresh, Function.update_self _ _ _⟩

end Segment

/-! ## Taking the first matches out of a queue -/

/-- The queue without the first `n` of its elements that satisfy `test`. -/
def dropMatches (test : α → Bool) : ℕ → List α → List α
  | _, [] => []
  | 0, a :: l => a :: l
  | n + 1, a :: l => if test a then dropMatches test n l else a :: dropMatches test (n + 1) l

/-- The first `n` elements of the queue that satisfy `test`. -/
def takeMatches (test : α → Bool) (n : ℕ) (l : List α) : List α :=
  (l.filter test).take n

section Matches

variable {test : α → Bool} {n : ℕ} {l : List α} {a : α}

@[simp]
theorem dropMatches_zero : dropMatches test 0 l = l := by
  cases l <;> rfl

@[simp]
theorem takeMatches_zero : takeMatches test 0 l = [] :=
  take_zero

theorem takeMatches_cons_pos (hit : test a = true) :
    takeMatches test (n + 1) (a :: l) = a :: takeMatches test n l := by
  rw [takeMatches, filter_cons_of_pos hit, take_succ_cons, takeMatches]

theorem takeMatches_cons_neg (miss : test a = false) :
    takeMatches test n (a :: l) = takeMatches test n l := by
  rw [takeMatches, filter_cons_of_neg (by simp [miss]), takeMatches]

theorem dropMatches_cons_pos (hit : test a = true) :
    dropMatches test (n + 1) (a :: l) = dropMatches test n l :=
  if_pos hit

theorem dropMatches_cons_neg (miss : test a = false) :
    dropMatches test n (a :: l) = a :: dropMatches test n l := by
  cases n with
  | zero => rw [dropMatches_zero, dropMatches_zero]
  | succ n => exact if_neg (by simp [miss])

theorem takeMatches_sublist : (takeMatches test n l).Sublist l :=
  (take_sublist n _).trans filter_sublist

theorem takeMatches_of_none (none : ∀ a ∈ l, test a = false) : takeMatches test n l = [] := by
  rw [takeMatches, filter_eq_nil_iff.2 fun a mem => by simp [none a mem], take_nil]

theorem dropMatches_of_none (none : ∀ a ∈ l, test a = false) : dropMatches test n l = l := by
  induction l with
  | nil => rfl
  | cons a l ih =>
    rw [dropMatches_cons_neg (none a mem_cons_self),
      ih fun b mem => none b (mem_cons_of_mem _ mem)]

theorem dropMatches_sublist : (dropMatches test n l).Sublist l := by
  induction l generalizing n with
  | nil => exact .refl _
  | cons a l ih =>
    cases n with
    | zero => simp
    | succ n =>
      cases hit : test a with
      | true =>
        rw [dropMatches_cons_pos hit]
        exact ih.cons a
      | false =>
        rw [dropMatches_cons_neg hit]
        exact ih.cons_cons a

theorem takeMatches_map {β : Type*} {test : β → Bool} (f : α → β) :
    takeMatches test n (l.map f) = (takeMatches (test ∘ f) n l).map f := by
  rw [takeMatches, takeMatches, filter_map, map_take]

theorem dropMatches_map {β : Type*} {test : β → Bool} (f : α → β) :
    dropMatches test n (l.map f) = (dropMatches (test ∘ f) n l).map f := by
  induction l generalizing n with
  | nil => rfl
  | cons a l ih =>
    cases n with
    | zero => simp
    | succ n => cases hit : test (f a) <;> simp [dropMatches, hit, ih]

/-- What is left is what was not taken. -/
theorem dropMatches_eq_filter [DecidableEq α] (nodup : l.Nodup) :
    dropMatches test n l = l.filter fun a => decide (a ∉ takeMatches test n l) := by
  induction l generalizing n with
  | nil => cases n <;> rfl
  | cons a l ih =>
    obtain ⟨fresh, nodup⟩ := nodup_cons.1 nodup
    have notTaken : ∀ k, a ∉ takeMatches test k l := fun k mem =>
      fresh (takeMatches_sublist.subset mem)
    cases n with
    | zero => simp
    | succ n =>
      cases hit : test a with
      | true =>
        rw [dropMatches_cons_pos hit, takeMatches_cons_pos hit,
          filter_cons_of_neg (by simp), ih nodup]
        refine filter_congr fun b mem => ?_
        have ne : b ≠ a := ne_of_mem_of_not_mem mem fresh
        simp [ne]
      | false =>
        rw [dropMatches_cons_neg hit, takeMatches_cons_neg hit,
          filter_cons_of_pos (by simpa using notTaken _), ih nodup]

/-- Taken and left elements together are the queue. -/
theorem perm_takeMatches_append : (takeMatches test n l ++ dropMatches test n l).Perm l := by
  induction l generalizing n with
  | nil => cases n <;> exact .refl _
  | cons a l ih =>
    cases n with
    | zero => simp
    | succ n =>
      cases hit : test a with
      | true =>
        rw [dropMatches_cons_pos hit, takeMatches_cons_pos hit, cons_append]
        exact (ih).cons a
      | false =>
        rw [dropMatches_cons_neg hit, takeMatches_cons_neg hit]
        exact perm_middle.trans (ih.cons a)

end Matches

end MiniOsv.Theory
