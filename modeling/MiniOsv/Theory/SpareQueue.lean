/-
# Theory.SpareQueue -- intrusive queues that trade nodes with their elements

A family of queues over one set of elements.  A queue is a chain of nodes from `head` to `tail`,
where the tail points to nothing.  An element has one link: the node that follows it, and a spare
node.  A push gives the spare node of the element to the queue as its new tail, and the element
keeps the old tail, which is the node that points to it and is free once it has been popped.

So the spare nodes of all elements and the tails of all queues are always distinct, whatever is
pushed (`Apart.push`).  The chain of a queue reads its contents (`Represents`) as long as no
element is pushed that is linked already (`Represents.push`, `Represents.pop`).
-/
import Mathlib.Logic.Function.Basic
import Mathlib.Tactic.SplitIfs

namespace MiniOsv.Theory.SpareQueue

open Function

universe u v w

structure Links (ι : Type u) (κ : Type v) (ν : Type w) where
  head : ι → ν
  tail : ι → ν
  next : ν → Option κ
  spare : κ → ν
  follow : κ → ν

variable {ι : Type u} {κ : Type v} {ν : Type w}

namespace Links

def front (s : Links ι κ ν) (q : ι) : Option κ := s.next (s.head q)

variable [DecidableEq ι]

def pop (s : Links ι κ ν) (q : ι) (x : κ) : Links ι κ ν :=
  { s with head := update s.head q (s.follow x) }

variable [DecidableEq κ] [DecidableEq ν]

def push (s : Links ι κ ν) (q : ι) (x : κ) : Links ι κ ν :=
  { s with
    follow := update s.follow x (s.spare x)
    spare := update s.spare x (s.tail q)
    next := update (update s.next (s.spare x) none) (s.tail q) (some x)
    tail := update s.tail q (s.spare x) }

end Links

/-- The nodes of a chain: each element is behind its spare node. -/
def Walk (s : Links ι κ ν) : ν → List κ → ν → Prop
  | n, [], m => n = m ∧ s.next n = none
  | n, x :: xs, m => s.next n = some x ∧ s.spare x = n ∧ Walk s (s.follow x) xs m

/-- The spare nodes and the tails are distinct. -/
structure Apart (s : Links ι κ ν) : Prop where
  spares : Function.Injective s.spare
  tails : Function.Injective s.tail
  between : ∀ x q, s.spare x ≠ s.tail q

/-- The chain of each queue reads its contents. -/
structure Represents (s : Links ι κ ν) (contents : ι → List κ) : Prop where
  apart : Apart s
  walk : ∀ q, Walk s (s.head q) (contents q) (s.tail q)

theorem Represents.front {s : Links ι κ ν} {contents : ι → List κ} (rep : Represents s contents)
    (q : ι) : s.front q = (contents q).head? := by
  have walk := rep.walk q
  unfold Links.front
  cases list : contents q with
  | nil => rw [list] at walk; exact walk.2
  | cons x xs => rw [list] at walk; exact walk.1

section Pop

variable [DecidableEq ι]

theorem Walk.of_pop {s : Links ι κ ν} {q : ι} {x : κ} {n m : ν} {xs : List κ}
    (walk : Walk s n xs m) : Walk (s.pop q x) n xs m := by
  induction xs generalizing n with
  | nil => exact walk
  | cons y ys ih => exact ⟨walk.1, walk.2.1, ih walk.2.2⟩

/-- **A pop takes the first element off.** -/
theorem Represents.pop {s : Links ι κ ν} {contents : ι → List κ} (rep : Represents s contents)
    {q : ι} {x : κ} {xs : List κ} (first : contents q = x :: xs) :
    Represents (s.pop q x) (update contents q xs) := by
  refine ⟨⟨rep.apart.spares, rep.apart.tails, rep.apart.between⟩, fun p => ?_⟩
  have walk := rep.walk p
  by_cases same : p = q
  · subst same
    rw [first] at walk
    simp only [Links.pop, update_self]
    exact walk.2.2.of_pop
  · simp only [Links.pop, update_of_ne same]
    exact walk.of_pop

end Pop

section Push

variable [DecidableEq ι] [DecidableEq κ] [DecidableEq ν] {s : Links ι κ ν}

/-- A push exchanges the spare node of the element with the tail of the queue. -/
theorem Apart.push (apart : Apart s) (q : ι) (x : κ) : Apart (s.push q x) := by
  refine ⟨fun y z same => ?_, fun p r same => ?_, fun y p same => ?_⟩ <;> simp only [Links.push, update_apply] at same
  · split_ifs at same with hy hz hz
    · exact hy.trans hz.symm
    · exact absurd same.symm (apart.between z q)
    · exact absurd same (apart.between y q)
    · exact apart.spares same
  · split_ifs at same with hp hr hr
    · exact hp.trans hr.symm
    · exact absurd same (apart.between x r)
    · exact absurd same.symm (apart.between x p)
    · exact apart.tails same
  · split_ifs at same with hy hp hp
    · exact apart.between x q same.symm
    · exact hp (apart.tails same).symm
    · exact hy (apart.spares same)
    · exact apart.between y p same

/-- A chain without the pushed element is touched at its end only. -/
theorem Walk.pushed (apart : Apart s) {q : ι} {x : κ} {n e e' : ν} {xs more : List κ}
    (fresh : x ∉ xs) (last : ∀ m, Walk s m [] e → Walk (s.push q x) m more e')
    (walk : Walk s n xs e) : Walk (s.push q x) n (xs ++ more) e' := by
  induction xs generalizing n with
  | nil => exact last n walk
  | cons y ys ih =>
    obtain ⟨pointed, rfl, rest⟩ := walk
    have other : y ≠ x := fun same => fresh (same ▸ List.mem_cons_self)
    refine ⟨?_, ?_, ?_⟩
    · simp only [Links.push]
      rw [update_of_ne (apart.between y q), update_of_ne (apart.spares.ne other), pointed]
    · simp only [Links.push, update_of_ne other]
    · have follow : (s.push q x).follow y = s.follow y := update_of_ne other _ _
      rw [follow]
      exact ih (fun mem => fresh (List.mem_cons_of_mem _ mem)) rest

/-- The chain of another queue is not touched. -/
theorem Walk.of_push (apart : Apart s) {p q : ι} (ne : p ≠ q) {x : κ} {n : ν} {xs : List κ}
    (fresh : x ∉ xs) (walk : Walk s n xs (s.tail p)) : Walk (s.push q x) n xs (s.tail p) := by
  rw [← List.append_nil xs]
  refine walk.pushed apart fresh fun m ⟨start, last⟩ => ⟨start, ?_⟩
  subst start
  simp only [Links.push]
  rw [update_of_ne (apart.tails.ne ne), update_of_ne (apart.between x p).symm, last]

/-- The chain of the queue gets the element at its end. -/
theorem Walk.push (apart : Apart s) {q : ι} {x : κ} {n : ν} {xs : List κ} (fresh : x ∉ xs)
    (walk : Walk s n xs (s.tail q)) : Walk (s.push q x) n (xs ++ [x]) ((s.push q x).tail q) := by
  refine walk.pushed apart fresh fun m ⟨start, _⟩ => ?_
  subst start
  refine ⟨?_, ?_, ?_, ?_⟩ <;> simp only [Links.push, update_self]
  rw [update_of_ne (apart.between x q), update_self]

/-- **A push appends an element that is in no queue.** -/
theorem Represents.push {contents : ι → List κ} (rep : Represents s contents) {q : ι} {x : κ}
    (fresh : ∀ p, x ∉ contents p) :
    Represents (s.push q x) (update contents q (contents q ++ [x])) := by
  refine ⟨rep.apart.push q x, fun p => ?_⟩
  by_cases same : p = q
  · subst same
    rw [update_self]
    exact (rep.walk p).push rep.apart (fresh p)
  · rw [update_of_ne same]
    have tail : (s.push q x).tail p = s.tail p := update_of_ne same _ _
    rw [tail]
    exact (rep.walk p).of_push rep.apart same (fresh p)

end Push

end MiniOsv.Theory.SpareQueue
