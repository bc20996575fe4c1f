/-
# Theory.Transition -- step relations and what every run keeps

A component that takes step after step is a relation `step` on its states and a
set of initial states.  `Reachable init step s` says that some run ends in `s`.
The one induction over runs is done here (`Reachable.invariant`): a property of
the initial states that every step keeps holds in every reachable state.
-/
import Mathlib.Logic.Relation

namespace MiniOsv.Theory

universe u

variable {σ : Type u}

/-- The states that runs of `step` from a state in `init` end in. -/
inductive Reachable (init : σ → Prop) (step : σ → σ → Prop) : σ → Prop
  | start {s : σ} (initial : init s) : Reachable init step s
  | next {s t : σ} (reached : Reachable init step s) (taken : step s t) : Reachable init step t

namespace Reachable

variable {init : σ → Prop} {step : σ → σ → Prop}

/-- **The invariant rule.**  The step hypothesis may use that its source state is
reachable, so one invariant can be proved on top of another. -/
theorem invariant {I : σ → Prop} (base : ∀ s, init s → I s)
    (keep : ∀ s t, Reachable init step s → I s → step s t → I t) {s : σ}
    (reached : Reachable init step s) : I s := by
  induction reached with
  | start initial => exact base _ initial
  | next reached taken ih => exact keep _ _ reached ih taken

/-- A run of a stricter relation is a run of the wider one. -/
theorem mono {step' : σ → σ → Prop} (wider : ∀ s t, step s t → step' s t) {s : σ}
    (reached : Reachable init step s) : Reachable init step' s := by
  induction reached with
  | start initial => exact .start initial
  | next _ taken ih => exact ih.next (wider _ _ taken)

/-- Any number of further steps stays reachable. -/
theorem trans {s t : σ} (reached : Reachable init step s)
    (run : Relation.ReflTransGen step s t) : Reachable init step t := by
  induction run with
  | refl => exact reached
  | tail _ taken ih => exact ih.next taken

section

variable {ε : Type*} {act : σ → ε → Option σ} {allowed : σ → ε → Prop} {list : List ε} {s t : σ}

/-- Where a list of events leads is reachable, if every one of them is a step. -/
theorem run (reached : Reachable init step s)
    (steps : ∀ event ∈ list, ∀ s t, act s event = some t → step s t)
    (run : list.foldlM act s = some t) : Reachable init step t := by
  induction list generalizing s with
  | nil => exact Option.some.inj run ▸ reached
  | cons event list ih =>
    rw [List.foldlM_cons] at run
    obtain ⟨next, taken, run⟩ := Option.bind_eq_some_iff.1 run
    exact ih (reached.next (steps event List.mem_cons_self _ _ taken))
      (fun event mem => steps event (List.mem_cons_of_mem _ mem)) run

theorem events (reached : Reachable init (fun s t => ∃ event, act s event = some t) s)
    (run : list.foldlM act s = some t) :
    Reachable init (fun s t => ∃ event, act s event = some t) t :=
  reached.run (fun event _ _ _ taken => ⟨event, taken⟩) run

variable (reached : Reachable init (fun s t => ∃ event, allowed s event ∧ act s event = some t) s)

include reached

/-- The events of the list are allowed in any state. -/
theorem freeEvents (list : List ε) (free : ∀ s, ∀ event ∈ list, allowed s event)
    (run : list.foldlM act s = some t) :
    Reachable init (fun s t => ∃ event, allowed s event ∧ act s event = some t) t :=
  reached.run (fun event mem s _ taken => ⟨event, free s event mem, taken⟩) run

/-- Each event is tested before it happens. -/
theorem testedEvents [∀ s event, Decidable (allowed s event)]
    (run : list.foldlM (fun s event => if allowed s event then act s event else none) s = some t) :
    Reachable init (fun s t => ∃ event, allowed s event ∧ act s event = some t) t :=
  reached.run (fun event _ _ _ taken => ⟨event, Option.ite_none_right_eq_some.1 taken⟩) run

end

end Reachable

end MiniOsv.Theory
