/-
# Libc.PthreadOnce -- pthread_once and its one list of waiters

All once controls share a mutex and a list of waiters.  The first call of a control runs
the init routine without the mutex; calls that come meanwhile put a node in front of the
list and sleep.  When the routine has returned, the call goes through the list, wakes the
waiters of its control and takes their nodes out.

The loop takes a node out by `*p = (*p)->next` and then goes on with `p = &((*p)->next)`,
so the node behind one that was taken out is never looked at (`sweep`).  With two waiters
of the control side by side the second is left asleep.  As long as no finishing call finds
such a pair the protocol keeps its promise (`waiters_released`).
-/
import Mathlib.Data.List.Chain
import MiniOsv.Theory.Transition

namespace MiniOsv.Libc.PthreadOnce

open Theory Function List

/-- Where a call of `pthread_once` is. -/
inductive Pc where
  | outside
  /-- In `init_routine`, without the mutex. -/
  | initialising
  /-- In `wait_until`; `woken` is a wake the thread has not acted on. -/
  | waiting (woken : Bool)
  | returned (code : ℕ)
  deriving DecidableEq

def Pc.wake : Pc → Pc
  | .waiting _ => .waiting true
  | pc => pc

def einval : ℕ := 22

/-- `runs` and `finished` count how often the routine of a control was called and has
returned. -/
structure State (ι κ : Type) where
  onceControl : κ → ℕ
  waiterlist : List ι
  pcs : ι → Pc
  runs : κ → ℕ
  finished : κ → ℕ

open State

inductive Event (ι : Type) where
  /-- The call up to the first release of the mutex. -/
  | enter (i : ι)
  /-- The routine has returned: the second locked section. -/
  | finish (i : ι)
  /-- A woken waiter has the mutex and tests its control. -/
  | look (i : ι)
  | wake (i : ι)

section

variable {ι κ : Type} [DecidableEq κ] (control : ι → κ)

/-- The loop over the waiters: the nodes that stay and those that are woken and freed. -/
def sweep (c : κ) : List ι → List ι × List ι
  | [] => ([], [])
  | [w] => if control w = c then ([], [w]) else ([w], [])
  | w :: next :: rest =>
    -- `*p` is `next` now, and the loop goes on behind it
    if control w = c then (next :: (sweep c rest).1, w :: (sweep c rest).2)
    else (w :: (sweep c (next :: rest)).1, (sweep c (next :: rest)).2)

variable [DecidableEq ι]

namespace State

/-- The call has the mutex, and its control is to be initialised. -/
def initialise (s : State ι κ) (i : ι) : State ι κ :=
  { s with
    onceControl := update s.onceControl (control i) 1
    pcs := update s.pcs i .initialising
    runs := update s.runs (control i) (s.runs (control i) + 1) }

def goto (s : State ι κ) (i : ι) (pc : Pc) : State ι κ :=
  { s with pcs := update s.pcs i pc }

def finish (s : State ι κ) (i : ι) : State ι κ :=
  { onceControl := update s.onceControl (control i) 2
    waiterlist := (sweep control (control i) s.waiterlist).1
    pcs := fun j =>
      if j = i then .returned 0
      else if j ∈ (sweep control (control i) s.waiterlist).2 then (s.pcs j).wake
      else s.pcs j
    runs := s.runs
    finished := update s.finished (control i) (s.finished (control i) + 1) }

def step (s : State ι κ) : Event ι → Option (State ι κ)
  | .enter i =>
    if s.pcs i ≠ .outside then none
    else if s.onceControl (control i) = 2 then some (s.goto i (.returned 0))
    else if s.onceControl (control i) = 1 then
      some { s.goto i (.waiting false) with waiterlist := i :: s.waiterlist }
    else if s.onceControl (control i) ≠ 0 then some (s.goto i (.returned einval))
    else some (s.initialise control i)
  | .finish i => if s.pcs i = .initialising then some (s.finish control i) else none
  | .look i =>
    if s.pcs i = .waiting true then
      if s.onceControl (control i) = 1 then some (s.goto i (.waiting false))
      else if s.onceControl (control i) = 2 then some (s.goto i (.returned 0))
      else some (s.initialise control i)
    else none
  | .wake i => some (s.goto i (s.pcs i).wake)

/-- All controls are `PTHREAD_ONCE_INIT`. -/
structure Initial (s : State ι κ) : Prop where
  onceControl : s.onceControl = fun _ => 0
  waiterlist : s.waiterlist = []
  pcs : s.pcs = fun _ => .outside
  runs : s.runs = fun _ => 0
  finished : s.finished = fun _ => 0

end State

/-- No two waiters side by side are both of control `c`. -/
def Spaced (c : κ) (waiterlist : List ι) : Prop :=
  waiterlist.IsChain fun v w => ¬ (control v = c ∧ control w = c)

/-- The steps, where a finishing call finds the waiters of its control apart. -/
def SpacedStep (s t : State ι κ) : Prop :=
  ∃ event, (∀ i, event = .finish i → Spaced control (control i) s.waiterlist) ∧
    s.step control event = some t

/-! ## What is promised -/

/-- The promise in one state. -/
structure Served (s : State ι κ) : Prop where
  atMostOnce : ∀ c, s.runs c ≤ 1
  called : ∀ i, s.pcs i ≠ .outside → s.runs (control i) = 1
  notEarly : ∀ i code, s.pcs i = .returned code → code = 0 ∧ s.finished (control i) = 1
  unlinked : ∀ i ∈ s.waiterlist, s.finished (control i) = 0
  awake : ∀ i woken, s.pcs i = .waiting woken → s.finished (control i) = 1 → woken = true
  linked : ∀ i woken, s.pcs i = .waiting woken → s.finished (control i) = 0 → i ∈ s.waiterlist

/-- What the finishing call `i` does to the waiters: its own are woken and unlinked, the
others are left alone. -/
structure Released (s : State ι κ) (i : ι) (t : State ι κ) : Prop where
  list : t.waiterlist = s.waiterlist.filter fun j => control j ≠ control i
  own : ∀ j woken, s.pcs j = .waiting woken → control j = control i → t.pcs j = .waiting true
  others : ∀ j, control j ≠ control i → t.pcs j = s.pcs j

/-! ## The loop -/

omit [DecidableEq ι] in
theorem sweep_of_spaced (c : κ) : ∀ {waiterlist : List ι}, Spaced control c waiterlist →
    sweep control c waiterlist =
      (waiterlist.filter fun j => control j ≠ c, waiterlist.filter fun j => control j = c)
  | [], _ => rfl
  | [w], _ => by
      by_cases own : control w = c <;> simp [sweep, own]
  | w :: next :: rest, spaced => by
      have tail : Spaced control c (next :: rest) := (isChain_cons_cons.mp spaced).2
      by_cases own : control w = c
      · -- the node that is skipped belongs to another control
        have other : control next ≠ c :=
          fun same => (isChain_cons_cons.mp spaced).1 ⟨own, same⟩
        have behind : Spaced control c rest := List.IsChain.of_cons tail
        simp [sweep, own, other, sweep_of_spaced c behind]
      · simp only [sweep, if_neg own, sweep_of_spaced c tail]
        simp [own]

/-! ## The invariant -/

/-- What a call's place says about its control's value and about its node. -/
def Placed (linked : Prop) (value : ℕ) : Pc → Prop
  | .outside => ¬ linked
  | .initialising => value = 1 ∧ ¬ linked
  | .waiting woken => value = 1 ∧ linked ∨ value = 2 ∧ ¬ linked ∧ woken = true
  | .returned code => code = 0 ∧ value = 2 ∧ ¬ linked

/-- The value of a control tells how far its routine is. -/
def Counted (value runs finished : ℕ) : Prop :=
  value = 0 ∧ runs = 0 ∧ finished = 0 ∨ value = 1 ∧ runs = 1 ∧ finished = 0 ∨
    value = 2 ∧ runs = 1 ∧ finished = 1

structure Inv (s : State ι κ) : Prop where
  counted : ∀ c, Counted (s.onceControl c) (s.runs c) (s.finished c)
  placed : ∀ i, Placed (i ∈ s.waiterlist) (s.onceControl (control i)) (s.pcs i)
  entered : ∀ i, s.pcs i ≠ .outside → s.onceControl (control i) ≠ 0
  alone : ∀ i j, s.pcs i = .initialising → s.pcs j = .initialising →
    control i = control j → i = j

omit [DecidableEq κ] [DecidableEq ι] in
theorem Inv.initial {s : State ι κ} (initial : s.Initial) : Inv control s := by
  obtain ⟨onceControl, waiterlist, pcs, runs, finished⟩ := initial
  constructor
  · intro c
    simp [Counted, onceControl, runs, finished]
  · intro i
    simp [Placed, pcs, waiterlist]
  · intro i called
    exact absurd (congrFun pcs i) called
  · intro i j here
    rw [pcs] at here
    cases here

variable {control}

namespace Inv

variable {s : State ι κ}

section

variable (inv : Inv control s)

include inv

omit [DecidableEq κ] [DecidableEq ι] in
/-- A linked waiter sleeps, and its control is being initialised. -/
theorem of_linked {i : ι} (linked : i ∈ s.waiterlist) :
    s.onceControl (control i) = 1 ∧ ∃ woken, s.pcs i = .waiting woken := by
  have placed := inv.placed i
  cases pc : s.pcs i with rw [pc] at placed
  | outside =>
    exact absurd linked placed
  | initialising =>
    exact absurd linked placed.2
  | waiting woken =>
    rcases placed with ⟨value, _⟩ | ⟨_, unlinked, _⟩
    · exact ⟨value, woken, rfl⟩
    · exact absurd linked unlinked
  | returned code =>
    exact absurd linked placed.2.2

attribute [local simp] State.goto State.initialise

omit [DecidableEq κ] in
theorem goto {i : ι} {pc : Pc} (place : Placed (i ∈ s.waiterlist) (s.onceControl (control i)) pc)
    (entered : pc ≠ .outside → s.onceControl (control i) ≠ 0)
    (alone : pc = .initialising → s.pcs i = .initialising) : Inv control (s.goto i pc) := by
  have back : ∀ j, (s.goto i pc).pcs j = .initialising → s.pcs j = .initialising := by
    intro j here
    by_cases same : j = i
    · subst same
      exact alone (by simpa using here)
    · simpa [same] using here
  refine ⟨inv.counted, fun j => ?_, fun j => ?_,
    fun j k hj hk => inv.alone j k (back j hj) (back k hk)⟩
  all_goals obtain rfl | same := eq_or_ne j i
  · simpa using place
  · simpa [same] using inv.placed j
  · simpa using entered
  · simpa [same] using inv.entered j

omit [DecidableEq κ] in
/-- A call finds its control being initialised and links its node. -/
theorem link {i : ι} (value : s.onceControl (control i) = 1) :
    Inv control { s.goto i (.waiting false) with waiterlist := i :: s.waiterlist } := by
  refine ⟨inv.counted, fun j => ?_, fun j called => ?_, fun j k hj hk => ?_⟩
  all_goals obtain rfl | same := eq_or_ne j i
  · simp [Placed, value]
  · simpa [same] using inv.placed j
  · simp [value]
  · exact inv.entered j (by simpa [same] using called)
  · simp at hj
  · by_cases second : k = i
    · subst second
      simp at hk
    · exact inv.alone j k (by simpa [same] using hj) (by simpa [second] using hk)

theorem initialise {i : ι} (pc : s.pcs i = .outside)
    (value : s.onceControl (control i) = 0) : Inv control (s.initialise control i) := by
  -- no other call of the control has entered
  have fresh : ∀ j, control j = control i → s.pcs j = .outside := by
    intro j same
    by_contra called
    exact inv.entered j called (same ▸ value)
  have unlinked : ∀ j, control j = control i → j ∉ s.waiterlist := by
    intro j same
    have placed := inv.placed j
    rw [fresh j same] at placed
    exact placed
  refine ⟨fun c => ?_, fun j => ?_, fun j called => ?_, fun j k hj hk same => ?_⟩
  · by_cases own : c = control i
    · subst own
      rcases inv.counted (control i) with ⟨_, runs, finished⟩ | ⟨other, _⟩ | ⟨other, _⟩
      · simp [Counted, runs, finished]
      · omega
      · omega
    · simpa [own] using inv.counted c
  · by_cases here : j = i
    · subst here
      simpa [Placed] using unlinked j rfl
    · by_cases own : control j = control i
      · simpa [here, fresh j own, Placed] using unlinked j own
      · simpa [here, own] using inv.placed j
  · by_cases own : control j = control i
    · simp [own]
    · have here : j ≠ i := fun same => own (congrArg control same)
      have before := inv.entered j (by simpa [here] using called)
      simpa [own] using before
  · by_cases first : j = i <;> by_cases second : k = i
    · exact first.trans second.symm
    · subst first
      have := fresh k same.symm
      simp [second, this] at hk
    · subst second
      have := fresh j same
      simp [first, this] at hj
    · exact inv.alone j k (by simpa [first] using hj)
        (by simpa [second] using hk) same

theorem released {i : ι} (pc : s.pcs i = .initialising)
    (spaced : Spaced control (control i) s.waiterlist) :
    Released control s i (s.finish control i) := by
  have swept := sweep_of_spaced control (control i) spaced
  refine ⟨by rw [finish, swept], fun j woken waiting own => ?_, fun j other => ?_⟩
  · have here : j ≠ i := by
      rintro rfl
      rw [pc] at waiting
      cases waiting
    have linked : j ∈ s.waiterlist := by
      have placed := inv.placed j
      have value := inv.placed i
      rw [waiting, own] at placed
      rw [pc] at value
      rcases placed with ⟨_, linked⟩ | ⟨other, _⟩
      · exact linked
      · exact absurd (value.1.symm.trans other) (by decide)
    simp [finish, swept, here, linked, own, waiting, Pc.wake]
  · have here : j ≠ i := fun same => other (congrArg control same)
    simp [finish, swept, here, other]

omit [DecidableEq κ] [DecidableEq ι] in
theorem value_of_initialising {i : ι} (pc : s.pcs i = .initialising) :
    s.onceControl (control i) = 1 := by
  have placed := inv.placed i
  rw [pc] at placed
  exact placed.1

/-- Another call of the control has not begun, or it waits and is woken. -/
theorem finish_own {i j : ι} (pc : s.pcs i = .initialising)
    (spaced : Spaced control (control i) s.waiterlist) (own : control j = control i)
    (here : j ≠ i) :
    s.pcs j = .outside ∧ (s.finish control i).pcs j = .outside ∨
      (s.finish control i).pcs j = .waiting true := by
  have value := inv.value_of_initialising pc
  have placed := inv.placed j
  cases at_ : s.pcs j with
  | outside => exact .inl ⟨rfl, by simp [finish, here, at_, Pc.wake]⟩
  | initialising => exact absurd (inv.alone j i at_ pc own) here
  | waiting woken => exact .inr ((inv.released pc spaced).own j woken at_ own)
  | returned code =>
    rw [at_, own] at placed
    exact absurd (value.symm.trans placed.2.1) (by decide)

theorem finish {i : ι} (pc : s.pcs i = .initialising)
    (spaced : Spaced control (control i) s.waiterlist) : Inv control (s.finish control i) := by
  obtain ⟨list, -, others⟩ := inv.released pc spaced
  have value := inv.value_of_initialising pc
  have last : (s.finish control i).pcs i = .returned 0 := by simp [State.finish]
  have unlinked : ∀ j, control j = control i → j ∉ (s.finish control i).waiterlist := by
    intro j own
    simp [list, own]
  -- a call in its routine is one of another control
  have back : ∀ j, (s.finish control i).pcs j = .initialising →
      control j ≠ control i ∧ s.pcs j = .initialising := by
    intro j routine
    by_cases own : control j = control i
    · by_cases here : j = i
      · rw [here, last] at routine
        cases routine
      · rcases inv.finish_own pc spaced own here with ⟨_, after⟩ | after
        all_goals
          rw [after] at routine
          cases routine
    · exact ⟨own, (others j own) ▸ routine⟩
  refine ⟨fun c => ?_, fun j => ?_, fun j called => ?_, fun j k hj hk => ?_⟩
  · by_cases own : c = control i
    · subst own
      rcases inv.counted (control i) with ⟨other, _⟩ | ⟨_, runs, finished⟩ | ⟨other, _⟩
      · omega
      · simp [State.finish, Counted, runs, finished]
      · omega
    · simpa [State.finish, own] using inv.counted c
  · by_cases own : control j = control i
    · have done : (s.finish control i).onceControl (control j) = 2 := by simp [State.finish, own]
      rw [done]
      by_cases here : j = i
      · rw [here, last]
        exact ⟨rfl, rfl, unlinked i rfl⟩
      · rcases inv.finish_own pc spaced own here with ⟨_, after⟩ | after <;> rw [after]
        · exact unlinked j own
        · exact .inr ⟨rfl, unlinked j own, rfl⟩
    · have same : (s.finish control i).onceControl (control j) = s.onceControl (control j) := by
        simp [State.finish, own]
      have mem : j ∈ (s.finish control i).waiterlist ↔ j ∈ s.waiterlist := by
        simp [list, own]
      rw [same, others j own, mem]
      exact inv.placed j
  · by_cases own : control j = control i
    · simp [State.finish, own]
    · rw [others j own] at called
      simpa [State.finish, own] using inv.entered j called
  · exact inv.alone j k (back j hj).2 (back k hk).2

/-- **Every step keeps the invariant.** -/
theorem step {t : State ι κ} (taken : SpacedStep control s t) : Inv control t := by
  obtain ⟨event, spaced, taken⟩ := taken
  cases event with simp only [State.step] at taken
  | enter i =>
    split at taken
    case isTrue => cases taken
    case isFalse pc =>
      replace pc : s.pcs i = .outside := not_not.mp pc
      have unlinked : i ∉ s.waiterlist := by
        have placed := inv.placed i
        rw [pc] at placed
        exact placed
      split at taken
      case isTrue done =>
        cases taken
        exact inv.goto ⟨rfl, done, unlinked⟩ (fun _ => by omega) nofun
      case isFalse =>
        split at taken
        case isTrue value =>
          cases taken
          exact inv.link value
        case isFalse =>
          split at taken
          case isTrue strange =>
            rcases inv.counted (control i) with ⟨other, _⟩ | ⟨other, _⟩ | ⟨other, _⟩
            all_goals omega
          case isFalse zero =>
            cases taken
            exact inv.initialise pc (not_not.mp zero)
  | finish i =>
    split at taken
    case isTrue pc =>
      cases taken
      exact inv.finish pc (spaced i rfl)
    case isFalse => cases taken
  | look i =>
    split at taken
    case isFalse => cases taken
    case isTrue pc =>
      have placed := inv.placed i
      rw [pc] at placed
      split at taken
      case isTrue value =>
        cases taken
        rcases placed with ⟨_, linked⟩ | ⟨other, _⟩
        · exact inv.goto (.inl ⟨value, linked⟩) (fun _ => by omega) nofun
        · omega
      case isFalse value =>
        rcases placed with ⟨one, _⟩ | ⟨two, unlinked, _⟩
        · exact absurd one value
        · rw [if_pos two] at taken
          cases taken
          exact inv.goto ⟨rfl, two, unlinked⟩ (fun _ => by omega) nofun
  | wake i =>
    cases taken
    have placed := inv.placed i
    have entered := inv.entered i
    cases pc : s.pcs i with rw [pc] at placed entered
    | waiting woken =>
      refine inv.goto ?_ (fun _ => entered nofun) nofun
      rcases placed with inside | ⟨two, unlinked, _⟩
      · exact .inl inside
      · exact .inr ⟨two, unlinked, rfl⟩
    | outside | initialising | returned code =>
      exact inv.goto placed entered fun same => pc.trans same

omit [DecidableEq κ] in
theorem served : Served control s := by
  have counts : ∀ c, Counted (s.onceControl c) (s.runs c) (s.finished c) := inv.counted
  refine ⟨fun c => ?_, fun i called => ?_, fun i code pc => ?_, fun i linked => ?_,
    fun i woken pc done => ?_, fun i woken pc running => ?_⟩
  · rcases counts c with ⟨_, runs, _⟩ | ⟨_, runs, _⟩ | ⟨_, runs, _⟩ <;> omega
  · have := inv.entered i called
    rcases counts (control i) with ⟨_, runs, _⟩ | ⟨_, runs, _⟩ | ⟨_, runs, _⟩ <;> omega
  · have placed := inv.placed i
    rw [pc] at placed
    obtain ⟨zero, two, _⟩ := placed
    refine ⟨zero, ?_⟩
    rcases counts (control i) with ⟨value, _⟩ | ⟨value, _⟩ | ⟨_, _, finished⟩
    · omega
    · omega
    · exact finished
  · obtain ⟨one, _⟩ := inv.of_linked linked
    rcases counts (control i) with ⟨value, _⟩ | ⟨_, _, finished⟩ | ⟨value, _⟩
    · omega
    · exact finished
    · omega
  · have placed := inv.placed i
    rw [pc] at placed
    rcases placed with ⟨one, _⟩ | ⟨_, _, awake⟩
    · rcases counts (control i) with ⟨value, _⟩ | ⟨_, _, finished⟩ | ⟨value, _⟩ <;> omega
    · exact awake
  · have placed := inv.placed i
    rw [pc] at placed
    rcases placed with ⟨_, linked⟩ | ⟨two, _⟩
    · exact linked
    · rcases counts (control i) with ⟨value, _⟩ | ⟨value, _⟩ | ⟨_, _, finished⟩ <;> omega

end

end Inv

/-! ## Whole runs -/

/-- **Each routine runs once, nobody returns before it is done, and nobody is forgotten**,
if every finishing call finds the waiters of its control apart. -/
theorem waiters_released (s : State ι κ)
    (reached : Reachable Initial (SpacedStep control) s) :
    Served control s ∧
      ∀ i t, Spaced control (control i) s.waiterlist → s.step control (.finish i) = some t →
        Released control s i t := by
  have inv : Inv control s :=
    reached.invariant (fun _ => Inv.initial control) fun _ _ _ inv taken => inv.step taken
  refine ⟨inv.served, fun i t spaced taken => ?_⟩
  simp only [step] at taken
  split at taken
  case isTrue pc =>
    cases taken
    exact inv.released pc spaced
  case isFalse => cases taken

end

def fresh (ι κ : Type) : State ι κ :=
  { onceControl := fun _ => 0
    waiterlist := []
    pcs := fun _ => .outside
    runs := fun _ => 0
    finished := fun _ => 0 }

/-- Two controls, each with a call that initialises and one that waits and is woken. -/
theorem waiterOfEach_released :
    ∃ s : State (Bool × Bool) Bool, Reachable Initial (SpacedStep Prod.fst) s ∧
      s.waiterlist = [] ∧ (∀ c, s.pcs (c, true) = .waiting true) ∧ Served Prod.fst s := by
  have begun : Reachable Initial (SpacedStep Prod.fst) (fresh (Bool × Bool) Bool) :=
    .start ⟨rfl, rfl, rfl, rfl, rfl⟩
  have running := (begun.next ⟨.enter (false, false), nofun, rfl⟩).next
    ⟨.enter (true, false), nofun, rfl⟩
  have joined := (running.next ⟨.enter (false, true), nofun, rfl⟩).next
    ⟨.enter (true, true), nofun, rfl⟩
  have spaced : Spaced Prod.fst false [(true, true), (false, true)] := by simp [Spaced]
  have ended := joined.next ⟨.finish (false, false), fun i same => by cases same; exact spaced, rfl⟩
  have all := ended.next ⟨.finish (true, false), fun i _ => isChain_singleton _, rfl⟩
  exact ⟨_, all, rfl, fun c => by cases c <;> rfl, (waiters_released _ all).1⟩

/-- Two waiters of one control side by side: the first is woken, the second stays in the
list and sleeps, though the routine has finished. -/
theorem secondWaiter_sleeps :
    ∃ s : State (Option Bool) Unit,
      [Event.enter none, .enter (some false), .enter (some true), .finish none].foldlM
        (step fun _ => ()) (fresh (Option Bool) Unit) = some s ∧
      s.finished () = 1 ∧ s.waiterlist = [some false] ∧ s.pcs (some false) = .waiting false ∧
      ¬ Served (fun _ => ()) s := by
  refine ⟨_, rfl, rfl, rfl, rfl, fun served => ?_⟩
  exact absurd (served.unlinked (some false) (mem_singleton.mpr rfl)) (by decide)

end MiniOsv.Libc.PthreadOnce
