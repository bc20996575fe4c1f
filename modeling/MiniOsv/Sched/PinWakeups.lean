/-
# Sched.PinWakeups -- moving a thread to another CPU while it is being woken

`thread::wake_impl` sets a waiting thread to `waking`, loads its CPU and pushes it into a queue of
that CPU, one for each CPU that wakes; `handle_incoming_wakeups` pops it there and makes it run.
The link of a thread in these queues is intrusive: it has one.  `thread::pin(t, cpu)` lets a helper
change the CPU of `t`.  The helper runs on the CPU of `t` with interrupts disabled, so that neither
`t` nor the scheduler of that CPU runs, but wakers on other CPUs do.

`wakers` are the calls of `wake_impl` that are in progress, with each access a step of its own; a
push or a pop is one step.  A helper is in its critical part while `helper a` is set; what it does
before that (`_migration_lock_counter`, `_pinned`) does not concern the queues.  The critical part
begins with `t` on the helper's CPU: after a sleep in the retry loop this is what the migration lock
on `t` is for, and it is taken for granted here.

`contents` (the threads pushed and not yet popped), `claim` (how the helper got hold of the thread)
and `woken` (somebody has called `wake` since the thread went to sleep) are not in the code.
-/
import MiniOsv.Theory.SpareQueue
import MiniOsv.Theory.Tally
import MiniOsv.Theory.Transition

namespace MiniOsv.Sched.PinWakeups

open Theory
open Theory.SpareQueue (Links Represents)
open Function (update)

/-! ## The model -/

inductive Status
  | prestarted | unstarted | waiting | sendingLock | running | queued | waking | terminated
  deriving DecidableEq, Repr

/-- One if the status is the given one. -/
def Status.is (status which : Status) : ℕ := if status = which then 1 else 0

/-- A call of `wake_impl` on CPU `c`; the mutex may also wake a thread to which a lock was sent. -/
inductive Wake (ι κ : Type)
  | idle
  | cas (c : ι) (t : κ) (fromMutex : Bool)
  | load (c : ι) (t : κ)
  | push (c : ι) (t : κ) (tcpu : ι)
  | mark (c tcpu : ι)
  deriving DecidableEq, Repr

/-- The helper tests for `waiting`, stores `waking`, looks at the status, changes the CPU, looks
again, and stores `waiting` before it wakes the thread; a thread in the run queue is taken off. -/
inductive Place
  | test | mark | look | move | relook | erase | moveQueued | release
  deriving DecidableEq, Repr

inductive Claim
  | nothing | marked | taken
  deriving DecidableEq, Repr

structure Helper (ι κ : Type) where
  thread : κ
  target : ι
  place : Place
  claim : Claim
  deriving DecidableEq, Repr

structure State (ι κ ω ν : Type) where
  status : κ → Status
  cpu : κ → ι
  current : ι → κ
  runqueue : ι → List κ
  /-- `incoming_wakeups[c]` of CPU `a` is the queue `(a, c)`. -/
  links : Links (ι × ι) κ ν
  mask : ι → ι → Bool
  /-- `queues_with_wakes` of `handle_incoming_wakeups`. -/
  sweep : ι → ι → Bool
  wakers : ω → Wake ι κ
  helper : ι → Option (Helper ι κ)
  contents : ι × ι → List κ
  woken : κ → Bool

inductive Event (ι κ ω : Type)
  | wake (w : ω) (c : ι) (t : κ) (fromMutex : Bool)
  | waker (w : ω)
  | sweep (a : ι)
  | pop (a c : ι)
  | switch (a : ι) (n : κ)
  | sleep (a : ι)
  /-- `stop_wait` of a thread that was not switched out. -/
  | stay (a : ι)
  | finish (a : ι)
  /-- `wake_lock` sets the thread to `sending_lock`. -/
  | send (t : κ)
  | pin (a : ι) (t : κ) (target : ι)
  /-- A step of the helper on `a`; its call of `wake` is the waker `w`. -/
  | helper (a : ι) (w : ω)

section Model

variable {ι κ ω ν : Type} [DecidableEq ι] [DecidableEq κ] [DecidableEq ω] [DecidableEq ν]
variable [Fintype ι] [Fintype ω]

namespace State

def setStatus (s : State ι κ ω ν) (t : κ) (status : Status) : State ι κ ω ν :=
  { s with status := update s.status t status }

def setWaker (s : State ι κ ω ν) (w : ω) (wake : Wake ι κ) : State ι κ ω ν :=
  { s with wakers := update s.wakers w wake }

def setWoken (s : State ι κ ω ν) (t : κ) (woken : Bool) : State ι κ ω ν :=
  { s with woken := update s.woken t woken }

def setHelper (s : State ι κ ω ν) (a : ι) (h : Option (Helper ι κ)) : State ι κ ω ν :=
  { s with helper := update s.helper a h }

def setRunqueue (s : State ι κ ω ν) (a : ι) (list : List κ) : State ι κ ω ν :=
  { s with runqueue := update s.runqueue a list }

def setCpu (s : State ι κ ω ν) (t : κ) (a : ι) : State ι κ ω ν :=
  { s with cpu := update s.cpu t a }

def stepWaker (s : State ι κ ω ν) (w : ω) : Option (State ι κ ω ν) :=
  match s.wakers w with
  | .idle => none
  | .cas c t fromMutex =>
    if s.status t = .waiting ∨ (fromMutex = true ∧ s.status t = .sendingLock) then
      some (((s.setStatus t .waking).setWoken t true).setWaker w (.load c t))
    else
      some ((s.setWoken t (s.woken t || decide (s.status t = .waking))).setWaker w .idle)
  | .load c t => some (s.setWaker w (.push c t (s.cpu t)))
  | .push c t tcpu =>
    some ({ s with
      links := s.links.push (tcpu, c) t
      contents := update s.contents (tcpu, c) (s.contents (tcpu, c) ++ [t]) }.setWaker w
        (.mark c tcpu))
  | .mark c tcpu =>
    some ({ s with
      mask := update s.mask tcpu (update (s.mask tcpu) c true) }.setWaker w .idle)

/-- `handle_incoming_wakeups` on `a` takes one thread from the queue `(a, c)`. -/
def stepPop (s : State ι κ ω ν) (a c : ι) : State ι κ ω ν :=
  match s.links.front (a, c) with
  | none => { s with sweep := update s.sweep a (update (s.sweep a) c false) }
  | some t =>
    let s := { s with
      links := s.links.pop (a, c) t
      contents := update s.contents (a, c) ((s.contents (a, c)).erase t) }
    if s.current a = t then (s.setStatus t .running).setWoken t false
    else if s.cpu t ≠ a then s
    else ((s.setStatus t .queued).setWoken t false).setRunqueue a (t :: s.runqueue a)

/-- A context switch on `a` from the current thread to `n`. -/
def stepSwitch (s : State ι κ ω ν) (a : ι) (n : κ) : State ι κ ω ν :=
  let p := s.current a
  let rest := (s.runqueue a).erase n
  let s := { s with current := update s.current a n }
  if s.status p = .running then
    ((s.setStatus p .queued).setStatus n .running).setRunqueue a (p :: rest)
  else (s.setStatus n .running).setRunqueue a rest

def stepHelper (s : State ι κ ω ν) (a : ι) (w : ω) : Option (State ι κ ω ν) :=
  match s.helper a with
  | none => none
  | some h =>
    let t := h.thread
    match h.place with
    | .test =>
      some (s.setHelper a (some { h with place := if s.status t = .waiting then .mark else .look }))
    | .mark =>
      some ((s.setStatus t .waking).setHelper a (some { h with place := .look, claim := .marked }))
    | .look =>
      match s.status t with
      | .prestarted | .sendingLock | .waking => some (s.setHelper a (some { h with place := .move }))
      | .queued => some (s.setHelper a (some { h with place := .erase }))
      | _ => some (s.setHelper a none)
    | .move => some ((s.setCpu t h.target).setHelper a (some { h with place := .relook }))
    | .relook =>
      if s.status t = .waking then some (s.setHelper a (some { h with place := .release }))
      else some (s.setHelper a none)
    | .erase =>
      some ((s.setRunqueue a ((s.runqueue a).erase t)).setHelper a
        (some { h with place := .moveQueued, claim := .taken }))
    | .moveQueued => some ((s.setCpu t h.target).setHelper a (some { h with place := .release }))
    | .release =>
      if s.wakers w = .idle then
        some (((s.setStatus t .waiting).setWaker w (.cas a t false)).setHelper a none)
      else none

/-- One step.  While a helper has disabled the interrupts of a CPU, nothing else runs there. -/
def step (s : State ι κ ω ν) : Event ι κ ω → Option (State ι κ ω ν)
  | .wake w c t fromMutex =>
    if s.wakers w = .idle then some (s.setWaker w (.cas c t fromMutex)) else none
  | .waker w => s.stepWaker w
  | .sweep a =>
    if s.helper a = none ∧ ∀ c, s.sweep a c = false then
      some { s with sweep := update s.sweep a (s.mask a)
                    mask := update s.mask a fun _ => false }
    else none
  | .pop a c => if s.helper a = none ∧ s.sweep a c = true then some (s.stepPop a c) else none
  | .switch a n =>
    if s.helper a = none ∧ n ∈ s.runqueue a ∧ n ≠ s.current a then some (s.stepSwitch a n) else none
  | .sleep a =>
    if s.helper a = none ∧ s.status (s.current a) = .running then
      some (s.setStatus (s.current a) .waiting)
    else none
  | .stay a =>
    if s.helper a = none ∧ s.status (s.current a) = .waiting then
      some ((s.setStatus (s.current a) .running).setWoken (s.current a) false)
    else none
  | .finish a =>
    if s.helper a = none ∧ s.status (s.current a) = .running then
      some (s.setStatus (s.current a) .terminated)
    else none
  | .send t => if s.status t = .waiting then some (s.setStatus t .sendingLock) else none
  | .pin a t target =>
    if s.helper a = none ∧ s.cpu t = a ∧ s.current a ≠ t ∧ target ≠ a then
      some (s.setHelper a (some ⟨t, target, .test, .nothing⟩))
    else none
  | .helper a w => s.stepHelper a w

/-- No wake-up has begun; a queued thread is once in the run queue of its CPU. -/
structure Initial (s : State ι κ ω ν) : Prop where
  waking : ∀ t, s.status t ≠ .waking
  queued : ∀ t, tally (List.count t) s.runqueue = (s.status t).is .queued
  ready : ∀ a, ∀ t ∈ s.runqueue a, s.cpu t = a
  here : ∀ a, s.cpu (s.current a) = a
  contents : s.contents = fun _ => []
  represents : Represents s.links s.contents
  wakers : ∀ w, s.wakers w = .idle
  helper : ∀ a, s.helper a = none
  woken : ∀ t, s.woken t = false

/-! ## Which runs are sound -/

/-- A wake-up of `t` is under way: a waker is between its compare-and-swap and its push, or the
thread is in a queue. -/
def Underway (s : State ι κ ω ν) (t : κ) : Prop :=
  (∃ w c, s.wakers w = .load c t ∨ ∃ tcpu, s.wakers w = .push c t tcpu) ∨ ∃ q, t ∈ s.contents q

instance (s : State ι κ ω ν) (t : κ) : Decidable (s.Underway t) :=
  inferInstanceAs (Decidable (_ ∨ _))

/-- The helper marks only a thread that is still waiting, moves only a thread of which no wake-up is
under way, takes off the run queue only a thread that is there, and stores `waiting` only where it
has itself marked the thread or taken it off the run queue. -/
def Allowed (s : State ι κ ω ν) : Event ι κ ω → Prop
  | .helper a _ => ∀ h, s.helper a = some h →
      match h.place with
      | .mark => s.status h.thread = .waiting
      | .move => ¬ s.Underway h.thread
      | .erase => h.thread ∈ s.runqueue a
      | .release => h.claim ≠ .nothing
      | _ => True
  | _ => True

/-- The wake-up of `t` will reach it: it is about to be pushed into a queue of its CPU, or it is in
one that will be looked at, or a helper is about to wake it. -/
def OnItsWay (s : State ι κ ω ν) (t : κ) : Prop :=
  (∃ w c, s.wakers w = .load c t ∨ s.wakers w = .push c t (s.cpu t)) ∨
    (∃ c, t ∈ s.contents (s.cpu t, c) ∧ (s.mask (s.cpu t) c = true ∨ s.sweep (s.cpu t) c = true ∨
      ∃ w, s.wakers w = .mark c (s.cpu t))) ∨
    ∃ a h, s.helper a = some h ∧ h.thread = t ∧ h.claim = .marked

def ReachedAllowed (s : State ι κ ω ν) : Prop :=
  Reachable Initial (fun s t => ∃ event, s.Allowed event ∧ s.step event = some t) s

end State

/-! ## The invariant -/

/-- The waker has set `t` to `waking` and not yet pushed it. -/
def Wake.pend (t : κ) : Wake ι κ → ℕ
  | .load _ u | .push _ u _ => if u = t then 1 else 0
  | _ => 0

def Helper.claims (claim : Claim) (t : κ) : Option (Helper ι κ) → ℕ
  | some h => if h.thread = t ∧ h.claim = claim then 1 else 0
  | none => 0

/-- The helper has not yet changed the CPU. -/
def Place.early : Place → Bool
  | .relook | .release => false
  | _ => true

/-- The statuses that a thread may have when it is moved without having been in the run queue. -/
def Status.movable : Status → Bool
  | .prestarted | .sendingLock | .waking | .waiting => true
  | _ => false

structure Helper.Ok (s : State ι κ ω ν) (a : ι) (h : Helper ι κ) : Prop where
  early : h.place.early = true → s.cpu h.thread = a ∧ s.current a ≠ h.thread
  moving : h.place = .move → (s.status h.thread).movable = true
  moved : h.place = .moveQueued → h.claim = .taken
  taken : h.claim = .taken → h.place = .moveQueued ∨ h.place = .release
  marked : h.claim = .marked →
    h.place = .look ∨ h.place = .move ∨ h.place = .relook ∨ h.place = .release

structure Inv (s : State ι κ ω ν) : Prop where
  wakings : ∀ t, tally (Wake.pend t) s.wakers + tally (List.count t) s.contents +
    tally (Helper.claims .marked t) s.helper = (s.status t).is .waking
  queueds : ∀ t, tally (List.count t) s.runqueue + tally (Helper.claims .taken t) s.helper =
    (s.status t).is .queued
  destined : ∀ w c t tcpu, s.wakers w = .push c t tcpu → s.cpu t = tcpu
  linked : ∀ q, ∀ t ∈ s.contents q, s.cpu t = q.1
  ready : ∀ a, ∀ t ∈ s.runqueue a, s.cpu t = a
  here : ∀ a, s.cpu (s.current a) = a
  helping : ∀ a h, s.helper a = some h → h.Ok s a
  noticed : ∀ a c, s.contents (a, c) ≠ [] →
    s.mask a c = true ∨ s.sweep a c = true ∨ ∃ w, s.wakers w = .mark c a
  represents : Represents s.links s.contents
  kept : ∀ t, s.woken t = true → s.status t = .waking ∨ s.status t = .sendingLock ∨
    s.status t = .waiting ∧ ∃ w c fromMutex, s.wakers w = .cas c t fromMutex

end Model

end MiniOsv.Sched.PinWakeups
