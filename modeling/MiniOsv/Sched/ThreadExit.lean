/-
# Sched.ThreadExit -- how a thread ends and who disposes of it

Two compare-exchanges decide everything: `_detach_state` between `complete` and `detach`
says which of them hands the thread to the reaper, and `_joiner` between `join` and
`destroy` says whether the joiner sleeps.

Four parties work on one thread object: the thread itself in `complete`, the thread that
runs next on its CPU in `destroy`, the owner in `join` and the destructor or in `detach`,
and the reaper.  Every access to shared state is a step of its own.  A party whose
assertion fails, or that sleeps and was not woken, has no step.
-/
import Mathlib.Data.Nat.Basic
import MiniOsv.Theory.Transition

namespace MiniOsv.Sched.ThreadExit

open Theory

inductive DetachState where
  | attached | attachedComplete | detached
  deriving DecidableEq

/-- `thread::status`; all the states in which the thread may still run are one here. -/
inductive Status where
  | unstarted | running | terminating | terminated
  deriving DecidableEq

/-- Whom `_joiner` names. -/
inductive Who where
  | itself | owner | reaper
  deriving DecidableEq

/-- The thread in `complete`. -/
inductive SelfPc where
  /-- Before the compare-exchange on `_detach_state`. -/
  | running
  | addZombie
  /-- Preemption is off; about to store `terminating`. -/
  | terminate
  /-- About to become `terminating_thread` and to call the scheduler. -/
  | leave
  | gone
  deriving DecidableEq

/-- The next thread on the CPU in `destroy`. -/
inductive DestroyPc where
  | notYet
  | check
  | getDetachedState
  | cas
  /-- It has won: `ds->st.store(terminated)`. -/
  | store
  /-- It has lost to `w`: fetches the joiner's detached state. -/
  | joinerState (w : Who)
  | storeLost (w : Who)
  | wake (w : Who)
  | done
  deriving DecidableEq

/-- A thread in `join`. -/
inductive JoinPc where
  | load
  | cas
  | wait
  | asleep
  deriving DecidableEq

/-- The owner, which joins and deletes the thread or detaches it. -/
inductive OwnerPc where
  /-- In `join`, called by the owner or once more by the destructor. -/
  | join (inDestructor : Bool) (pc : JoinPc)
  | returned (inDestructor : Bool)
  | freed
  | setAttr
  | detachCas
  | addZombie
  /-- `detach` has returned, or the thread was created detached. -/
  | finished
  deriving DecidableEq

/-- The reaper, as far as it deals with this thread. -/
inductive ReaperPc where
  | idle
  | join (pc : JoinPc)
  | cleanup
  | done
  deriving DecidableEq

structure State where
  detachState : DetachState
  joiner : Option Who
  st : Status
  attrDetached : Bool
  /-- How often the thread is in `_zombies`. -/
  zombies : ℕ
  complete : SelfPc
  destroy : DestroyPc
  owner : OwnerPc
  reaper : ReaperPc
  /-- How often the thread was put on the reaper's list. -/
  added : ℕ
  /-- How often the thread object was disposed of. -/
  disposed : ℕ
  /-- Whom `destroy` has woken. -/
  woken : Option Who

open State

/-- One access of `join`; the second component is `none` when it returns.  A sleeper that
was woken looks at the status again. -/
def State.join (s : State) (who : Who) : JoinPc → Option (State × Option JoinPc)
  | .load => if s.st = .unstarted then some (s, none) else some (s, some .cas)
  | .cas =>
    if s.joiner = none then some ({ s with joiner := some who }, some .wait) else some (s, none)
  | .wait => if s.st = .terminated then some (s, none) else some (s, some .asleep)
  | .asleep => if s.woken = some who ∧ s.st = .terminated then some (s, none) else none

/-- `reaper::add_zombie`, with its assertion. -/
def State.addZombie (s : State) : Option State :=
  if s.attrDetached then some { s with zombies := s.zombies + 1, added := s.added + 1 } else none

def State.stepComplete (s : State) : Option State :=
  match s.complete with
  | .running =>
    match s.detachState with
    | .attached => some { s with detachState := .attachedComplete, complete := .terminate }
    | .attachedComplete => some { s with complete := .terminate }
    | .detached => some { s with complete := .addZombie }
  | .addZombie => s.addZombie.map fun s => { s with complete := .terminate }
  | .terminate => some { s with st := .terminating, complete := .leave }
  | .leave => some { s with complete := .gone }
  | .gone => none

/-- `thread::destroy`, run once for the thread after it was switched out. -/
def State.stepDestroy (s : State) : Option State :=
  match s.destroy with
  | .notYet => if s.complete = .gone then some { s with destroy := .check } else none
  | .check => if s.st = .terminating then some { s with destroy := .getDetachedState } else none
  | .getDetachedState => some { s with destroy := .cas }
  | .cas =>
    match s.joiner with
    | none => some { s with joiner := some .itself, destroy := .store }
    | some w => some { s with destroy := .joinerState w }
  | .store => some { s with st := .terminated, destroy := .done }
  | .joinerState w => some { s with destroy := .storeLost w }
  | .storeLost w => some { s with st := .terminated, destroy := .wake w }
  | .wake w => some { s with woken := some w, destroy := .done }
  | .done => none

/-- `join` and then `delete`, or `detach`.  The destructor joins unless the thread is
detached. -/
def State.stepOwner (s : State) : Option State :=
  match s.owner with
  | .join inDestructor pc =>
    (s.join .owner pc).map fun r =>
      { r.1 with owner := r.2.elim (.returned inDestructor) (.join inDestructor) }
  | .returned false =>
    some { s with owner := if s.attrDetached then .returned true else .join true .load }
  | .returned true => some { s with owner := .freed, disposed := s.disposed + 1 }
  | .freed => none
  | .setAttr => some { s with attrDetached := true, owner := .detachCas }
  | .detachCas =>
    match s.detachState with
    | .attached => some { s with detachState := .detached, owner := .finished }
    | .attachedComplete => some { s with owner := .addZombie }
    | .detached => some { s with owner := .finished }
  | .addZombie => s.addZombie.map fun s => { s with owner := .finished }
  | .finished => none

/-- `reaper::reap` takes the thread off its list. -/
def State.pop (s : State) : Option State :=
  if 0 < s.zombies then some { s with zombies := s.zombies - 1, reaper := .join .load } else none

/-- `reaper::reap`.  `_cleanup` disposes of a detached thread without joining again. -/
def State.stepReaper (s : State) : Option State :=
  match s.reaper with
  | .idle => s.pop
  | .join pc => (s.join .reaper pc).map fun r => { r.1 with reaper := r.2.elim .cleanup .join }
  | .cleanup => some { s with reaper := .done, disposed := s.disposed + 1 }
  | .done => s.pop

/-- Which party takes its next step. -/
inductive Event where
  | complete | destroy | owner | reaper
  deriving DecidableEq

def State.step (s : State) : Event → Option State
  | .complete => s.stepComplete
  | .destroy => s.stepDestroy
  | .owner => s.stepOwner
  | .reaper => s.stepReaper

/-- How the owner deals with the thread. -/
inductive Plan where
  | joins | detaches | createdDetached
  deriving DecidableEq

/-- A running thread before `complete`. -/
def init : Plan → State
  | .joins => ⟨.attached, none, .running, false, 0, .running, .notYet, .join false .load, .idle,
      0, 0, none⟩
  | .detaches => ⟨.attached, none, .running, false, 0, .running, .notYet, .setAttr, .idle, 0, 0, none⟩
  | .createdDetached => ⟨.detached, none, .running, true, 0, .running, .notYet, .finished, .idle,
      0, 0, none⟩

def Runs : State → Prop :=
  Reachable (fun s => ∃ plan, s = init plan) fun s s' => ∃ event, s.step event = some s'

/-! ## The invariant -/

/-- `complete` has passed the point where it may put the thread on the list. -/
def SelfPc.pastZombie : SelfPc → Bool
  | .running | .addZombie => false
  | _ => true

/-- `destroy` has made its compare-exchange, the last access to the object itself. -/
def DestroyPc.pastObject : DestroyPc → Bool
  | .notYet | .check | .getDetachedState | .cas => false
  | _ => true

def DestroyPc.stored : DestroyPc → Bool
  | .wake _ | .done => true
  | _ => false

/-- The status that goes with the places of `complete` and `destroy`. -/
def statusAt (complete : SelfPc) (destroy : DestroyPc) : Status :=
  if destroy.stored then .terminated
  else if complete = .leave ∨ complete = .gone then .terminating else .running

def OwnerPc.hasJoined : OwnerPc → Bool
  | .join inDestructor _ => inDestructor
  | .returned _ | .freed => true
  | _ => false

def ReaperPc.hasJoined : ReaperPc → Bool
  | .cleanup | .done => true
  | _ => false

/-- The owner detaches and has set the attribute. -/
def OwnerPc.hasDetached : OwnerPc → Bool
  | .detachCas | .addZombie | .finished => true
  | _ => false

def ReaperPc.busy : ReaperPc → Bool
  | .join _ | .cleanup => true
  | _ => false

/-- After the compare-exchange of `join`. -/
def JoinPc.registered : JoinPc → Bool
  | .wait | .asleep => true
  | _ => false

/-- The owner may be the thread that `_joiner` names. -/
def OwnerPc.mayBeNamed : OwnerPc → Bool
  | .join inDestructor pc => inDestructor || pc.registered
  | .returned _ | .freed => true
  | _ => false

/-- The reaper may be the thread that `_joiner` names. -/
def ReaperPc.mayBeNamed : ReaperPc → Bool
  | .join pc => pc.registered
  | .cleanup | .done => true
  | .idle => false

/-- A caller of `join` was let go: it registered and saw `terminated`, or `destroy` was
first. -/
def State.LetGo (s : State) (who : Who) : Prop :=
  s.joiner = some who ∧ s.st = .terminated ∨ s.joiner = some .itself

/-- The race on `_detach_state`: who puts the thread on the list, and who disposes of it. -/
structure Handover (s : State) : Prop where
  attr : s.attrDetached = s.owner.hasDetached
  /-- The compare-exchange has one winner. -/
  attached : s.detachState = .attached →
    s.complete = .running ∧ s.owner ≠ .finished ∧ s.owner ≠ .addZombie
  attachedComplete : s.detachState = .attachedComplete → s.complete.pastZombie = true
  detached : s.detachState = .detached → s.owner = .finished
  /-- Its loser puts the thread on the list. -/
  added : s.added = (if s.detachState = .detached ∧ s.complete.pastZombie = true then 1 else 0) +
    if s.detachState = .attachedComplete ∧ s.owner = .finished then 1 else 0
  listed : s.zombies + (if s.reaper.busy = true then 1 else 0) +
    (if s.reaper = .done then 1 else 0) = s.added
  disposed : s.disposed = (if s.owner = .freed then 1 else 0) +
    if s.reaper = .done then 1 else 0

/-- The race on `_joiner`: who waits, who is let go and who is woken. -/
structure Rendezvous (s : State) : Prop where
  status : s.st = statusAt s.complete s.destroy
  order : s.destroy ≠ .notYet → s.complete = .gone
  won : s.destroy = .store → s.joiner = some .itself
  lost : ∀ w, s.destroy = .joinerState w ∨ s.destroy = .storeLost w ∨ s.destroy = .wake w →
    s.joiner = some w ∧ w ≠ .itself
  past : s.destroy.pastObject = true → s.joiner ≠ none
  before : s.destroy.pastObject = false → s.joiner ≠ some .itself
  /-- Who waits has registered. -/
  ownerWaits : ∀ b pc, s.owner = .join b pc → pc.registered = true →
    s.joiner = some .owner ∧ b = false
  ownerNamed : s.joiner = some .owner → s.owner.mayBeNamed = true
  ownerJoined : s.owner.hasJoined = true → s.LetGo .owner
  reaperWaits : ∀ pc, s.reaper = .join pc → pc.registered = true → s.joiner = some .reaper
  reaperNamed : s.joiner = some .reaper → s.reaper.mayBeNamed = true
  reaperJoined : s.reaper.hasJoined = true → s.LetGo .reaper
  /-- Whom `destroy` finds registered it wakes. -/
  woken : s.woken = if s.destroy = .done ∧ s.joiner ≠ some .itself then s.joiner else none

structure Inv (s : State) : Prop where
  handover : Handover s
  rendezvous : Rendezvous s

attribute [local grind] SelfPc.pastZombie DestroyPc.pastObject DestroyPc.stored statusAt
  OwnerPc.hasJoined ReaperPc.hasJoined OwnerPc.hasDetached ReaperPc.busy JoinPc.registered
  OwnerPc.mayBeNamed ReaperPc.mayBeNamed LetGo

theorem init_inv (plan : Plan) : Inv (init plan) := by
  refine ⟨?_, ?_⟩
  · cases plan <;> constructor <;> grind [init]
  · cases plan <;> constructor <;> grind [init]

variable {s s' : State}

/-! ### The reaper's list -/

namespace Handover

section

variable (handover : Handover s)

include handover

/-- A thread that is not detached was not put on the list. -/
theorem added_eq_zero (other : s.owner ≠ .finished) : s.added = 0 := by
  rw [handover.added, if_neg fun h => other (handover.detached h.1), if_neg fun h => other h.2]

/-- At most one of `complete` and `detach` puts the thread on the list. -/
theorem added_le_one : s.added ≤ 1 := by
  rw [handover.added]
  cases s.detachState with
  | attached => simp
  | attachedComplete =>
    simp only [reduceCtorEq, false_and, if_false, true_and, Nat.zero_add]
    split <;> decide
  | detached =>
    simp only [reduceCtorEq, false_and, if_false, true_and, Nat.add_zero]
    split <;> decide

/-- The reaper has to do only with a detached thread. -/
theorem reaper_idle (other : s.owner ≠ .finished) : s.reaper = .idle := by
  have listed := handover.listed
  rw [handover.added_eq_zero other] at listed
  cases here : s.reaper <;> simp [here, ReaperPc.busy] at listed ⊢

/-- Nothing of the handover changes but the reaper's place. -/
theorem reaper_moves {joiner : Option Who} {r : ReaperPc} (busy : r.busy = s.reaper.busy)
    (done : r = .done ↔ s.reaper = .done) : Handover { s with joiner := joiner, reaper := r } := by
  refine { handover with listed := ?_, disposed := ?_ }
  · simpa [busy, done] using handover.listed
  · simpa [done] using handover.disposed

theorem stepComplete (taken : s.stepComplete = some s') : Handover s' := by
  obtain ⟨attr, attached, attachedComplete, detached, added, listed, disposed⟩ := handover
  rw [State.stepComplete] at taken
  cases here : s.complete <;> simp only [here] at taken
  case running =>
    cases state : s.detachState <;> simp only [state] at taken <;> cases taken <;>
      constructor <;> grind
  case addZombie =>
    simp only [addZombie] at taken
    split at taken <;> cases taken
    cases state : s.detachState <;> constructor <;> grind
  case terminate | leave =>
    cases taken
    constructor <;> grind
  case gone => cases taken

theorem stepDestroy (taken : s.stepDestroy = some s') : Handover s' := by
  rw [State.stepDestroy] at taken
  split at taken
  case h_9 => cases taken
  all_goals try split at taken
  all_goals cases taken
  all_goals exact { handover with }

theorem stepOwner (taken : s.stepOwner = some s') : Handover s' := by
  have ⟨attr, attached, attachedComplete, detached, added, listed, disposed⟩ := handover
  rw [State.stepOwner] at taken
  cases here : s.owner <;> simp only [here] at taken
  case join b pc =>
    cases pc <;> simp only [join] at taken <;> split at taken <;> cases taken <;>
      constructor <;> grind
  case returned b => cases b <;> cases taken <;> constructor <;> grind
  case setAttr =>
    cases taken
    constructor <;> grind
  case detachCas =>
    cases state : s.detachState <;> simp only [state] at taken <;> cases taken <;>
      constructor <;> grind
  case addZombie =>
    simp only [addZombie] at taken
    split at taken <;> cases taken
    cases state : s.detachState <;> constructor <;> grind
  case freed | finished => cases taken

theorem stepReaper (taken : s.stepReaper = some s') : Handover s' := by
  have ⟨attr, attached, attachedComplete, detached, added, listed, disposed⟩ := handover
  rw [State.stepReaper] at taken
  cases here : s.reaper <;> simp only [here] at taken
  case join pc =>
    cases pc <;> simp only [join] at taken <;> split at taken <;> cases taken <;>
      exact handover.reaper_moves (by rw [here]; rfl) (by simp [here])
  case cleanup =>
    cases taken
    constructor <;> grind
  case idle | done =>
    simp only [pop] at taken
    split at taken <;> cases taken
    constructor <;> grind

end

end Handover

/-! ### The joiner -/

namespace Rendezvous

section

variable (meeting : Rendezvous s)

include meeting

/-- The owner moves on; what it may rely on is what it says at its new place. -/
theorem owner_moves {o : OwnerPc} {d : DetachState} {a : Bool}
    {zombies added disposed : ℕ}
    (waits : ∀ b pc, o = .join b pc → pc.registered = true → s.joiner = some .owner ∧ b = false)
    (named : s.joiner = some .owner → o.mayBeNamed = true)
    (joined : o.hasJoined = true → s.LetGo .owner) :
    Rendezvous { s with owner := o, detachState := d, attrDetached := a, zombies := zombies
                        added := added, disposed := disposed } :=
  { meeting with ownerWaits := waits, ownerNamed := named, ownerJoined := joined }

theorem reaper_moves {r : ReaperPc} {zombies disposed : ℕ}
    (waits : ∀ pc, r = .join pc → pc.registered = true → s.joiner = some .reaper)
    (named : s.joiner = some .reaper → r.mayBeNamed = true)
    (joined : r.hasJoined = true → s.LetGo .reaper) :
    Rendezvous { s with reaper := r, zombies := zombies, disposed := disposed } :=
  { meeting with reaperWaits := waits, reaperNamed := named, reaperJoined := joined }

/-- Before `destroy` starts, the places of `complete` differ only in the status. -/
theorem complete_moves {c : SelfPc} {d : DetachState} {zombies added : ℕ}
    (early : s.destroy = .notYet) (same : statusAt c .notYet = statusAt s.complete .notYet) :
    Rendezvous { s with complete := c, detachState := d, zombies := zombies, added := added } := by
  refine { meeting with status := ?_, order := fun started => absurd early started }
  rw [meeting.status, early, same]

theorem stepComplete (taken : s.stepComplete = some s') : Rendezvous s' := by
  have early : s.complete ≠ .gone → s.destroy = .notYet := by
    intro here
    apply Classical.byContradiction
    intro started
    exact here (meeting.order started)
  rw [State.stepComplete] at taken
  cases here : s.complete <;> simp only [here] at taken
  case running =>
    have early := early (by simp [here])
    cases state : s.detachState <;> simp only [state] at taken <;> cases taken <;>
      exact meeting.complete_moves early (by rw [here]; rfl)
  case addZombie =>
    have early := early (by simp [here])
    simp only [addZombie] at taken
    split at taken <;> cases taken
    exact meeting.complete_moves early (by rw [here]; rfl)
  case terminate =>
    have early := early (by simp [here])
    have running : s.st = .running := by
      rw [meeting.status, here, early]
      rfl
    cases taken
    -- Nobody has been let go on the ground of the status yet.
    have letGo : ∀ who, s.LetGo who →
        LetGo { s with st := .terminating, complete := .leave } who := by
      rintro who (⟨_, terminated⟩ | itself)
      · rw [running] at terminated
        cases terminated
      · exact .inr itself
    refine { meeting with
      status := ?_, order := fun started => absurd early started,
      ownerJoined := fun joined => letGo _ (meeting.ownerJoined joined),
      reaperJoined := fun joined => letGo _ (meeting.reaperJoined joined) }
    simp only [early]
    rfl
  case leave =>
    cases taken
    exact meeting.complete_moves (early (by simp [here])) (by rw [here]; rfl)
  case gone => cases taken

theorem destroy_approaches {pc : DestroyPc} (gone : s.complete = .gone)
    (old : s.destroy.pastObject = false) (new : pc.pastObject = false) :
    Rendezvous { s with destroy := pc } := by
  refine { meeting with
    status := ?_, order := fun _ => gone, won := ?_, lost := ?_, past := ?_,
    before := fun _ => meeting.before old, woken := ?_ }
  · rw [meeting.status]
    cases here : s.destroy <;> cases pc <;> simp_all [DestroyPc.pastObject, statusAt, DestroyPc.stored]
  · rintro rfl
    cases new
  · rintro w (rfl | rfl | rfl) <;> cases new
  · intro past
    rw [new] at past
    cases past
  · rw [meeting.woken, if_neg, if_neg]
    · rintro ⟨rfl, _⟩
      cases new
    · rintro ⟨done, _⟩
      rw [done] at old
      cases old

/-- `destroy` is first at the compare-exchange: nobody waits and nobody was let go. -/
theorem destroy_wins (here : s.destroy = .cas) (free : s.joiner = none) :
    Rendezvous { s with joiner := some .itself, destroy := .store } := by
  have gone : s.complete = .gone := meeting.order (by simp [here])
  refine { meeting with
    status := ?_, order := fun _ => gone, won := fun _ => rfl, lost := ?_, past := fun _ => (by simp),
    before := nofun, ownerWaits := ?_, ownerNamed := nofun,
    ownerJoined := fun _ => .inr rfl, reaperWaits := ?_, reaperNamed := nofun,
    reaperJoined := fun _ => .inr rfl, woken := ?_ }
  · rw [meeting.status, here]
    rfl
  · rintro w (h | h | h) <;> cases h
  · intro b pc waits registered
    have named := (meeting.ownerWaits b pc waits registered).1
    rw [free] at named
    cases named
  · intro pc waits registered
    have named := meeting.reaperWaits pc waits registered
    rw [free] at named
    cases named
  · rw [meeting.woken, here]
    rfl

/-- `destroy` goes on with the joiner `w` that it has found. -/
theorem destroy_goes {pc : DestroyPc} {w : Who} {woken : Option Who}
    (started : s.destroy ≠ .notYet) (found : s.joiner = some w ∧ w ≠ .itself)
    (same : pc.stored = s.destroy.stored) (past : pc.pastObject = true) (lost : pc ≠ .store)
    (mine : ∀ v, pc = .joinerState v ∨ pc = .storeLost v ∨ pc = .wake v → v = w)
    (wakes : woken = if pc = .done then some w else none) :
    Rendezvous { s with woken := woken, destroy := pc } := by
  obtain ⟨named, other⟩ := found
  refine { meeting with
    status := ?_, order := fun _ => meeting.order started, won := fun won => absurd won lost,
    lost := fun v at_ => mine v at_ ▸ ⟨named, other⟩, past := fun _ => (by simp [named]),
    before := fun early => ?_, woken := ?_ }
  · rw [meeting.status, statusAt, statusAt, same]
  · rw [past] at early
    cases early
  · simp [wakes, named, other]

/-- `destroy` stores `terminated`: whoever was let go stays let go. -/
theorem destroy_stores {pc : DestroyPc} (gone : s.complete = .gone)
    (old : s.destroy.pastObject = true) (early : s.destroy ≠ .done) (stored : pc.stored = true)
    (lost : ∀ w, pc = .wake w → s.joiner = some w ∧ w ≠ .itself)
    (won : pc = .done → s.joiner = some .itself) :
    Rendezvous { s with st := .terminated, destroy := pc } := by
  have letGo : ∀ who, s.LetGo who → LetGo { s with st := .terminated, destroy := pc } who :=
    fun who h => h.imp_left fun named => ⟨named.1, rfl⟩
  refine { meeting with
    status := ?_, order := fun _ => gone, won := ?_, lost := ?_, past := fun _ => meeting.past old,
    before := ?_, ownerJoined := fun joined => letGo _ (meeting.ownerJoined joined),
    reaperJoined := fun joined => letGo _ (meeting.reaperJoined joined), woken := ?_ }
  · simp [statusAt, stored]
  · rintro rfl
    cases stored
  · rintro w (rfl | rfl | rfl)
    · cases stored
    · cases stored
    · exact lost w rfl
  · intro past
    cases pc <;> simp_all [DestroyPc.stored, DestroyPc.pastObject]
  · rw [meeting.woken, if_neg fun h => early h.1, if_neg]
    rintro ⟨done, other⟩
    exact other (won done)

theorem stepDestroy (taken : s.stepDestroy = some s') : Rendezvous s' := by
  have gone : s.destroy ≠ .notYet → s.complete = .gone := meeting.order
  rw [State.stepDestroy] at taken
  cases here : s.destroy <;> simp only [here] at taken
  case notYet =>
    split at taken <;> cases taken
    exact meeting.destroy_approaches (by assumption) (by rw [here]; rfl) rfl
  case check =>
    split at taken <;> cases taken
    exact meeting.destroy_approaches (gone (by simp [here])) (by rw [here]; rfl) rfl
  case getDetachedState =>
    cases taken
    exact meeting.destroy_approaches (gone (by simp [here])) (by rw [here]; rfl) rfl
  case cas =>
    split at taken <;> cases taken
    · exact meeting.destroy_wins here (by assumption)
    next w named =>
      have other : w ≠ .itself := by
        rintro rfl
        exact meeting.before (by rw [here]; rfl) named
      exact meeting.destroy_goes (by simp [here]) ⟨named, other⟩ (by rw [here]; rfl) rfl nofun
        (by simp) (by simp [meeting.woken, here])
  case store =>
    cases taken
    exact meeting.destroy_stores (gone (by simp [here])) (by rw [here]; rfl) (by simp [here]) rfl
      nofun fun _ => meeting.won here
  case joinerState w =>
    cases taken
    exact meeting.destroy_goes (by simp [here]) (meeting.lost w (.inl here)) (by rw [here]; rfl)
      rfl nofun (by simp) (by simp [meeting.woken, here])
  case storeLost w =>
    cases taken
    have lost := meeting.lost w (.inr (.inl here))
    refine meeting.destroy_stores (gone (by simp [here])) (by rw [here]; rfl) (by simp [here]) rfl
      (fun w' eq => ?_) nofun
    cases eq
    exact lost
  case wake w =>
    cases taken
    exact meeting.destroy_goes (by simp [here]) (meeting.lost w (.inr (.inr here)))
      (by rw [here]; rfl) rfl nofun (by simp) rfl
  case done => cases taken

/-- Nobody else can be registered when the owner fails to register: `destroy` was first. -/
theorem owner_letGo (reaperIdle : s.reaper = .idle) {b : Bool}
    (here : s.owner = .join b .cas) (taken : s.joiner ≠ none) : s.LetGo .owner := by
  cases b with
  | true => exact meeting.ownerJoined (by rw [here]; rfl)
  | false =>
    right
    cases named : s.joiner with
    | none => exact absurd named taken
    | some w =>
      cases w with
      | itself => rfl
      | owner => simpa [here, OwnerPc.mayBeNamed, JoinPc.registered] using meeting.ownerNamed named
      | reaper => simpa [reaperIdle, ReaperPc.mayBeNamed] using meeting.reaperNamed named

theorem owner_registers {b : Bool} (here : s.owner = .join b .cas) (free : s.joiner = none) :
    Rendezvous { s with joiner := some .owner, owner := .join b .wait } := by
  cases meeting
  constructor <;> grind

theorem stepOwner (alone : s.owner ≠ .finished → s.reaper = .idle)
    (taken : s.stepOwner = some s') : Rendezvous s' := by
  have unnamed : s.owner.mayBeNamed = false → s.joiner ≠ some .owner := by
    intro h named
    rw [meeting.ownerNamed named] at h
    cases h
  have stated := meeting.ownerWaits
  have joined := meeting.ownerJoined
  rw [State.stepOwner] at taken
  cases here : s.owner <;> simp only [here] at taken
  case join b pc =>
    cases pc <;> simp only [join] at taken
    case load =>
      split at taken <;> cases taken
      · grind [meeting.status]
      · apply meeting.owner_moves <;> grind
    case cas =>
      split at taken <;> cases taken
      · exact meeting.owner_registers here (by assumption)
      · have letGo := meeting.owner_letGo (alone (by simp [here])) here (by assumption)
        apply meeting.owner_moves <;> grind
    case wait =>
      split at taken <;> cases taken <;> apply meeting.owner_moves <;> grind
    case asleep =>
      split at taken <;> cases taken
      apply meeting.owner_moves <;> grind
  case returned b =>
    cases b <;> cases taken <;> apply meeting.owner_moves <;> grind
  case freed | finished => cases taken
  case setAttr =>
    cases taken
    apply meeting.owner_moves <;> grind
  case detachCas =>
    cases state : s.detachState <;> simp only [state] at taken <;> cases taken <;>
      apply meeting.owner_moves <;> grind
  case addZombie =>
    simp only [addZombie] at taken
    split at taken <;> cases taken
    apply meeting.owner_moves <;> grind

theorem reaper_letGo (ownerDone : s.owner = .finished)
    (here : s.reaper = .join .cas) (taken : s.joiner ≠ none) : s.LetGo .reaper := by
  right
  cases named : s.joiner with
  | none => exact absurd named taken
  | some w =>
    cases w with
    | itself => rfl
    | owner => simpa [ownerDone, OwnerPc.mayBeNamed] using meeting.ownerNamed named
    | reaper => simpa [here, ReaperPc.mayBeNamed, JoinPc.registered] using meeting.reaperNamed named

theorem stepReaper (alone : s.owner ≠ .finished → s.reaper = .idle)
    (once : s.reaper = .done → s.zombies = 0) (taken : s.stepReaper = some s') : Rendezvous s' := by
  have unnamed : s.reaper.mayBeNamed = false → s.joiner ≠ some .reaper := by
    intro h named
    rw [meeting.reaperNamed named] at h
    cases h
  have stated := meeting.reaperWaits
  have joined := meeting.reaperJoined
  rw [State.stepReaper] at taken
  cases here : s.reaper <;> simp only [here] at taken
  case idle =>
    simp only [pop] at taken
    split at taken <;> cases taken
    apply meeting.reaper_moves <;> grind
  case join pc =>
    have ownerDone : s.owner = .finished := by
      apply Classical.byContradiction
      intro other
      cases here.symm.trans (alone other)
    cases pc <;> simp only [join] at taken
    case load =>
      split at taken <;> cases taken
      · grind [meeting.status]
      · apply meeting.reaper_moves <;> grind
    case cas =>
      split at taken <;> cases taken
      · cases meeting
        constructor <;> grind
      · have letGo := meeting.reaper_letGo ownerDone here (by assumption)
        apply meeting.reaper_moves <;> grind
    case wait =>
      split at taken <;> cases taken <;> apply meeting.reaper_moves <;> grind
    case asleep =>
      split at taken <;> cases taken
      apply meeting.reaper_moves <;> grind
  case cleanup =>
    cases taken
    apply meeting.reaper_moves <;> grind
  case done =>
    simp only [pop, once here] at taken
    cases taken

end

end Rendezvous

theorem Handover.none_left (handover : Handover s) (done : s.reaper = .done) : s.zombies = 0 := by
  have listed := handover.listed
  have added := handover.added
  grind

theorem Inv.step (inv : Inv s) {event : Event} (taken : s.step event = some s') : Inv s' := by
  have alone := inv.handover.reaper_idle
  cases event with
  | complete => exact ⟨inv.handover.stepComplete taken, inv.rendezvous.stepComplete taken⟩
  | destroy => exact ⟨inv.handover.stepDestroy taken, inv.rendezvous.stepDestroy taken⟩
  | owner => exact ⟨inv.handover.stepOwner taken, inv.rendezvous.stepOwner alone taken⟩
  | reaper =>
    exact ⟨inv.handover.stepReaper taken,
      inv.rendezvous.stepReaper alone inv.handover.none_left taken⟩

theorem Runs.inv (run : Runs s) : Inv s := by
  refine run.invariant (I := Inv) ?_ fun _ _ _ inv ⟨_, taken⟩ => inv.step taken
  rintro _ ⟨plan, rfl⟩
  exact init_inv plan

/-! ## Every run ends -/

/-- How many accesses are left, at most. -/
def JoinPc.left : JoinPc → ℕ
  | .load => 4
  | .cas => 3
  | .wait => 2
  | .asleep => 1

def SelfPc.left : SelfPc → ℕ
  | .running => 12
  | .addZombie => 11
  | .terminate => 2
  | .leave => 1
  | .gone => 0

def DestroyPc.left : DestroyPc → ℕ
  | .notYet => 7
  | .check => 6
  | .getDetachedState => 5
  | .cas => 4
  | .joinerState _ => 3
  | .storeLost _ => 2
  | .store | .wake _ => 1
  | .done => 0

def OwnerPc.left : OwnerPc → ℕ
  | .join false pc => 7 + pc.left
  | .returned false => 7
  | .join true pc => 2 + pc.left
  | .returned true => 1
  | .freed | .finished => 0
  | .setAttr => 11
  | .detachCas => 10
  | .addZombie => 9

def ReaperPc.left : ReaperPc → ℕ
  | .join pc => 1 + pc.left
  | .cleanup => 1
  | .idle | .done => 0

/-- A bound on the number of steps to come. -/
def State.remaining (s : State) : ℕ :=
  s.complete.left + s.destroy.left + s.owner.left + s.reaper.left + 8 * s.zombies

theorem State.step_remaining {event : Event} (taken : s.step event = some s') :
    s'.remaining < s.remaining := by
  cases event with
  | complete =>
    simp only [step, stepComplete, addZombie] at taken
    grind [remaining, SelfPc.left]
  | destroy =>
    simp only [step, stepDestroy] at taken
    grind [remaining, DestroyPc.left]
  | owner =>
    simp only [step, stepOwner, addZombie, join] at taken
    cases here : s.owner with
    | join b pc =>
      cases b <;> cases pc <;> simp only [here] at taken <;>
        grind [remaining, OwnerPc.left, JoinPc.left]
    | returned b => cases b <;> grind [remaining, OwnerPc.left, JoinPc.left]
    | _ => grind [remaining, OwnerPc.left]
  | reaper =>
    simp only [step, stepReaper, pop, join] at taken
    grind [remaining, ReaperPc.left, JoinPc.left]

/-! ## Where a run ends -/

def State.Ended (s : State) : Prop := ∀ event, s.step event = none

namespace Inv

section

variable (inv : Inv s)

include inv

section

variable (ended : s.Ended)

include ended

theorem complete_gone : s.complete = .gone := by
  have stuck : s.stepComplete = none := ended .complete
  rw [stepComplete, addZombie] at stuck
  have detached := inv.handover.detached
  have attached := inv.handover.attached
  have attachedComplete := inv.handover.attachedComplete
  have attr := inv.handover.attr
  cases here : s.complete <;> cases state : s.detachState <;> grind

theorem destroy_done : s.destroy = .done := by
  have stuck : s.stepDestroy = none := ended .destroy
  rw [stepDestroy] at stuck
  have gone := inv.complete_gone ended
  have status := inv.rendezvous.status
  cases here : s.destroy <;> grind

/-- No joiner is left asleep: `destroy` has woken the one that had registered. -/
theorem not_asleep {who : Who} (registered : s.joiner = some who)
    (other : who ≠ .itself) : s.woken = some who ∧ s.st = .terminated := by
  have done := inv.destroy_done ended
  refine ⟨?_, ?_⟩
  · rw [inv.rendezvous.woken, if_pos ⟨done, by simpa [registered] using other⟩, registered]
  · rw [inv.rendezvous.status, done]
    rfl

theorem owner_through : s.owner = .freed ∨ s.owner = .finished := by
  have stuck : s.stepOwner = none := ended .owner
  rw [stepOwner] at stuck
  have attr := inv.handover.attr
  cases here : s.owner with
  | join b pc =>
    cases pc with
    | asleep =>
      have registered := (inv.rendezvous.ownerWaits b .asleep here rfl).1
      have woken := inv.not_asleep ended registered (by decide)
      grind [join]
    | _ => grind [join]
  | returned b => cases b <;> grind
  | detachCas => cases state : s.detachState <;> grind
  | addZombie => grind [addZombie]
  | _ => grind

theorem reaper_through : s.zombies = 0 ∧ (s.reaper = .idle ∨ s.reaper = .done) := by
  have stuck : s.stepReaper = none := ended .reaper
  rw [stepReaper] at stuck
  cases here : s.reaper with
  | join pc =>
    cases pc with
    | asleep =>
      have registered := inv.rendezvous.reaperWaits .asleep here rfl
      have woken := inv.not_asleep ended registered (by decide)
      grind [join]
    | _ => grind [join]
  | _ => grind [pop]

/-- At the end of a run one party has disposed of the thread; a detached thread has been on
the list. -/
theorem disposed_at_end : s.disposed = 1 ∧ s.added = if s.attrDetached then 1 else 0 := by
  have gone := inv.complete_gone ended
  obtain ⟨empty, through⟩ := inv.reaper_through ended
  have listed := inv.handover.listed
  have disposed := inv.handover.disposed
  have added := inv.handover.added
  have attr := inv.handover.attr
  rcases inv.owner_through ended with freed | finished
  · have idle := inv.handover.reaper_idle (by simp [freed])
    grind
  · have attached := inv.handover.attached
    cases state : s.detachState <;> grind

end

/-- A caller of `join` that was let go finds the thread switched out for good. -/
theorem letGo_gone (who : Who) (letGo : s.LetGo who) :
    s.complete = .gone ∧ s.destroy.pastObject = true := by
  have past : s.destroy.pastObject = true := by
    rcases letGo with ⟨_, terminated⟩ | itself
    · rw [inv.rendezvous.status] at terminated
      cases here : s.destroy <;> grind
    · apply Classical.byContradiction
      intro early
      exact inv.rendezvous.before (by simpa using early) itself
  refine ⟨inv.rendezvous.order ?_, past⟩
  intro notYet
  rw [notYet] at past
  cases past

end

end Inv

/-! ## The contract -/

/-- **A thread is disposed of exactly once and not too early.**  Along every interleaving
the object is disposed of at most once, and not before the last access of `destroy`; who
returns from `join` finds the thread switched out; `destroy` wakes whom it finds
registered, after `terminated` was stored; the thread is put on the reaper's list at most
once, and only if detached.  Every step brings the run closer to its end, and at the end
the thread has been disposed of and, if it is detached, been on the list. -/
theorem disposed_exactly_once (run : Runs s) : s.disposed ≤ 1 ∧
    (0 < s.disposed → s.destroy.pastObject = true) ∧
    (s.owner.hasJoined = true ∨ s.reaper.hasJoined = true → s.complete = .gone) ∧
    (∀ who, s.woken = some who → s.st = .terminated ∧ s.joiner = some who) ∧
    (∀ who, who ≠ .itself → s.joiner = some who → s.destroy = .done → s.woken = some who) ∧
    s.added ≤ 1 ∧ (0 < s.added → s.attrDetached = true) ∧
    (∀ event s', s.step event = some s' → s'.remaining < s.remaining) ∧
    (s.Ended → s.disposed = 1 ∧ s.destroy = .done ∧ s.added = if s.attrDetached then 1 else 0) := by
  have inv := run.inv
  have reaperIdle : s.owner = .freed → s.reaper = .idle := fun freed =>
    inv.handover.reaper_idle (by simp [freed])
  refine ⟨?_, ?_, ?_, ?_, ?_, inv.handover.added_le_one, ?_, fun _ _ => step_remaining,
    fun ended => ?_⟩
  · rw [inv.handover.disposed]
    by_cases freed : s.owner = .freed
    · simp [freed, reaperIdle freed]
    · rw [if_neg freed]
      split <;> decide
  · intro disposed
    -- Whoever disposed of the thread had been let go by `join`.
    by_cases freed : s.owner = .freed
    · exact (inv.letGo_gone _ (inv.rendezvous.ownerJoined (by rw [freed]; rfl))).2
    · have done : s.reaper = .done := by
        apply Classical.byContradiction
        intro other
        rw [inv.handover.disposed, if_neg freed, if_neg other] at disposed
        exact absurd disposed (by decide)
      exact (inv.letGo_gone _ (inv.rendezvous.reaperJoined (by rw [done]; rfl))).2
  · rintro (owner | reaper)
    · exact (inv.letGo_gone _ (inv.rendezvous.ownerJoined owner)).1
    · exact (inv.letGo_gone _ (inv.rendezvous.reaperJoined reaper)).1
  · intro who woken
    rw [inv.rendezvous.woken] at woken
    split at woken
    next done =>
      refine ⟨?_, woken⟩
      rw [inv.rendezvous.status, done.1]
      rfl
    · cases woken
  · intro who other named done
    rw [inv.rendezvous.woken, if_pos ⟨done, by simpa [named] using other⟩, named]
  · intro added
    have finished : s.owner = .finished := by
      apply Classical.byContradiction
      intro other
      rw [inv.handover.added_eq_zero other] at added
      exact absurd added (by decide)
    rw [inv.handover.attr, finished]
    rfl
  · exact ⟨(inv.disposed_at_end ended).1, inv.destroy_done ended, (inv.disposed_at_end ended).2⟩

/-- The owner registers before the thread ends and is woken by `destroy`. -/
def joinedEarly : Option State :=
  [.owner, .owner, .owner, .complete, .complete, .complete, .destroy, .destroy, .destroy, .destroy,
    .destroy, .destroy, .destroy, .owner, .owner, .owner, .owner, .owner].foldlM step
    (init .joins)

theorem joinedEarly_runs (run : joinedEarly = some s) : Runs s :=
  Reachable.events (.start ⟨.joins, rfl⟩) run

theorem joinedEarly_disposed : ∃ s : State, joinedEarly = some s ∧ s.woken = some .owner ∧
    s.disposed ≤ 1 ∧ (s.Ended → s.disposed = 1) ∧ s.disposed = 1 := by
  refine ⟨_, rfl, rfl, ?_⟩
  have contract := disposed_exactly_once (joinedEarly_runs rfl)
  exact ⟨contract.1, fun ended => (contract.2.2.2.2.2.2.2.2 ended).1, rfl⟩

end MiniOsv.Sched.ThreadExit
