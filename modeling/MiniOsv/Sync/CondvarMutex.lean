/-
# Sync.CondvarMutex -- which mutex a condition variable is used with

A condition variable remembers the mutex of its waiters in `_user_mutex` and asserts that
concurrent waits use the same one.  Here the mutexes have an identity, and the list is a list of
threads: a coarser model than `Sync.Condvar`, whose runs are runs here (`reached_of_runs`).  A
record that a wake has taken off the list may be woken at any time from then on; what the mutexes
allow is left open, so that there are more interleavings here than in the code.

`wake_one` and `wake_all` clear `_user_mutex` with the list.  The removal of a record after a
timeout does not: if it was the last one, the next wait with another mutex fails the assertion
(`timedOut_fails`).
-/
import MiniOsv.Sync.CondvarRuns

namespace MiniOsv.Sync.CondvarMutex

set_option linter.unusedSectionVars false

open Theory (Reachable)
open Function Option

inductive Pc (μ : Type) where
  | idle
  | waitLock (userMutex : μ)
  | waitAppend (userMutex : μ)
  /-- `assert(!_user_mutex || _user_mutex == user_mutex)` failed. -/
  | failed
  | waitUnlock
  | waiting
  | check
  | timeoutLock
  | timeoutRemove
  | timeoutUnlock (timedOut : Bool)
  | rewait
  | relock
  | oneLock
  | onePop
  | oneClear
  | oneUnlock
  | allLock
  | allDetach
  | allUnlock
  deriving DecidableEq

structure State (ι μ : Type) where
  m : Option ι
  waiters : List ι
  userMutex : Option μ
  /-- The record was taken off the list by a wake. -/
  taken : ι → Bool
  woken : ι → Bool
  pcs : ι → Pc μ

inductive Event (ι μ : Type) where
  | wait (t : ι) (userMutex : μ)
  | wakeOne (t : ι)
  | wakeAll (t : ι)
  | go (t : ι)
  /-- The removal of its record by a waiter that was not woken. -/
  | remove (t : ι)
  | expire (t : ι)
  | wake (t : ι)

variable {ι μ : Type} [DecidableEq ι] [DecidableEq μ]

namespace State

def goto (s : State ι μ) (t : ι) (pc : Pc μ) : State ι μ :=
  { s with pcs := update s.pcs t pc }

def lockM (s : State ι μ) (t : ι) (pc : Pc μ) : Option (State ι μ) :=
  if s.m = none then some ({ s with m := some t }.goto t pc) else none

def unlockM (s : State ι μ) (t : ι) (pc : Pc μ) : State ι μ := { s with m := none }.goto t pc

def append (s : State ι μ) (t : ι) (userMutex : μ) : State ι μ :=
  let s := { s with waiters := s.waiters ++ [t] }
  if s.userMutex = none ∨ s.userMutex = some userMutex then
    { s with userMutex := some userMutex }.goto t .waitUnlock
  else s.goto t .failed

/-- `wake_one` follows `_user_mutex`, which is not null then. -/
def pop (s : State ι μ) (t : ι) : Option (State ι μ) :=
  match s.waiters with
  | [] => some (s.goto t .oneUnlock)
  | r :: rest =>
    if s.userMutex = none then none
    else some ({ s with waiters := rest, taken := update s.taken r true }.goto t .oneClear)

def detach (s : State ι μ) (t : ι) : State ι μ :=
  { s with
    waiters := []
    userMutex := none
    taken := fun r => s.taken r || decide (r ∈ s.waiters) }.goto t .allUnlock

def remove (s : State ι μ) (t : ι) : State ι μ :=
  if t ∈ s.waiters then { s with waiters := s.waiters.erase t }.goto t (.timeoutUnlock true)
  else s.goto t (.timeoutUnlock false)

def go (s : State ι μ) (t : ι) : Option (State ι μ) :=
  match s.pcs t with
  | .idle | .failed | .timeoutRemove => none
  | .waitLock userMutex => s.lockM t (.waitAppend userMutex)
  | .waitAppend userMutex => some (s.append t userMutex)
  | .waitUnlock => some (s.unlockM t .waiting)
  | .waiting => if s.woken t then some (s.goto t .check) else none
  | .check => some (s.goto t (if s.woken t then .relock else .timeoutLock))
  | .timeoutLock => s.lockM t .timeoutRemove
  | .timeoutUnlock timedOut => some (s.unlockM t (if timedOut then .relock else .rewait))
  | .rewait => if s.woken t then some (s.goto t .relock) else none
  | .relock =>
    some ({ s with taken := update s.taken t false
                   woken := update s.woken t false }.goto t .idle)
  | .oneLock => s.lockM t .onePop
  | .onePop => s.pop t
  | .oneClear =>
    some ({ s with userMutex := if s.waiters = [] then none else s.userMutex }.goto t .oneUnlock)
  | .oneUnlock | .allUnlock => some (s.unlockM t .idle)
  | .allLock => s.lockM t .allDetach
  | .allDetach => some (s.detach t)

def step (s : State ι μ) : Event ι μ → Option (State ι μ)
  | .wait t userMutex =>
    if s.pcs t = .idle then some (s.goto t (.waitLock userMutex)) else none
  | .wakeOne t =>
    if s.pcs t = .idle then some (s.goto t (if s.waiters = [] then .idle else .oneLock)) else none
  | .wakeAll t =>
    if s.pcs t = .idle then some (s.goto t (if s.waiters = [] then .idle else .allLock)) else none
  | .go t => s.go t
  | .remove t => if s.pcs t = .timeoutRemove then some (s.remove t) else none
  | .expire t => if s.pcs t = .waiting then some (s.goto t .check) else none
  | .wake t => if s.taken t then some { s with woken := update s.woken t true } else none

def init : State ι μ := ⟨none, [], none, fun _ => false, fun _ => false, fun _ => .idle⟩

def Reached : State ι μ → Prop := Reachable (· = init) fun s t => ∃ event, s.step event = some t

/-- The removal after a timeout does not empty the list. -/
def Allowed (s : State ι μ) : Event ι μ → Prop
  | .remove t => s.waiters ≠ [t]
  | _ => True

def ReachedAllowed : State ι μ → Prop :=
  Reachable (· = init) fun s t => ∃ event, s.Allowed event ∧ s.step event = some t

end State

open State

/-! ## The invariant -/

/-- Between `_m.lock()` and `_m.unlock()`. -/
def Pc.inM : Pc μ → Bool
  | .waitAppend _ | .failed | .waitUnlock | .timeoutRemove | .timeoutUnlock _ | .onePop | .oneClear
  | .oneUnlock | .allDetach | .allUnlock => true
  | _ => false

/-- About to clear `_user_mutex` with the list. -/
def Pc.clears : Pc μ → Bool
  | .oneClear => true
  | _ => false

/-- Only inside `wake_one` is the list empty and the mutex still set. -/
structure Inv (s : State ι μ) : Prop where
  locked : ∀ t, (s.pcs t).inM = true → s.m = some t
  null : s.waiters = [] → s.userMutex = none ∨ ∃ t, (s.pcs t).clears = true

variable {s s' : State ι μ} {t : ι} {pc : Pc μ}

theorem inM_of_clears (clears : pc.clears = true) : pc.inM = true := by
  cases pc <;> first
    | rfl
    | cases clears

section

variable (inv : Inv s)

include inv

theorem Inv.act (moved : s'.pcs = update s.pcs t pc)
    (mine : pc.inM = true → s'.m = some t) (others : ∀ u, u ≠ t → s.m = some u → s'.m = some u)
    (null : s'.waiters = [] → s'.userMutex = none ∨ pc.clears = true ∨
      (s.waiters = [] ∧ s'.userMutex = s.userMutex ∧ (s.pcs t).clears = false)) : Inv s' := by
  refine ⟨fun u inside => ?_, fun empty => ?_⟩
  · rw [moved] at inside
    rcases eq_or_ne u t with rfl | ne
    · rw [update_self] at inside
      exact mine inside
    · rw [update_of_ne ne] at inside
      exact others u ne (inv.locked u inside)
  · rw [moved]
    rcases null empty with unset | clears | ⟨before, same, stays⟩
    · exact .inl unset
    · exact .inr ⟨t, by rwa [update_self]⟩
    · rw [same]
      refine (inv.null before).imp_right fun ⟨u, clears⟩ => ⟨u, ?_⟩
      have ne : u ≠ t := fun eq => by simp [← eq, clears] at stays
      rwa [update_of_ne ne]

theorem Inv.goto {old : Pc μ} (here : s.pcs t = old) (mine : pc.inM = true → old.inM = true)
    (stays : old.clears = false) : Inv (s.goto t pc) :=
  inv.act rfl (fun inside => inv.locked t (by rw [here]; exact mine inside)) (fun _ _ => id)
    fun empty => .inr (.inr ⟨empty, rfl, by rw [here]; exact stays⟩)

theorem Inv.lockM {old : Pc μ} (here : s.pcs t = old) (stays : old.clears = false)
    (taken : s.lockM t pc = some s') : Inv s' := by
  obtain ⟨free, taken⟩ := ite_none_right_eq_some.1 taken
  cases taken
  refine inv.act rfl (fun _ => rfl) (fun u _ locked => ?_)
    fun empty => .inr (.inr ⟨empty, rfl, by rw [here]; exact stays⟩)
  rw [free] at locked
  cases locked

theorem Inv.unlockM {old : Pc μ} (here : s.pcs t = old) (inside : old.inM = true)
    (stays : old.clears = false) (outside : pc.inM = false) : Inv (s.unlockM t pc) := by
  have mine := inv.locked t (by rw [here]; exact inside)
  refine inv.act rfl (fun inside => ?_) (fun u ne locked => ?_)
    fun empty => .inr (.inr ⟨empty, rfl, by rw [here]; exact stays⟩)
  · rw [outside] at inside
    cases inside
  · exact absurd (Option.some.inj (locked.symm.trans mine)) ne

/-- A step under `_m`. -/
theorem Inv.under {old : Pc μ} (here : s.pcs t = old) (inside : old.inM = true)
    (same : s'.m = s.m) (moved : s'.pcs = update s.pcs t pc)
    (null : s'.waiters = [] → s'.userMutex = none ∨ pc.clears = true) : Inv s' := by
  have mine := inv.locked t (by rw [here]; exact inside)
  rw [← same] at mine
  exact inv.act moved (fun _ => mine) (fun _ _ locked => same.trans locked)
    fun empty => (null empty).imp_right .inl

theorem Inv.go (result : s.go t = some s') : Inv s' := by
  unfold State.go at result
  cases here : s.pcs t <;> simp only [here] at result
  case waitLock | timeoutLock | oneLock | allLock =>
    exact inv.lockM here rfl result
  case waitUnlock | oneUnlock | allUnlock =>
    cases result
    exact inv.unlockM here rfl rfl rfl
  case waiting | rewait =>
    obtain ⟨-, result⟩ := ite_none_right_eq_some.1 result
    cases result
    exact inv.goto here (fun h => h) rfl
  case check =>
    cases result
    exact inv.goto here (by split <;> exact fun h => h) rfl
  case relock =>
    cases result
    exact Inv.goto ⟨inv.locked, inv.null⟩ here (fun h => h) rfl
  case timeoutUnlock timedOut =>
    cases result
    exact inv.unlockM here rfl rfl (by split <;> rfl)
  case waitAppend userMutex =>
    cases result
    dsimp only [State.append]
    split
    all_goals exact inv.under here rfl rfl rfl fun empty => absurd empty (by simp [State.goto])
  case onePop =>
    unfold State.pop at result
    split at result
    · cases result
      exact inv.goto here (fun _ => rfl) rfl
    · obtain ⟨-, result⟩ := ite_none_left_eq_some.1 result
      cases result
      exact inv.under here rfl rfl rfl fun _ => .inr rfl
  case oneClear =>
    cases result
    exact inv.under here rfl rfl rfl fun empty => .inl (if_pos empty)
  case allDetach =>
    cases result
    exact inv.under here rfl rfl rfl fun _ => .inl rfl
  all_goals cases result

theorem Inv.step {event : Event ι μ} (allowed : s.Allowed event)
    (result : s.step event = some s') : Inv s' := by
  cases event
  case go t => exact inv.go result
  all_goals obtain ⟨here, ⟨⟩⟩ := ite_none_right_eq_some.1 result
  case remove t =>
    unfold State.remove
    split
    next mem =>
      refine inv.under here rfl rfl rfl fun empty => absurd ?_ allowed
      -- An empty rest means that the list was this record alone.
      have perm := List.perm_cons_erase mem
      rw [show s.waiters.erase t = [] from empty] at perm
      exact List.perm_singleton.1 perm
    · exact inv.goto here (fun _ => rfl) rfl
  case wake t => exact ⟨inv.locked, inv.null⟩
  all_goals
    exact inv.goto here (by first | exact fun h => h | (split <;> exact fun h => h)) rfl

end

/-- **`_user_mutex` is null whenever `_m` is free and no waiter is in the list**, in every run in
which no timeout removes the only waiter; and a wait that finds the list empty passes the assertion
with any mutex. -/
theorem reachedAllowed_userMutex (reached : s.ReachedAllowed) :
    (s.m = none → s.waiters = [] → s.userMutex = none) ∧
      ∀ t userMutex, s.pcs t = .waitAppend userMutex → s.waiters = [] →
        ∃ s', s.step (.go t) = some s' ∧ s'.pcs t = .waitUnlock := by
  have inv : Inv s := by
    refine Reachable.invariant (I := Inv) ?_
      (fun _ _ _ inv ⟨_, allowed, result⟩ => inv.step allowed result) reached
    rintro _ rfl
    exact ⟨nofun, fun _ => .inl rfl⟩
  refine ⟨fun free empty => (inv.null empty).resolve_right ?_, fun t userMutex here empty => ?_⟩
  · rintro ⟨t, clears⟩
    have locked := inv.locked t (inM_of_clears clears)
    rw [free] at locked
    cases locked
  · have unset : s.userMutex = none := by
      refine (inv.null empty).resolve_right ?_
      rintro ⟨u, clears⟩
      have mine := inv.locked t (by rw [here]; rfl)
      have theirs := inv.locked u (inM_of_clears clears)
      cases mine.symm.trans theirs
      rw [here] at clears
      cases clears
    refine ⟨s.append t userMutex, by simp only [State.step, State.go, here], ?_⟩
    rw [State.append, if_pos (.inl unset)]
    exact update_self ..

/-- A waiter is woken, and the next wait uses another mutex. -/
theorem nextMutex_passes : ∃ s : State Bool Bool, s.ReachedAllowed ∧ s.pcs true = .waitAppend false ∧
    ∃ s', s.step (.go true) = some s' ∧ s'.pcs true = .waitUnlock := by
  have start : ReachedAllowed (init : State Bool Bool) := .start rfl
  have again := start.freeEvents [.wait true true, .go true, .go true, .go true, .wakeOne false,
    .go false, .go false, .go false, .go false, .wake true, .go true, .go true, .go true,
    .wait true false, .go true] (by simp [Allowed]) rfl
  exact ⟨_, again, rfl, (reachedAllowed_userMutex again).2 true false rfl rfl⟩

/-- The only waiter times out; then `_m` is free, the list is empty and `_user_mutex` is set, and a
wait with another mutex fails the assertion. -/
theorem timedOut_fails : ∃ s s' : State Unit Bool, s.Reached ∧ s.m = none ∧ s.waiters = [] ∧
    s.userMutex = some true ∧ s'.Reached ∧ s'.pcs () = .failed := by
  have start : Reached (init : State Unit Bool) := .start rfl
  have last := start.events (show [Event.wait () true, .go (), .go (), .go (), .expire (), .go (),
    .go (), .remove (), .go (), .go ()].foldlM step _ = some _ from rfl)
  have failed := last.events (show [Event.wait () false, .go (), .go ()].foldlM step _ = some _ from rfl)
  exact ⟨_, _, last, rfl, rfl, rfl, failed, rfl⟩

/-! ## The pointers

A state of `Sync.Condvar` stands for one with its queue as the list.  There is one mutex there, so
its runs are runs here in which the assertion holds. -/

/-- The place of a thread, without what it does outside `_m` to the records it has taken. -/
def ofPc : Condvar.Pc ι → Pc Unit
  | .waitLock => .waitLock ()
  | .waitAppend => .waitAppend ()
  | .waitUnlockUser | .waitUnlock => .waitUnlock
  | .waiting => .waiting
  | .check => .check
  | .timeoutLock => .timeoutLock
  | .timeoutFirst | .timeoutSearch _ => .timeoutRemove
  | .timeoutUnlock timedOut => .timeoutUnlock timedOut
  | .rewait => .rewait
  | .final _ | .relock _ | .returned _ => .relock
  | .oneLock => .oneLock
  | .onePop => .onePop
  | .oneSend _ | .oneClear => .oneClear
  | .oneUnlock => .oneUnlock
  | .allLock => .allLock
  | .allDetach => .allDetach
  | .allUnlock _ => .allUnlock
  | _ => .idle

def chosen : Condvar.Place ι → Bool
  | .held _ | .sent | .woken => true
  | _ => false

def ofState (s : Condvar.State ι) : State ι Unit where
  m := s.m
  waiters := s.queue
  userMutex := bif s.userMutex then some () else none
  taken := chosen ∘ s.place
  woken := (decide <| · = .woken) ∘ s.place
  pcs := ofPc ∘ s.pcs

section

attribute [local simp] goto lockM unlockM step State.go ofState ofPc chosen comp_update
  Condvar.State.goto Condvar.State.lockM Condvar.State.unlockM

variable {s s' : Condvar.State ι} {t : ι} (inv : Condvar.Inv s)

include inv

/-- Giving a record away is no step. -/
theorem ofState_send {r : ι} {pc : Condvar.Pc ι} (touched : r ∈ (s.pcs t).touches)
    (same : ofPc pc = ofPc (s.pcs t)) : ofState (s.send t r pc) = ofState s := by
  have held := (inv.isHeld t r).1 (inv.touches_held touched)
  simp [-ofPc, Condvar.State.send, same, held]

theorem ofState_unlink {oldest newest : Option ι} {next : ι → Option ι} (mem : t ∈ s.queue)
    (here : ofPc (s.pcs t) = .timeoutRemove) :
    (ofState s).step (.remove t) = some (ofState (s.unlink t oldest newest next)) := by
  have queued := (inv.queued t).1 mem
  have moved : ofPc (.timeoutUnlock true : Condvar.Pc ι) = .timeoutUnlock true := rfl
  simp [-ofPc, here, moved, State.remove, mem, Condvar.State.unlink, queued]

theorem ofState_detach : ofState (s.detach t) = (ofState s).detach t := by
  have places : ∀ u, (s.detach t).place u = if u ∈ s.queue then .held t else s.place u :=
    fun _ => rfl
  have taken : chosen ∘ (s.detach t).place = fun r => chosen (s.place r) || decide (r ∈ s.queue) := by
    funext u
    by_cases mem : u ∈ s.queue <;> simp [places, mem]
  -- A queued record was not woken, and it is not woken by being taken.
  have woken : (decide <| · = .woken) ∘ (s.detach t).place = (decide <| · = .woken) ∘ s.place := by
    funext u
    by_cases mem : u ∈ s.queue
    · simp [places, mem, (inv.queued u).1 mem]
    · simp [places, mem]
  have moved : ofPc ∘ (s.detach t).pcs = update (ofPc ∘ s.pcs) t .allUnlock := comp_update ..
  rw [ofState, taken, woken, moved]
  rfl

theorem ofState_go {same : Bool} (taken : s.go t same = some s') :
    ofState s' = ofState s ∨ ∃ event, (ofState s).step event = some (ofState s') := by
  have empty : s.oldest = none ↔ s.queue = [] := inv.list.eq_nil_iff.symm
  have fits := inv.fits t
  unfold Condvar.State.go at taken
  cases here : s.pcs t <;> simp only [here] at taken fits
  case idle | lockUser | relock => cases taken
  case waitLock | timeoutLock | oneLock | allLock =>
    obtain ⟨free, ⟨⟩⟩ := ite_none_right_eq_some.1 taken
    exact .inr ⟨.go t, by simp [here, free]⟩
  case waitUnlock | oneUnlock | allUnlock | returned =>
    cases taken
    exact .inr ⟨.go t, by simp [here]⟩
  case check =>
    cases taken
    by_cases woken : s.place t = .woken <;> exact .inr ⟨.go t, by simp [here, woken]⟩
  case timeoutUnlock timedOut =>
    cases taken
    cases timedOut <;> exact .inr ⟨.go t, by simp [here]⟩
  case waiting | rewait =>
    obtain ⟨woken, ⟨⟩⟩ := ite_none_right_eq_some.1 taken
    exact .inr ⟨.go t, by simp [here, woken]⟩
  case waitUnlockUser =>
    cases taken
    exact .inl (by simp [here])
  case final | allRelink =>
    repeat' split at taken
    all_goals cases taken
    all_goals exact .inl (by simp [here])
  case allHead wr | allInner _ _ wr =>
    cases wr <;> simp only at taken
    all_goals try split at taken
    all_goals cases taken
    all_goals exact .inl (by simp [here])
  case waitAppend =>
    refine .inr ⟨.go t, ?_⟩
    unfold Condvar.State.append at taken
    cases user : s.userMutex <;> split at taken <;> cases taken <;>
      simp [here, State.append, user, show s.place t = .absent from fits]
  case timeoutFirst =>
    split at taken <;> cases taken
    next first =>
      obtain ⟨rest, queue, -⟩ := (first ▸ inv.list).exists_cons
      exact .inr ⟨.remove t, ofState_unlink inv (by simp [queue]) (by simp [here])⟩
    next => exact .inl (by simp [here])
  case timeoutSearch p =>
    cases p with
    | none =>
      cases taken
      have notQueued : t ∉ s.queue := by
        rw [inv.queued]
        rcases inv.chosen_of_not_found here with ⟨w, chosen⟩ | chosen | chosen <;> simp [chosen]
      exact .inr ⟨.remove t, by simp [here, State.remove, notQueued]⟩
    | some p =>
      simp only at taken
      split at taken <;> cases taken
      next found =>
        obtain ⟨passed, ahead, queue, -, after, -⟩ := inv.search t _ here
        obtain ⟨ahead, rfl, beyond⟩ := after.exists_cons
        obtain ⟨ahead, rfl, -⟩ := (found ▸ beyond).exists_cons
        exact .inr ⟨.remove t, ofState_unlink inv (by simp [queue]) (by simp [here])⟩
      next => exact .inl (by simp [here])
  case onePop =>
    split at taken <;> cases taken
    next none => exact .inr ⟨.go t, by simp [here, State.pop, empty.1 none]⟩
    next r first =>
      obtain ⟨rest, queue, -⟩ := (first ▸ inv.list).exists_cons
      have set : s.userMutex = true := by
        by_contra unset
        simp [(inv.mutex (by simpa using unset)).1] at first
      have queued := (inv.queued r).1 (by simp [queue])
      exact .inr ⟨.go t, by simp [here, State.pop, Condvar.State.pop, queue, set, queued]⟩
  case oneSend | allSend | allInnerSend =>
    repeat' split at taken
    all_goals cases taken
    exact .inl (ofState_send inv (by simp [here, Condvar.Pc.touches]) (by simp [here]))
  case oneClear =>
    cases taken
    refine .inr ⟨.go t, ?_⟩
    by_cases none : s.oldest = none <;> simp [here, none, ← empty]
  case allDetach =>
    obtain ⟨-, ⟨⟩⟩ := ite_none_right_eq_some.1 taken
    refine .inr ⟨.go t, ?_⟩
    rw [ofState_detach inv]
    simp [here]

theorem ofState_step {event : Condvar.Event ι} (taken : s.step event = some s') :
    ofState s' = ofState s ∨ ∃ event, (ofState s).step event = some (ofState s') := by
  have empty : s.oldest = none ↔ s.queue = [] := inv.list.eq_nil_iff.symm
  cases event with rw [Condvar.State.step] at taken
  | go t same => exact ofState_go inv taken
  | grant t =>
    obtain ⟨-, taken⟩ := ite_none_right_eq_some.1 taken
    split at taken
    next sent =>
      cases taken
      exact .inr ⟨.wake t, by simp [sent]⟩
    · split at taken <;> cases taken
      all_goals exact .inl (by simp [*])
  | lock t | unlock t =>
    obtain ⟨here, ⟨⟩⟩ := ite_none_right_eq_some.1 taken
    exact .inl (by simp [here.1])
  | wait t =>
    obtain ⟨here, ⟨⟩⟩ := ite_none_right_eq_some.1 taken
    exact .inr ⟨.wait t (), by simp [here.1]⟩
  | wakeOne t =>
    obtain ⟨here, ⟨⟩⟩ := ite_none_right_eq_some.1 taken
    refine .inr ⟨.wakeOne t, ?_⟩
    by_cases none : s.oldest = none <;> simp [here, none, ← empty]
  | wakeAll t =>
    obtain ⟨here, ⟨⟩⟩ := ite_none_right_eq_some.1 taken
    refine .inr ⟨.wakeAll t, ?_⟩
    by_cases none : s.oldest = none <;> simp [here, none, ← empty]
  | expire t =>
    obtain ⟨here, ⟨⟩⟩ := ite_none_right_eq_some.1 taken
    exact .inr ⟨.expire t, by simp [here]⟩
  | enqueue t p =>
    obtain ⟨-, ⟨⟩⟩ := ite_none_right_eq_some.1 taken
    exact .inl rfl

end

/-- **Every run with the pointers is a run with the list.** -/
theorem reached_of_runs {s : Condvar.State ι} (run : Condvar.Runs s) : (ofState s).Reached := by
  induction run with
  | start initial =>
    subst initial
    exact .start rfl
  | next run taken reached =>
    obtain ⟨event, taken⟩ := taken
    rcases ofState_step (Condvar.Runs.inv run) taken with same | stepped
    · rwa [same]
    · exact reached.next stepped

end MiniOsv.Sync.CondvarMutex
