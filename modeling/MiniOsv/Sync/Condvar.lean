/-
# Sync.Condvar -- the waiter list of a condition variable

The waiters are records on the stacks of their threads, linked from the oldest to the
newest and changed under the internal mutex `_m`.  A wake takes records off the list and
gives each to the user mutex (`send_lock`), which wakes it once the mutex has been
acquired for it.  `wake_all` takes the whole list and walks it after `_m` is released,
relinking the records it has not given away yet; a waiter whose timer expires takes its
own record off the list, if it is still there.

What happens to the list under `_m` is one step between two accesses of other kinds.  A
thread has one record, made anew by every call of `wait`.  The user mutex is known by its
contract: it is held for at most one thread, a record given to it is woken exactly when it
is acquired for that record, and until then it may use the record's `next` for a queue of
its own.  `queue` and `held` are no data of the code: they record the waiters in the order
of their arrival, and what a running wake has chosen and not given away.
-/
import MiniOsv.Theory.Chain
import MiniOsv.Theory.Transition

namespace MiniOsv.Sync.Condvar

open Theory
open Function (update)

/-- Where the record of a thread is.  The code can tell only whether the record was woken. -/
inductive Place (ι : Type) where
  | absent
  /-- Neither chosen by a wake nor removed by its timeout. -/
  | queued
  /-- Chosen by the wake that this thread runs. -/
  | held (waker : ι)
  | sent
  /-- Woken: the user mutex has been acquired for it. -/
  | woken
  /-- Removed by its timeout. -/
  | removed
  deriving DecidableEq

/-- Where a thread is. -/
inductive Pc (ι : Type) where
  | idle
  /-- In `lock` of the user mutex. -/
  | lockUser
  /-- `wait`, up to its sleep. -/
  | waitLock
  | waitAppend
  | waitUnlockUser
  | waitUnlock
  | waiting
  /-- `if (!wr.woken())`. -/
  | check
  /-- The removal after a timeout. -/
  | timeoutLock
  | timeoutFirst
  | timeoutSearch (p : Option ι)
  | timeoutUnlock (timedOut : Bool)
  /-- `wr.wait()` because a wake has the record. -/
  | rewait
  /-- `if (wr.woken())`, with the value to return. -/
  | final (timedOut : Bool)
  | relock (timedOut : Bool)
  | returned (timedOut : Bool)
  | oneLock
  | onePop
  | oneSend (wr : ι)
  | oneClear
  | oneUnlock
  | allLock
  | allDetach
  | allUnlock (wr : Option ι)
  /-- `while (wr)`. -/
  | allHead (wr : Option ι)
  | allSend (wr : ι) (nextWr : Option ι)
  | allInner (nextWr prevr r : Option ι)
  | allInnerSend (nextWr prevr : Option ι) (r : ι) (nextr : Option ι)
  | allRelink (nextWr prevr : Option ι) (r : ι) (nextr : Option ι)
  deriving DecidableEq

structure State (ι : Type) where
  m : Option ι
  oldest : Option ι
  newest : Option ι
  next : ι → Option ι
  /-- `_user_mutex` is set. -/
  userMutex : Bool
  /-- For whom the user mutex is acquired, and how often that thread owns it. -/
  holder : Option ι
  depth : ℕ
  place : ι → Place ι
  pcs : ι → Pc ι
  queue : List ι
  held : ι → List ι
  /-- How often a wake gave the record to the user mutex. -/
  sends : ι → ℕ

inductive Event (ι : Type) where
  /-- Calls from outside. -/
  | lock (t : ι)
  | unlock (t : ι)
  | wait (t : ι)
  | wakeOne (t : ι)
  | wakeAll (t : ι)
  /-- The next access of a call; `same` is `r->thread()->tcpu() == cpu_wr`. -/
  | go (t : ι) (same : Bool)
  | expire (t : ι)
  /-- The user mutex is acquired for a thread that asked for it. -/
  | grant (t : ι)
  /-- The user mutex links a record in its own queue. -/
  | enqueue (t : ι) (p : Option ι)

variable {ι : Type} [DecidableEq ι]

def State.goto (s : State ι) (t : ι) (pc : Pc ι) : State ι :=
  { s with pcs := update s.pcs t pc }

def State.lockM (s : State ι) (t : ι) (pc : Pc ι) : Option (State ι) :=
  if s.m = none then some { s with m := some t, pcs := update s.pcs t pc } else none

def State.unlockM (s : State ι) (t : ι) (pc : Pc ι) : State ι :=
  { s with m := none, pcs := update s.pcs t pc }

/-- The record of `t` becomes the newest; `none` where the code would follow a null pointer. -/
def State.append (s : State ι) (t : ι) : Option (State ι) :=
  let linked (oldest : Option ι) (next : ι → Option ι) : State ι :=
    { s with
      oldest := oldest
      newest := some t
      next := next
      userMutex := true
      place := update s.place t .queued
      pcs := update s.pcs t .waitUnlockUser
      queue := s.queue ++ [t] }
  match s.oldest, s.newest with
  | none, _ => some (linked (some t) s.next)
  | some o, some n => some (linked (some o) (update s.next n (some t)))
  | some _, none => none

/-- A timed out record leaves the list. -/
def State.unlink (s : State ι) (t : ι) (oldest newest : Option ι) (next : ι → Option ι) :
    State ι :=
  { s with
    oldest := oldest
    newest := newest
    next := next
    place := update s.place t .removed
    pcs := update s.pcs t (.timeoutUnlock true)
    queue := s.queue.erase t }

def State.pop (s : State ι) (t r : ι) : State ι :=
  { s with
    oldest := s.next r
    newest := if s.next r = none then none else s.newest
    place := update s.place r (.held t)
    pcs := update s.pcs t (.oneSend r)
    queue := s.queue.tail
    held := update s.held t [r] }

def State.detach (s : State ι) (t : ι) : State ι :=
  { s with
    oldest := none
    newest := none
    userMutex := false
    place := fun u => if u ∈ s.queue then .held t else s.place u
    pcs := update s.pcs t (.allUnlock s.oldest)
    queue := []
    held := update s.held t s.queue }

/-- `user_mutex->send_lock(r)`. -/
def State.send (s : State ι) (t r : ι) (pc : Pc ι) : State ι :=
  { s with
    place := update s.place r .sent
    pcs := update s.pcs t pc
    held := update s.held t ((s.held t).erase r)
    sends := update s.sends r (s.sends r + 1) }

def State.go (s : State ι) (t : ι) (same : Bool) : Option (State ι) :=
  match s.pcs t with
  | .idle => none
  | .lockUser => none
  | .waitLock => s.lockM t .waitAppend
  | .waitAppend => s.append t
  | .waitUnlockUser =>
    some { s with holder := none, depth := 0, pcs := update s.pcs t .waitUnlock }
  | .waitUnlock => some (s.unlockM t .waiting)
  | .waiting => if s.place t = .woken then some (s.goto t .check) else none
  | .check => some (s.goto t (if s.place t = .woken then .final false else .timeoutLock))
  | .timeoutLock => s.lockM t .timeoutFirst
  | .timeoutFirst =>
    if s.oldest = some t then
      some (s.unlink t (s.next t) (if s.next t = none then none else s.newest) s.next)
    else some (s.goto t (.timeoutSearch s.oldest))
  | .timeoutSearch none => some (s.goto t (.timeoutUnlock false))
  | .timeoutSearch (some p) =>
    if s.next p = some t then
      some (s.unlink t s.oldest (if s.next t = none then some p else s.newest)
        (update s.next p (s.next t)))
    else some (s.goto t (.timeoutSearch (s.next p)))
  | .timeoutUnlock timedOut => some (s.unlockM t (if timedOut then .final true else .rewait))
  | .rewait => if s.place t = .woken then some (s.goto t (.final false)) else none
  | .final timedOut =>
    if s.place t = .woken then
      some { s with depth := 1, pcs := update s.pcs t (.returned timedOut) }
    else some (s.goto t (.relock timedOut))
  | .relock _ => none
  | .returned _ =>
    some { s with
           place := update s.place t .absent
           pcs := update s.pcs t .idle
           sends := update s.sends t 0 }
  | .oneLock => s.lockM t .onePop
  | .onePop =>
    match s.oldest with
    | none => some (s.goto t .oneUnlock)
    | some r => some (s.pop t r)
  | .oneSend r => if s.userMutex then some (s.send t r .oneClear) else none
  | .oneClear =>
    some { s with
           userMutex := if s.oldest = none then false else s.userMutex
           pcs := update s.pcs t .oneUnlock }
  | .oneUnlock => some (s.unlockM t .idle)
  | .allLock => s.lockM t .allDetach
  | .allDetach => if s.oldest = none ∨ s.userMutex then some (s.detach t) else none
  | .allUnlock wr => some (s.unlockM t (.allHead wr))
  | .allHead none => some (s.goto t .idle)
  | .allHead (some r) => some (s.goto t (.allSend r (s.next r)))
  | .allSend r nextWr => some (s.send t r (.allInner nextWr none nextWr))
  | .allInner nextWr _ none => some (s.goto t (.allHead nextWr))
  | .allInner nextWr prevr (some r) =>
    if same then some (s.goto t (.allInnerSend nextWr prevr r (s.next r)))
    else some (s.goto t (.allInner nextWr (some r) (s.next r)))
  | .allInnerSend nextWr prevr r nextr => some (s.send t r (.allRelink nextWr prevr r nextr))
  | .allRelink nextWr prevr r nextr =>
    if nextWr = some r then some (s.goto t (.allInner nextr prevr nextr))
    else
      match prevr with
      | none => none
      | some p =>
        some { s with
               next := update s.next p nextr
               pcs := update s.pcs t (.allInner nextWr prevr nextr) }

/-- The user mutex is acquired for `t`. -/
def State.grant (s : State ι) (t : ι) : Option (State ι) :=
  if s.holder = none then
    if s.place t = .sent then
      some { s with holder := some t, place := update s.place t .woken }
    else
      match s.pcs t with
      | .lockUser =>
        some { s with holder := some t, depth := 1, pcs := update s.pcs t .idle }
      | .relock timedOut =>
        some { s with
               holder := some t
               depth := 1
               pcs := update s.pcs t (.returned timedOut) }
      | _ => none
  else none

def State.step (s : State ι) : Event ι → Option (State ι)
  | .lock t => if s.pcs t = .idle ∧ s.holder ≠ some t then some (s.goto t .lockUser) else none
  | .unlock t =>
    if s.pcs t = .idle ∧ s.holder = some t ∧ s.depth = 1 then
      some { s with holder := none, depth := 0 }
    else none
  | .wait t =>
    if s.pcs t = .idle ∧ s.holder = some t ∧ s.depth = 1 then
      some { s with next := update s.next t none
                    pcs := update s.pcs t .waitLock }
    else none
  | .wakeOne t =>
    if s.pcs t = .idle then some (s.goto t (if s.oldest = none then .idle else .oneLock))
    else none
  | .wakeAll t =>
    if s.pcs t = .idle then some (s.goto t (if s.oldest = none then .idle else .allLock))
    else none
  | .go t same => s.go t same
  | .expire t => if s.pcs t = .waiting then some (s.goto t .check) else none
  | .grant t => s.grant t
  | .enqueue t p =>
    if s.place t = .sent then some { s with next := update s.next t p } else none

/-- No call is under way and nobody holds the user mutex. -/
def State.init : State ι where
  m := none
  oldest := none
  newest := none
  next := fun _ => none
  userMutex := false
  holder := none
  depth := 0
  place := fun _ => .absent
  pcs := fun _ => .idle
  queue := []
  held := fun _ => []
  sends := fun _ => 0

def Runs : State ι → Prop :=
  Reachable (fun s => s = State.init) fun s s' => ∃ event, s.step event = some s'

end MiniOsv.Sync.Condvar
