/-
# Sync.LfMutex -- the lock-free mutex with wait morphing

`lockfree::mutex` counts the threads that hold it or want it, keeps wait records in a queue and
passes the duty to wake somebody on with `handoff`.  A thread that waits on a `waitqueue` under
the mutex is not woken by `wake_one`: its record is moved to the queue of the mutex
(`wake_lock`, `send_lock_unless_already_waiting`), and it owns the mutex when it wakes up.

Each access to a shared word is a step of its own; `push` and `pop` of the queue are one step.
A record lives on the stack of its thread, one kind for `lock` and one for a wait, so whether it
was woken is kept with the thread.  Waking is two steps, the clearing of the record and the change
of the thread's status.  What the waitqueue does under the mutex (taking a record out of its list)
is one step with the first access of `wake_lock`.

`held` (how often the mutex was taken and not yet given back) and `refused` (how often
`send_lock_unless_already_waiting` has returned false) are not in the code.
-/
import Mathlib.Algebra.Order.Ring.Int
import MiniOsv.Theory.Tally
import MiniOsv.Theory.Transition

namespace MiniOsv.Sync.LfMutex

open Theory

/-! ## The model -/

/-- The record of a thread in `lock`, and the record of a thread in `wait_for`. -/
inductive Kind
  | locker | waiter
  deriving DecidableEq, Repr

structure Record (κ : Type) where
  thread : κ
  kind : Kind
  deriving DecidableEq, Repr

inductive Status
  | running | waiting | sendingLock
  deriving DecidableEq, Repr

/-- The place of a thread.  `waits` says that `unlock` was called by `wait_for`. -/
inductive Pc (κ : Type)
  | idle
  | lockAdd
  | lockOwn
  | lockCheck
  | lockUndo
  | lockPush
  | lockHandoff
  | lockEmpty (old : ℕ)
  | lockCas (old : ℕ)
  | lockPop
  | lockWake (other : Record κ)
  | lockResume (r : κ)
  | lockWait
  | tryCas
  | tryCheck
  | tryHandoff
  | tryTake (old : ℕ)
  | tryAdd
  | unlockDepth (waits : Bool)
  | unlockOwner (waits : Bool)
  | unlockSub (waits : Bool)
  | unlockPop (waits : Bool)
  | unlockWake (waits : Bool) (other : Record κ)
  | unlockResume (waits : Bool) (r : κ)
  | unlockStore (waits : Bool)
  | unlockEmpty (waits : Bool) (ours : ℕ)
  | unlockCas (waits : Bool) (ours : ℕ)
  | sleep
  | sendAdd (r : κ)
  | sendScan (r : κ) (rest : List (Record κ))
  | sendPush (r : κ)
  /-- `send_lock_unless_already_waiting` has returned true. -/
  | sent (r : κ)
  /-- It has returned false. -/
  | refuse (r : κ)
  | clear (r : κ)
  deriving DecidableEq, Repr

structure Thread (κ : Type) where
  pc : Pc κ
  held : ℕ
  status : Status
  lockSent : Bool
  /-- The record of the wait is in the list of the waitqueue. -/
  armed : Bool
  lockerWoken : Bool
  waiterWoken : Bool
  deriving DecidableEq, Repr

structure State (κ : Type) where
  count : ℤ
  depth : ℕ
  owner : Option κ
  queue : List (Record κ)
  handoff : ℕ
  sequence : ℕ
  threads : κ → Thread κ
  refused : ℕ

inductive Event (κ : Type)
  | lock (t : κ)
  | tryLock (t : κ)
  | unlock (t : κ)
  /-- A turn of the loop of `wait_for`. -/
  | wait (t : κ)
  | disarm (t : κ)
  /-- `wake_lock` of the record of `r`, which is taken out of the waitqueue. -/
  | wakeLock (t r : κ)
  /-- A wake-up from elsewhere, such as a timer. -/
  | wake (r : κ)
  | go (t : κ)

/-- Where `unlock` returns to. -/
def Pc.after {κ : Type} (waits : Bool) : Pc κ := if waits then .sleep else .idle

/-- `if (++sequence == 0U) ++sequence`. -/
def bump (sequence : ℕ) : ℕ :=
  if (sequence + 1) % 2 ^ 32 = 0 then 1 else (sequence + 1) % 2 ^ 32

section Model

variable {κ : Type} [DecidableEq κ]

namespace State

def set (s : State κ) (t : κ) (th : Thread κ) : State κ :=
  { s with threads := Function.update s.threads t th }

def setPc (s : State κ) (t : κ) (pc : Pc κ) : State κ := s.set t { s.threads t with pc := pc }

def woken (s : State κ) (x : Record κ) : Bool :=
  match x.kind with
  | .locker => (s.threads x.thread).lockerWoken
  | .waiter => (s.threads x.thread).waiterWoken

/-- The record of a thread is cleared: `t.store(nullptr)`. -/
def cleared (kind : Kind) (th : Thread κ) : Thread κ :=
  match kind with
  | .locker => { th with lockerWoken := true }
  | .waiter => { th with waiterWoken := true }

/-- The next step of a thread; `none` when it sleeps or an assertion fails. -/
def go (s : State κ) (t : κ) : Option (State κ) :=
  let th := s.threads t
  match th.pc with
  | .idle => none
  | .lockAdd =>
    some ({ s with count := s.count + 1 }.setPc t (if s.count = 0 then .lockOwn else .lockCheck))
  | .lockOwn =>
    some ({ s with owner := some t, depth := 1 }.set t { th with held := th.held + 1, pc := .idle })
  | .lockCheck => some (s.setPc t (if s.owner = some t then .lockUndo else .lockPush))
  | .lockUndo => some ({ s with count := s.count - 1, depth := s.depth + 1 }.setPc t .idle)
  | .lockPush =>
    some ({ s with queue := s.queue ++ [(⟨t, .locker⟩ : Record κ)] }.set t
      { th with lockerWoken := false, pc := .lockHandoff })
  | .lockHandoff => some (s.setPc t (if s.handoff = 0 then .lockWait else .lockEmpty s.handoff))
  | .lockEmpty old => some (s.setPc t (if s.queue = [] then .lockWait else .lockCas old))
  | .lockCas old =>
    if s.handoff = old then some ({ s with handoff := 0 }.setPc t .lockPop)
    else some (s.setPc t .lockWait)
  | .lockPop =>
    match s.queue with
    | [] => none
    | other :: rest =>
      if other.thread = t then
        if other.kind = .locker then some ({ s with queue := rest }.setPc t .lockOwn) else none
      else if th.lockerWoken then none
      else some ({ s with queue := rest }.setPc t (.lockWake other))
  | .lockWake other =>
    some ((s.setPc t (.lockResume other.thread)).set other.thread
      (cleared other.kind (s.threads other.thread)))
  -- `wake_with_from_mutex` also wakes a thread to which the lock was sent
  | .lockResume r => some ((s.setPc t .lockWait).set r { s.threads r with status := .running })
  | .lockWait =>
    if th.status = .sendingLock then none
    else if th.lockerWoken then some (s.set t { th with status := .running, pc := .lockOwn })
    else if th.status = .running then some (s.set t { th with status := .waiting })
    else none
  | .tryCas =>
    if s.count = 0 then some ({ s with count := 1 }.setPc t .lockOwn)
    else some (s.setPc t .tryCheck)
  | .tryCheck =>
    if s.owner = some t then some ({ s with depth := s.depth + 1 }.setPc t .idle)
    else some (s.setPc t .tryHandoff)
  | .tryHandoff => some (s.setPc t (if s.handoff = 0 then .idle else .tryTake s.handoff))
  | .tryTake old =>
    if s.handoff = old then some ({ s with handoff := 0 }.setPc t .tryAdd)
    else some (s.setPc t .idle)
  | .tryAdd => some ({ s with count := s.count + 1 }.setPc t .lockOwn)
  | .unlockDepth waits =>
    if s.owner = some t ∧ s.depth ≠ 0 then
      some ({ s with depth := s.depth - 1 }.setPc t
        (if s.depth - 1 ≠ 0 then .after waits else .unlockOwner waits))
    else none
  | .unlockOwner waits => some ({ s with owner := none }.setPc t (.unlockSub waits))
  | .unlockSub waits =>
    some ({ s with count := s.count - 1 }.set t
      { th with held := th.held - 1, pc := if s.count = 1 then .after waits else .unlockPop waits })
  | .unlockPop waits =>
    match s.queue with
    | [] => some (s.setPc t (.unlockStore waits))
    | other :: rest =>
      if other.thread = t then none
      else some ({ s with queue := rest }.setPc t (.unlockWake waits other))
  | .unlockWake waits other =>
    some ((s.setPc t (.unlockResume waits other.thread)).set other.thread
      (cleared other.kind (s.threads other.thread)))
  | .unlockResume waits r =>
    some ((s.setPc t (.after waits)).set r { s.threads r with status := .running })
  | .unlockStore waits =>
    some ({ s with sequence := bump s.sequence, handoff := bump s.sequence }.setPc t
      (.unlockEmpty waits (bump s.sequence)))
  | .unlockEmpty waits ours =>
    some (s.setPc t (if s.queue = [] then .after waits else .unlockCas waits ours))
  | .unlockCas waits ours =>
    if s.handoff = ours then some ({ s with handoff := 0 }.setPc t (.unlockPop waits))
    else some (s.setPc t (.after waits))
  | .sleep =>
    if th.status = .running then
      if th.lockSent then
        some ({ s with owner := some t, depth := 1 }.set t
          { th with lockSent := false, held := th.held + 1, pc := .idle })
      else some (s.setPc t .lockAdd)
    else none
  | .sendAdd r =>
    if s.owner = some t then some ({ s with count := s.count + 1 }.setPc t (.sendScan r s.queue))
    else none
  | .sendScan r [] => some (s.setPc t (.sendPush r))
  | .sendScan r (x :: rest) =>
    if !s.woken x ∧ x.thread = r then
      some ({ s with refused := s.refused + 1 }.setPc t (.refuse r))
    else some (s.setPc t (.sendScan r rest))
  | .sendPush r =>
    some ({ s with queue := s.queue ++ [(⟨r, .waiter⟩ : Record κ)] }.setPc t (.sent r))
  | .sent r => some ((s.setPc t .idle).set r { s.threads r with lockSent := true })
  | .refuse r => some ((s.setPc t (.clear r)).set r { s.threads r with status := .waiting })
  | .clear r => some ((s.setPc t .idle).set r { s.threads r with waiterWoken := true })

def step (s : State κ) : Event κ → Option (State κ)
  | .go t => s.go t
  | .wake r =>
    if (s.threads r).status = .waiting then some (s.set r { s.threads r with status := .running })
    else none
  | .lock t => if (s.threads t).pc = .idle then some (s.setPc t .lockAdd) else none
  | .tryLock t => if (s.threads t).pc = .idle then some (s.setPc t .tryCas) else none
  | .unlock t =>
    if (s.threads t).pc = .idle ∧ 0 < (s.threads t).held then some (s.setPc t (.unlockDepth false))
    else none
  | .wait t =>
    let th := s.threads t
    if th.pc = .idle ∧ 0 < th.held then
      some (s.set t { th with armed := true, waiterWoken := th.armed && th.waiterWoken,
                              status := .waiting, pc := .unlockDepth true })
    else none
  | .disarm t =>
    if (s.threads t).pc = .idle ∧ 0 < (s.threads t).held then
      some (s.set t { s.threads t with armed := false })
    else none
  | .wakeLock t r =>
    if (s.threads t).pc = .idle ∧ 0 < (s.threads t).held ∧ r ≠ t ∧ (s.threads r).armed then
      if (s.threads r).status = .waiting then
        some ((s.setPc t (.sendAdd r)).set r
          { s.threads r with armed := false, status := .sendingLock })
      else some ((s.setPc t (.clear r)).set r { s.threads r with armed := false })
    else none

def Initial (s : State κ) : Prop :=
  s.count = 0 ∧ s.owner = none ∧ s.queue = [] ∧ s.handoff = 0 ∧ s.refused = 0 ∧
    ∀ t, (s.threads t).pc = .idle ∧ (s.threads t).held = 0 ∧ (s.threads t).status = .running ∧
      (s.threads t).lockSent = false ∧ (s.threads t).armed = false

end State

/-! ## Which runs are balanced -/

/-- In `wait_for`, from the release of the mutex on. -/
def Pc.waits : Pc κ → Bool
  | .unlockDepth waits | .unlockOwner waits | .unlockSub waits | .unlockPop waits
  | .unlockWake waits _ | .unlockResume waits _ | .unlockStore waits | .unlockEmpty waits _
  | .unlockCas waits _ => waits
  | .sleep => true
  | _ => false

/-- The thread whose record was cleared and whose status is about to be changed. -/
def Pc.resumes : Pc κ → Option κ
  | .lockResume r | .unlockResume _ r => some r
  | _ => none

namespace State

/-- The thread that `wake_lock` finds waiting sleeps in the wait itself, not in `lock`, and no
earlier wake-up of it is still under way. -/
def Allowed (s : State κ) : Event κ → Prop
  | .wakeLock _ r => (s.threads r).status = .waiting →
      (s.threads r).pc.waits = true ∧ ∀ t, (s.threads t).pc.resumes ≠ some r
  | _ => True

def ReachedAllowed (s : State κ) : Prop :=
  Reachable Initial (fun s t => ∃ event, s.Allowed event ∧ s.step event = some t) s

end State

/-! ## The invariant -/

/-- The record of `lock` has been pushed, and `lock` has not yet got the mutex. -/
def Pc.queued : Pc κ → Bool
  | .lockHandoff | .lockEmpty _ | .lockCas _ | .lockPop | .lockWake _ | .lockResume _
  | .lockWait => true
  | _ => false

/-- What a thread in the middle of an operation has added to `count`. -/
def Pc.share : Pc κ → ℕ
  | .lockOwn | .lockCheck | .lockUndo | .lockPush | .lockHandoff | .lockEmpty _ | .lockCas _
  | .lockPop | .lockWake _ | .lockResume _ | .lockWait => 1
  | .sendScan _ _ | .sendPush _ | .sent _ => 1
  | _ => 0

/-- The right to take the mutex or to wake somebody who takes it. -/
def Pc.token : Pc κ → ℕ
  | .lockOwn | .lockPop | .lockWake _ | .tryAdd | .unlockPop _ | .unlockWake _ _
  | .unlockStore _ => 1
  | _ => 0

/-- The places that only the holder of the mutex comes to. -/
def Pc.holds : Pc κ → Bool
  | .lockUndo | .unlockDepth _ | .unlockOwner _ | .unlockSub _ | .sendAdd _ | .sendScan _ _
  | .sendPush _ | .sent _ | .clear _ => true
  | _ => false

/-- The record that was popped and is about to be cleared. -/
def Pc.carries : Pc κ → Option (Record κ)
  | .lockWake other | .unlockWake _ other => some other
  | _ => none

/-- The record that was pushed for a thread that does not know it yet. -/
def Pc.owes : Pc κ → Option (Record κ)
  | .sent r => some ⟨r, .waiter⟩
  | _ => none

/-- The handoff that a thread has seen or stored. -/
def Pc.number : Pc κ → Option ℕ
  | .lockEmpty n | .lockCas n | .tryTake n | .unlockEmpty _ n | .unlockCas _ n => some n
  | _ => none

/-- The places of which the invariant says something of their own. -/
def Pc.special : Pc κ → Bool
  | .unlockSub _ | .sendScan _ _ | .refuse _ => true
  | _ => false

/-- What a thread is doing to another one. -/
inductive Role
  | send | clear | resume
  deriving DecidableEq, Repr

def Pc.acts : Pc κ → Option (κ × Role)
  | .sendAdd r | .sendScan r _ | .sendPush r | .sent r => some (r, .send)
  | .clear r => some (r, .clear)
  | .lockResume r | .unlockResume _ r => some (r, .resume)
  | _ => none

/-- What is known of the thread that another one acts on. -/
def Role.Fits : Role → Thread κ → Prop
  | .send, th => th.status = .sendingLock ∧ th.lockSent = false ∧ th.waiterWoken = false ∧
      th.armed = false
  | .clear, th => th.lockSent = false ∧ th.armed = false
  | .resume, th => th.status = .sendingLock → th.waiterWoken = true

/-- Whether a word is set. -/
def nonzero {α : Type} [Zero α] [DecidableEq α] (a : α) : ℕ := if a = 0 then 0 else 1

@[simp] theorem nonzero_zero {α : Type} [Zero α] [DecidableEq α] : nonzero (0 : α) = 0 := if_pos rfl

theorem nonzero_of_ne {α : Type} [Zero α] [DecidableEq α] {a : α} (ne : a ≠ 0) : nonzero a = 1 :=
  if_neg ne

def bit (b : Bool) : ℕ := if b then 1 else 0

@[simp] theorem bit_true : bit true = 1 := rfl

@[simp] theorem bit_false : bit false = 0 := rfl

namespace Thread

/-- What a thread has added to `count`, or what was added for it. -/
def share (th : Thread κ) : ℕ := th.held + th.pc.share + bit th.lockSent

def token (th : Thread κ) : ℕ :=
  th.held + th.pc.token + bit (th.pc.queued && th.lockerWoken) + bit (th.lockSent && th.waiterWoken)

/-- Whether a record of the thread is still to be cleared. -/
def wants (th : Thread κ) : Kind → ℕ
  | .locker => bit (th.pc.queued && !th.lockerWoken)
  | .waiter => bit (th.lockSent && !th.waiterWoken)

def carriesOne (o : Record κ) (th : Thread κ) : ℕ := if th.pc.carries = some o then 1 else 0

def owesOne (o : Record κ) (th : Thread κ) : ℕ := if th.pc.owes = some o then 1 else 0

/-- What holds of each thread by itself. -/
structure Ok (th : Thread κ) : Prop where
  held : th.pc.holds = true → 0 < th.held
  number : th.pc.number ≠ some 0
  waiting : th.status = .waiting → th.pc.waits = true ∨ th.pc = .lockWait
  sending : th.status = .sendingLock → th.pc.waits = true
  sent : th.lockSent = true → th.pc.waits = true ∧ th.armed = false ∧
    (th.waiterWoken = false → th.status = .sendingLock)
  armed : th.armed = true → th.waiterWoken = false
  accepted : ∀ r, th.pc ≠ .refuse r

end Thread

/-- **The accounts.**  `count` is what the threads have added; exactly one thread has the right to
go on while `count` is not zero; a record is in the queue or in the hands of a waker as often as
its thread waits for it. -/
structure Accounts [Fintype κ] (s : State κ) : Prop where
  balance : s.count = tally Thread.share s.threads
  token : tally Thread.token s.threads + nonzero s.handoff = nonzero s.count
  records : ∀ o, s.queue.count o + tally (Thread.carriesOne o) s.threads =
    (s.threads o.thread).wants o.kind + tally (Thread.owesOne o) s.threads

/-- **The places.**  What each thread's place says of itself, of the owner and of the thread it
acts on. -/
structure Places (s : State κ) : Prop where
  ok : ∀ t, (s.threads t).Ok
  owner : ∀ t, s.owner = some t → 0 < (s.threads t).held
  released : ∀ t waits, (s.threads t).pc = .unlockSub waits → s.owner ≠ some t
  carried : ∀ t o, (s.threads t).pc.carries = some o → o.thread ≠ t
  acts : ∀ t r role, (s.threads t).pc.acts = some (r, role) → r ≠ t ∧ role.Fits (s.threads r)
  scans : ∀ t r rest, (s.threads t).pc = .sendScan r rest → ∀ x ∈ rest, x.thread ≠ r
  refused : s.refused = 0

structure Inv [Fintype κ] (s : State κ) : Prop where
  accounts : Accounts s
  places : Places s

end Model

end MiniOsv.Sync.LfMutex
