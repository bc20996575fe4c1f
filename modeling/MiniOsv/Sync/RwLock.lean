/-
# Sync.RwLock -- core/rwlock.cc, one atomic access per step

The state of a read-write lock with the threads that use it.  A thread between two
operations is `idle`; the program counter of a thread inside an operation names the next
access it makes to `_readers`, `_writer_wait`, `_wmtx` or the queue of waiting readers,
and carries the local variables that are still live.  `call` starts an operation and
makes its first access, `run` makes the next one.  A `compare_exchange_weak` may fail for
no reason, which is the argument of `run`.

`_wmtx` is an exclusive recursive mutex: it has an owner, and each thread knows how often
it holds it.  A `wlock` that cannot have the mutex yet has not started, and a failed
`try_lock` changes nothing, so neither has a step.  `wake` changes nothing here: a waiting
thread goes on when its own condition holds.
-/
import MiniOsv.Sync.RwWord

namespace MiniOsv.Sync

universe u

inductive RwOp
  | tryRlock | rlock | runlock | tryUpgrade | tryWlock | wlock | wunlock | downgrade
  deriving DecidableEq, Repr

/-- The caller of `wake_pending_readers`. -/
inductive Waker
  | wunlock | downgrade
  deriving DecidableEq, Repr

/-- The functions with assertions. -/
inductive AssertIn
  | tryRlock | rlock | runlock | wunlock | downgrade
  deriving DecidableEq, Repr

/-- The next access of a thread. -/
inductive RwPc (T : Type u)
  | idle
  /-- The exchange of `try_rlock` and of the first loop of `rlock`. -/
  | tryRlockCas (prev : Word)
  | rlockCas (prev : Word)
  /-- `fetch_add(1)`, then the second loop, the push and the wait. -/
  | rlockPend
  | rlockConvert (prev : Word)
  | rlockPush
  /-- `granted`: a waker has added the reader on its behalf, but not yet cleared the
  value the reader waits for, which is `cleared`. -/
  | rlockWait (granted cleared : Bool)
  | runlockOwner
  | runlockStore (writer : T)
  | upgradeLoad
  | upgradeCas (prev : Word)
  | tryWlockLoad
  | tryWlockCas (prev : Word)
  /-- The `_wmtx.unlock()` of a failed `try_upgrade` or `try_wlock`. -/
  | tryUnlock
  | wlockCheck
  | wlockStore
  | wlockOr
  | wlockCas (prev : Word)
  | wlockDone
  | wlockWait
  | wlockAdd
  | wunlockInner
  | wunlockAnd
  | wunlockMtx
  | wakePop (waker : Waker)
  | wakeReload (waker : Waker)
  | wakeGrant (waker : Waker) (reader : T)
  | wakeStore (waker : Waker) (reader : T) (pending : Word)
  | downgradeLoad
  | downgradeCas (prev : Word)
  | downgradeReload
  | downgradeMtx
  | failed (site : AssertIn)
  deriving DecidableEq

structure RwThread (T : Type u) where
  pc : RwPc T
  /-- How often the thread holds the lock for reading. -/
  rholds : ℕ
  /-- How often it holds `_wmtx`. -/
  locks : ℕ
  deriving DecidableEq

structure RwLock (T : Type u) where
  readers : Word
  writerWait : Bool
  wmtxOwner : Option T
  readWaiters : List T
  threads : T → RwThread T

/-! ## Loop heads -/

section Heads

variable {T : Type u}

def tryRlockLoop (prev : Word) : RwPc T :=
  if prev < pendingWriter then .tryRlockCas prev else .idle

/-- The first loop of `rlock` and the assertion behind it. -/
def rlockLoop (prev : Word) : RwPc T :=
  if prev < pendingWriter then .rlockCas prev
  else if (pendingReadersMask &&& prev) + 1 < readerLockInc then .rlockPend
  else .failed .rlock

def convertLoop (prev : Word) : RwPc T :=
  if prev < pendingWriter then .rlockConvert prev else .rlockPush

/-- The assertion at the start of `try_rlock`, `rlock` and `downgrade`. -/
def readersFit (prev : Word) : Bool := (readersMask &&& prev) + readerLockInc < pendingWriter

def runlockTest (prev : Word) : RwPc T :=
  if !(decide (prev > 0) && decide (prev < writerLock)) then .failed .runlock
  else if prev &&& readersMask = readerLockInc ∧ prev &&& pendingWriter ≠ 0 then .runlockOwner
  else .idle

def wlockLoop (prev : Word) : RwPc T :=
  if prev &&& readersMask = 0 then .wlockCas prev else .wlockWait

/-- The loop of `wake_pending_readers` and what its caller does next. -/
def wakeLoop (waker : Waker) (pending : Word) : RwPc T :=
  if pending = 0 then
    match waker with
    | .wunlock => .wunlockMtx
    | .downgrade => .downgradeMtx
  else .wakePop waker

end Heads

namespace RwLock

variable {T : Type u} [DecidableEq T]

/-! ## Updates -/

def set (s : RwLock T) (t : T) (thread : RwThread T) : RwLock T :=
  { s with threads := Function.update s.threads t thread }

def goto (s : RwLock T) (t : T) (pc : RwPc T) : RwLock T :=
  s.set t { s.threads t with pc := pc }

/-- The calling thread returns with one more hold for reading. -/
def readAcquired (s : RwLock T) (t : T) : RwLock T :=
  s.set t { s.threads t with pc := .idle, rholds := (s.threads t).rholds + 1 }

def mtxAvailable (s : RwLock T) (t : T) : Bool := s.wmtxOwner = none ∨ s.wmtxOwner = some t

def mtxLock (s : RwLock T) (t : T) (pc : RwPc T) : RwLock T :=
  { s with wmtxOwner := some t }.set t
    { s.threads t with pc := pc, locks := (s.threads t).locks + 1 }

def mtxUnlock (s : RwLock T) (t : T) (pc : RwPc T) : RwLock T :=
  { s with wmtxOwner := if (s.threads t).locks = 1 then none else s.wmtxOwner }.set t
    { s.threads t with pc := pc, locks := (s.threads t).locks - 1 }

/-! ## Steps -/

/-- An idle thread starts an operation.  It unlocks only what it holds, and `try_upgrade`
is for readers. -/
def call (s : RwLock T) (t : T) : RwOp → Option (RwLock T)
  | .tryRlock =>
    some (s.goto t (if readersFit s.readers then tryRlockLoop s.readers else .failed .tryRlock))
  | .rlock => some (s.goto t (if readersFit s.readers then rlockLoop s.readers else .failed .rlock))
  | .runlock =>
    if (s.threads t).rholds = 0 then none
    else some ({ s with readers := s.readers + -readerLockInc }.set t
      { s.threads t with
        pc := runlockTest s.readers
        rholds := (s.threads t).rholds - 1 })
  | .tryUpgrade =>
    if (s.threads t).rholds = 0 then none
    else if s.mtxAvailable t then some (s.mtxLock t .upgradeLoad) else none
  | .tryWlock => if s.mtxAvailable t then some (s.mtxLock t .tryWlockLoad) else none
  | .wlock => if s.mtxAvailable t then some (s.mtxLock t .wlockCheck) else none
  | .wunlock =>
    if (s.threads t).locks = 0 then none
    else if s.readers &&& writerLock = 0 then some (s.goto t (.failed .wunlock))
    else if (s.threads t).locks > 1 then some (s.goto t .wunlockInner)
    else some (s.goto t .wunlockAnd)
  | .downgrade =>
    if (s.threads t).locks = 0 then none
    else if s.readers &&& writerLock = 0 then some (s.goto t (.failed .downgrade))
    else some (s.goto t .downgradeLoad)

def run (s : RwLock T) (t : T) (spurious : Bool) : Option (RwLock T) :=
  match (s.threads t).pc with
  | .idle => none
  | .failed _ => none
  | .tryRlockCas prev =>
    if s.readers = prev ∧ spurious = false then
      some ({ s with readers := prev + readerLockInc }.readAcquired t)
    else some (s.goto t (tryRlockLoop s.readers))
  | .rlockCas prev =>
    if s.readers = prev ∧ spurious = false then
      some ({ s with readers := prev + readerLockInc }.readAcquired t)
    else some (s.goto t (rlockLoop s.readers))
  | .rlockPend =>
    some ({ s with readers := s.readers + 1 }.goto t (convertLoop (s.readers + 1)))
  | .rlockConvert prev =>
    if s.readers = prev ∧ spurious = false then
      some ({ s with readers := prev + (readerLockInc - 1) }.readAcquired t)
    else some (s.goto t (convertLoop s.readers))
  | .rlockPush =>
    some ({ s with readWaiters := s.readWaiters ++ [t] }.goto t (.rlockWait false false))
  | .rlockWait _ cleared => if cleared then some (s.readAcquired t) else none
  | .runlockOwner =>
    match s.wmtxOwner with
    | none => some (s.goto t .idle)
    | some writer => some (s.goto t (.runlockStore writer))
  | .runlockStore _ => some ({ s with writerWait := false }.goto t .idle)
  | .upgradeLoad =>
    if s.readers &&& indReadMask = readerLockInc then some (s.goto t (.upgradeCas s.readers))
    else some (s.goto t .tryUnlock)
  | .upgradeCas prev =>
    if s.readers = prev then
      some ({ s with readers := writerLock ||| (prev &&& pendingReadersMask) }.set t
        { s.threads t with pc := .idle, rholds := (s.threads t).rholds - 1 })
    else some (s.goto t .tryUnlock)
  | .tryWlockLoad =>
    if s.readers &&& readersMask = 0 ∧ s.readers &&& writerLock = 0 then
      some (s.goto t (.tryWlockCas s.readers))
    else if s.readers &&& writerLock ≠ 0 then some (s.goto t .idle)
    else some (s.goto t .tryUnlock)
  | .tryWlockCas prev =>
    if s.readers = prev then
      some ({ s with readers := writerLock ||| (prev &&& pendingReadersMask) }.goto t .idle)
    else some (s.goto t .tryUnlock)
  | .tryUnlock => some (s.mtxUnlock t .idle)
  | .wlockCheck =>
    if s.readers &&& writerLock ≠ 0 then some (s.goto t .idle) else some (s.goto t .wlockStore)
  | .wlockStore => some ({ s with writerWait := true }.goto t .wlockOr)
  | .wlockOr =>
    some ({ s with readers := s.readers ||| pendingWriter }.goto t
      (wlockLoop (s.readers ||| pendingWriter)))
  | .wlockCas prev =>
    if s.readers = prev ∧ spurious = false then
      some ({ s with readers := writerLock ||| (prev &&& pendingReadersMask) }.goto t .wlockDone)
    else some (s.goto t (wlockLoop s.readers))
  | .wlockDone => some ({ s with writerWait := false }.goto t .idle)
  | .wlockWait => if s.writerWait then none else some (s.goto t .wlockAdd)
  | .wlockAdd => some ({ s with readers := s.readers + pendingWriter }.goto t .idle)
  | .wunlockInner => some (s.mtxUnlock t .idle)
  | .wunlockAnd =>
    some ({ s with readers := s.readers &&& ~~~writerLock }.goto t
      (wakeLoop .wunlock (s.readers &&& pendingReadersMask)))
  | .wunlockMtx => some (s.mtxUnlock t .idle)
  | .wakePop waker =>
    match s.readWaiters with
    | [] => some (s.goto t (.wakeReload waker))
    | reader :: rest => some ({ s with readWaiters := rest }.goto t (.wakeGrant waker reader))
  | .wakeReload waker => some (s.goto t (wakeLoop waker (s.readers &&& pendingReadersMask)))
  | .wakeGrant waker reader =>
    some (({ s with readers := s.readers + (readerLockInc - 1) }.goto t
      (.wakeStore waker reader (s.readers &&& pendingReadersMask))).goto reader
      (.rlockWait true false))
  | .wakeStore waker reader pending =>
    some ((s.goto t (wakeLoop waker pending)).goto reader (.rlockWait true true))
  | .downgradeLoad =>
    some (s.goto t (if readersFit s.readers then .downgradeCas s.readers else .failed .downgrade))
  | .downgradeCas prev =>
    if s.readers = prev ∧ spurious = false then
      some ({ s with readers := (prev &&& ~~~writerLock) + readerLockInc }.set t
        { s.threads t with pc := .downgradeReload, rholds := (s.threads t).rholds + 1 })
    else some (s.goto t (.downgradeCas s.readers))
  | .downgradeReload =>
    some (s.goto t (wakeLoop .downgrade (s.readers &&& pendingReadersMask)))
  | .downgradeMtx =>
    some (s.mtxUnlock t (if (s.threads t).locks = 1 then .idle else .downgradeMtx))

/-- One step of one thread. -/
inductive Step : RwLock T → RwLock T → Prop
  | call {s s' : RwLock T} (t : T) (op : RwOp) (idle : (s.threads t).pc = .idle)
      (result : s.call t op = some s') : Step s s'
  | run {s s' : RwLock T} (t : T) (spurious : Bool) (result : s.run t spurious = some s') : Step s s'

def initial : RwLock T where
  readers := 0
  writerWait := false
  wmtxOwner := none
  readWaiters := []
  threads := fun _ => ⟨.idle, 0, 0⟩

end RwLock

end MiniOsv.Sync
