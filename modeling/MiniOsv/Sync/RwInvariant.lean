/-
# Sync.RwInvariant -- the phases of a read-write lock

Only the owner of `_wmtx` can block readers, own the lock for writing or wake pending
readers, so the state of the whole lock is known from where that thread stands: this is
the lock's `Phase`.  The invariant says that `_readers` is the packing of the phase's two
flags with the number of owning and of waiting readers (`word`), what each phase implies
for `_writer_wait` and the counts (`phaseOk`), that readers who went to wait without a
chance to convert are owed a wake-up by the phase (`stuck`), and which readers are in the
queue or in the hand of the waker (`RwQueue`).

Every step of the lock moves one thread, and a waker one reader besides.  The lemmas here
say what such an update does to phase, counts and queue; the steps are in the next module.
-/
import MiniOsv.Sync.RwLock
import MiniOsv.Theory.Tally

namespace MiniOsv.Sync

open Theory RwThread Function

universe u

/-- Where the owner of `_wmtx` stands, as far as the others are concerned. -/
inductive Phase
  /-- No owner, or one that has not touched the lock yet or is done with it. -/
  | free
  /-- `_writer_wait` is set, `PENDING_WRITER` is not. -/
  | announced
  /-- `PENDING_WRITER` is set and there is no reader. -/
  | claiming
  /-- `PENDING_WRITER` is set and the writer waits for the last reader. -/
  | sleeping
  | adding
  | writing
  /-- The lock was released and pending readers are being woken. -/
  | waking
  deriving DecidableEq, Repr

namespace Phase

def writer : Phase → Bool
  | .writing => true
  | _ => false

def pending : Phase → Bool
  | .claiming | .sleeping | .adding => true
  | _ => false

/-- What a phase implies for `_writer_wait`, the number of owning readers and the number of
readers between the decrement and the store of `runlock`. -/
def Ok : Phase → Bool → ℕ → ℕ → Prop
  | .free, _, _, releasing => releasing = 0
  | .announced, wait, _, releasing => releasing = 0 ∧ wait = true
  | .claiming, wait, owning, releasing => owning = 0 ∧ releasing = 0 ∧ wait = true
  | .sleeping, wait, owning, releasing =>
    wait = true ∧ (0 < owning ∧ releasing = 0 ∨ owning = 0 ∧ releasing = 1) ∨
      wait = false ∧ owning = 0 ∧ releasing = 0
  | .adding, _, owning, releasing => owning = 0 ∧ releasing = 0
  | .writing, _, owning, releasing => owning = 0 ∧ releasing = 0
  | .waking, _, _, releasing => releasing = 0

/-- The owner will see the pending readers before it gives up `_wmtx`. -/
def Wakes : Phase → Prop
  | .free | .announced => False
  | _ => True

end Phase

namespace RwThread

variable {T : Type u}

/-- Holds for reading, with one that a waker has granted. -/
def owning (l : RwThread T) : ℕ :=
  l.rholds + match l.pc with
    | .rlockWait true _ => 1
    | _ => 0

/-- The thread is between its `fetch_add(1)` and its grant. -/
def waiting (l : RwThread T) : ℕ :=
  match l.pc with
  | .rlockConvert _ | .rlockPush | .rlockWait false _ => 1
  | _ => 0

/-- The thread has to make the store of `runlock`. -/
def releasing (l : RwThread T) : ℕ :=
  match l.pc with
  | .runlockOwner | .runlockStore _ => 1
  | _ => 0

/-- Waiting without a chance to convert. -/
def Stuck (l : RwThread T) : Prop :=
  match l.pc with
  | .rlockPush | .rlockWait false _ => True
  | _ => False

def phase (l : RwThread T) : Phase :=
  match l.pc with
  -- With `_wmtx` taken once more, the lock is held already when this is not the first time.
  | .wlockCheck | .tryWlockLoad | .upgradeLoad | .upgradeCas _ | .tryUnlock =>
    if 2 ≤ l.locks then .writing else .free
  | .tryWlockCas _ | .wlockStore | .wunlockMtx | .downgradeMtx => .free
  | .wlockOr => .announced
  | .wlockCas _ => .claiming
  | .wlockWait => .sleeping
  | .wlockAdd => .adding
  | .wakePop _ | .wakeReload _ | .wakeGrant _ _ | .wakeStore _ _ _ | .downgradeReload => .waking
  | _ => if 1 ≤ l.locks then .writing else .free

/-- How often the thread holds `_wmtx` when its waker role ends. -/
def WakerOk (l : RwThread T) : Waker → Prop
  | .wunlock => l.locks = 1
  | .downgrade => 1 ≤ l.locks

def Ok (l : RwThread T) : Prop :=
  match l.pc with
  | .tryRlockCas prev | .rlockCas prev | .rlockConvert prev => prev < pendingWriter
  | .rlockWait granted cleared => cleared = true → granted = true
  | .upgradeLoad => 1 ≤ l.locks ∧ 1 ≤ l.rholds
  | .upgradeCas prev => 1 ≤ l.locks ∧ 1 ≤ l.rholds ∧ prev &&& indReadMask = readerLockInc
  | .tryWlockLoad | .tryUnlock | .wlockCheck => 1 ≤ l.locks
  | .tryWlockCas prev => l.locks = 1 ∧ prev &&& readersMask = 0
  | .wlockStore | .wlockOr | .wlockCas _ | .wlockDone | .wlockWait | .wlockAdd => l.locks = 1
  | .wunlockInner => 2 ≤ l.locks
  | .wunlockAnd | .wunlockMtx => l.locks = 1
  | .wakePop waker | .wakeReload waker | .wakeGrant waker _ => l.WakerOk waker
  | .wakeStore waker _ pending => l.WakerOk waker ∧ pending ≠ 0
  | .downgradeLoad | .downgradeCas _ | .downgradeReload | .downgradeMtx => 1 ≤ l.locks
  | .failed .runlock | .failed .wunlock | .failed .downgrade => False
  | _ => True

/-- The thread is not one that a waker has in the queue or in its hand. -/
def Aside (l : RwThread T) : Prop := ∀ granted, l.pc ≠ .rlockWait granted false

/-- The thread has no reader in its hand. -/
def NoWaker (l : RwThread T) : Prop :=
  (∀ waker reader, l.pc ≠ .wakeGrant waker reader) ∧
    ∀ waker reader pending, l.pc ≠ .wakeStore waker reader pending

/-- The two stand for the same in the word and in the phase. -/
structure Alike (l l' : RwThread T) : Prop where
  phase : l'.phase = l.phase
  owning : l'.owning = l.owning
  waiting : l'.waiting = l.waiting
  releasing : l'.releasing = l.releasing

/-- The thread counts for what it holds and for nothing else. -/
structure Plain (l : RwThread T) : Prop where
  phase : l.phase = if 1 ≤ l.locks then .writing else .free
  owning : l.owning = l.rholds
  waiting : l.waiting = 0
  releasing : l.releasing = 0
  aside : l.Aside
  noWaker : l.NoWaker

/-- Where that is so. -/
def isPlain : RwPc T → Bool
  | .idle | .tryRlockCas _ | .rlockCas _ | .rlockPend | .wlockDone => true
  | .wunlockInner | .wunlockAnd | .downgradeLoad | .downgradeCas _ | .failed _ => true
  | _ => false

variable {l : RwThread T}

theorem plain_of_pc (plain : isPlain l.pc = true) : l.Plain := by
  obtain ⟨pc, rholds, locks⟩ := l
  cases pc <;> simp only [isPlain, Bool.false_eq_true] at plain <;> constructor <;>
    simp [phase, owning, waiting, releasing, Aside, NoWaker]

/-- Where a thread counts as a reader only for what it holds. -/
def isActive : RwPc T → Bool
  | .rlockConvert _ | .rlockPush | .rlockWait _ _ | .runlockOwner | .runlockStore _ => false
  | _ => true

structure Active (l : RwThread T) : Prop where
  owning : l.owning = l.rholds
  waiting : l.waiting = 0
  releasing : l.releasing = 0
  aside : l.Aside

theorem active_of_pc (active : isActive l.pc = true) : l.Active := by
  obtain ⟨pc, rholds, locks⟩ := l
  cases pc <;> simp only [isActive, Bool.false_eq_true] at active <;> constructor <;>
    simp [owning, waiting, releasing, Aside]

theorem Stuck.waiting_pos (stuck : l.Stuck) : 0 < l.waiting := by
  unfold Stuck at stuck
  unfold waiting
  split at stuck <;> simp_all

theorem WakerOk.pos {waker : Waker} (ok : l.WakerOk waker) : 1 ≤ l.locks := by
  cases waker with
  | wunlock => exact Nat.le_of_eq ok.symm
  | downgrade => exact ok

/-- A thread without `_wmtx` takes no part in the phase. -/
theorem phase_of_unlocked (ok : l.Ok) (none : l.locks = 0) : l.phase = .free := by
  obtain ⟨pc, rholds, locks⟩ := l
  simp only at none
  subst none
  cases pc with
  | wakePop waker => exact absurd (WakerOk.pos ok) (by simp)
  | wakeReload waker => exact absurd (WakerOk.pos ok) (by simp)
  | wakeGrant waker reader => exact absurd (WakerOk.pos ok) (by simp)
  | wakeStore waker reader pending => exact absurd (WakerOk.pos ok.1) (by simp)
  | _ => simp_all [Ok, phase]

end RwThread

/-! ## The invariant -/

namespace RwLock

variable {T : Type u}

def phase (s : RwLock T) : Phase :=
  match s.wmtxOwner with
  | none => .free
  | some t => (s.threads t).phase

/-- Readers in the queue and in the hand of the waker. -/
structure RwQueue (s : RwLock T) : Prop where
  queued : ∀ t ∈ s.readWaiters, (s.threads t).pc = .rlockWait false false
  nodup : s.readWaiters.Nodup
  inHand : ∀ t waker reader, (s.threads t).pc = .wakeGrant waker reader →
    (s.threads reader).pc = .rlockWait false false ∧ reader ∉ s.readWaiters
  granting : ∀ t waker reader pending, (s.threads t).pc = .wakeStore waker reader pending →
    (s.threads reader).pc = .rlockWait true false

variable [Fintype T]

def owning (s : RwLock T) : ℕ := tally RwThread.owning s.threads

def waiting (s : RwLock T) : ℕ := tally RwThread.waiting s.threads

def releasing (s : RwLock T) : ℕ := tally RwThread.releasing s.threads

/-- The documented limits: 16383 owning and 65535 pending readers. -/
def Within (s : RwLock T) : Prop := s.owning ≤ 16383 ∧ s.waiting ≤ 65535

/-- What holds of the word, the mutex and the threads. -/
structure Core (s : RwLock T) : Prop where
  locals : ∀ t, (s.threads t).Ok
  mutex : ∀ t, s.wmtxOwner = some t ↔ 1 ≤ (s.threads t).locks
  word : s.readers = pack s.phase.writer s.phase.pending s.owning s.waiting
  within : s.Within
  phaseOk : s.phase.Ok s.writerWait s.owning s.releasing
  stuck : ∀ t, (s.threads t).Stuck → s.phase.Wakes

structure Inv (s : RwLock T) : Prop extends Core s where
  queue : s.RwQueue

/-- The invariant, of a state within the limits. -/
def Good (s : RwLock T) : Prop := s.Within → Inv s

theorem Inv.initial : Inv (initial : RwLock T) := by
  have owning : RwLock.owning (RwLock.initial : RwLock T) = 0 := tally_eq_zero.2 fun _ => rfl
  have waiting : RwLock.waiting (RwLock.initial : RwLock T) = 0 := tally_eq_zero.2 fun _ => rfl
  have releasing : RwLock.releasing (RwLock.initial : RwLock T) = 0 := tally_eq_zero.2 fun _ => rfl
  refine ⟨⟨fun _ => trivial, fun t => ?_, ?_, ?_, releasing, fun t stuck => stuck.elim⟩, ?_⟩
  · simp [RwLock.initial]
  · rw [owning, waiting]
    rfl
  · simp [Within, owning, waiting]
  · constructor <;> simp [RwLock.initial]

/-! ## One thread moves -/

theorem Core.lt {s : RwLock T} (core : Core s) : s.owning < 2 ^ 14 ∧ s.waiting < 2 ^ 16 := by
  have := core.within
  simp only [Within] at this
  omega

section Update

variable [DecidableEq T] {s s' : RwLock T} {t : T} {l : RwThread T}
  (threads : s'.threads = update s.threads t l)
include threads

theorem owning_update : s'.owning + (s.threads t).owning = s.owning + l.owning := by
  rw [owning, owning, threads]
  exact tally_update _ _ _ _

theorem waiting_update : s'.waiting + (s.threads t).waiting = s.waiting + l.waiting := by
  rw [waiting, waiting, threads]
  exact tally_update _ _ _ _

theorem releasing_update : s'.releasing + (s.threads t).releasing = s.releasing + l.releasing := by
  rw [releasing, releasing, threads]
  exact tally_update _ _ _ _

omit [Fintype T] in
theorem threads_self : s'.threads t = l := by rw [threads, update_self]

omit [Fintype T] in
theorem threads_other {v : T} (ne : v ≠ t) : s'.threads v = s.threads v := by
  rw [threads, update_of_ne ne]

omit [Fintype T] in
theorem phase_of_owner (owner : s'.wmtxOwner = some t) : s'.phase = l.phase := by
  rw [phase, owner]
  exact congrArg RwThread.phase (threads_self threads)

omit [Fintype T] in
/-- A step that keeps the phase of the thread keeps the phase of the lock. -/
theorem phase_of_same (owner : s'.wmtxOwner = s.wmtxOwner)
    (same : l.phase = (s.threads t).phase) : s'.phase = s.phase := by
  rw [phase, phase, owner]
  cases s.wmtxOwner with
  | none => rfl
  | some v =>
    by_cases self : v = t
    · subst self
      exact (congrArg RwThread.phase (threads_self threads)).trans same
    · exact congrArg RwThread.phase (threads_other threads self)

omit [Fintype T] in
theorem locals_update (locals : ∀ v, (s.threads v).Ok) (ok : l.Ok) : ∀ v, (s'.threads v).Ok := by
  intro v
  by_cases self : v = t
  · rw [self, threads_self threads]
    exact ok
  · rw [threads_other threads self]
    exact locals v

omit [Fintype T] in
/-- A thread that is neither in the queue nor a waker leaves the queue alone. -/
theorem RwQueue.update (queue : s.RwQueue) (waiters : s'.readWaiters = s.readWaiters)
    (aside : (s.threads t).Aside) (noWaker : l.NoWaker) : s'.RwQueue := by
  have reader : ∀ v granted, (s.threads v).pc = .rlockWait granted false →
      (s'.threads v).pc = .rlockWait granted false := by
    intro v granted at_
    have other : v ≠ t := fun same => aside granted (same ▸ at_)
    rw [threads_other threads other]
    exact at_
  have mover : ∀ v pc, (s'.threads v).pc = pc → pc ≠ l.pc → (s.threads v).pc = pc := by
    intro v pc at_ ne
    have other : v ≠ t := fun same => by
      rw [same, threads_self threads] at at_
      exact ne at_.symm
    rwa [threads_other threads other] at at_
  refine ⟨?_, ?_, ?_, ?_⟩
  · intro v mem
    rw [waiters] at mem
    exact reader v false (queue.queued v mem)
  · rw [waiters]
    exact queue.nodup
  · intro v waker r at_
    obtain ⟨waits, absent⟩ := queue.inHand v waker r (mover v _ at_ (noWaker.1 waker r).symm)
    exact ⟨reader r false waits, by rw [waiters]; exact absent⟩
  · intro v waker r pending at_
    exact reader r true (queue.granting v waker r pending (mover v _ at_ (noWaker.2 _ _ _).symm))

end Update

section Write

variable [DecidableEq T] {s : RwLock T} {t : T}

/-- The state after an access that moves only `t` and leaves the mutex and the queue alone. -/
def write (s : RwLock T) (t : T) (readers : Word) (wait : Bool) (l : RwThread T) : RwLock T :=
  { s with readers := readers, writerWait := wait }.set t l

/-- What has to be said of such an access: the phase and the counts after it. -/
theorem Core.write {readers : Word} {wait : Bool} {l : RwThread T} (core : Core s)
    (m : Phase) (owning waiting : ℕ)
    (phase : (s.write t readers wait l).phase = m)
    (locks : l.locks = (s.threads t).locks) (ok : l.Ok)
    (within : (s.write t readers wait l).Within)
    (owningEq : owning + (s.threads t).owning = s.owning + l.owning)
    (waitingEq : waiting + (s.threads t).waiting = s.waiting + l.waiting)
    (word : readers = pack m.writer m.pending owning waiting)
    (phaseOk : ∀ releasing, releasing + (s.threads t).releasing = s.releasing + l.releasing →
      m.Ok wait owning releasing)
    (stuck : l.Stuck → m.Wakes) (wakes : 0 < waiting → s.phase.Wakes → m.Wakes) :
    Core (s.write t readers wait l) := by
  have threads : (s.write t readers wait l).threads = update s.threads t l := rfl
  have owning' : (s.write t readers wait l).owning = owning := by
    have := owning_update threads
    omega
  have waiting' : (s.write t readers wait l).waiting = waiting := by
    have := waiting_update threads
    omega
  refine ⟨locals_update threads core.locals ok, fun v => (core.mutex v).trans ?_, ?_, within,
    ?_, ?_⟩
  · by_cases self : v = t
    · rw [self, threads_self threads, locks]
    · rw [threads_other threads self]
  · rw [phase, owning', waiting']
    exact word
  · rw [phase, owning']
    exact phaseOk _ (releasing_update threads)
  · intro v isStuck
    rw [phase]
    by_cases self : v = t
    · rw [self, threads_self threads] at isStuck
      exact stuck isStuck
    · have pos : 0 < waiting :=
        waiting' ▸ Nat.lt_of_lt_of_le isStuck.waiting_pos (le_tally _ _ v)
      rw [threads_other threads self] at isStuck
      exact wakes pos (core.stuck v isStuck)

/-- The thread moves on and counts for the same as before. -/
theorem Core.goto {pc : RwPc T} (core : Core s) (ok : Ok { s.threads t with pc := pc })
    (alike : (s.threads t).Alike { s.threads t with pc := pc })
    (stuck : Stuck { s.threads t with pc := pc } → s.phase.Wakes)
    (within : (s.goto t pc).Within) : Core (s.goto t pc) := by
  refine core.write s.phase s.owning s.waiting (phase_of_same rfl rfl alike.phase) rfl ok within
    (by rw [alike.owning]) (by rw [alike.waiting]) core.word ?_ stuck fun _ => id
  intro releasing releasingEq
  rw [alike.releasing] at releasingEq
  rw [Nat.add_right_cancel releasingEq]
  exact core.phaseOk

theorem Inv.goto {pc : RwPc T} (inv : Inv s) (ok : Ok { s.threads t with pc := pc })
    (alike : (s.threads t).Alike { s.threads t with pc := pc })
    (stuck : Stuck { s.threads t with pc := pc } → s.phase.Wakes)
    (aside : (s.threads t).Aside) (noWaker : NoWaker { s.threads t with pc := pc })
    (within : (s.goto t pc).Within) : Inv (s.goto t pc) :=
  ⟨inv.toCore.goto ok alike stuck within, inv.queue.update rfl rfl aside noWaker⟩

theorem Inv.goto_plain {pc : RwPc T} (inv : Inv s) (plain : isPlain (s.threads t).pc = true)
    (plain' : isPlain pc = true) (ok : Ok { s.threads t with pc := pc }) : Good (s.goto t pc) := by
  intro within
  have before := plain_of_pc plain
  have after : Plain { s.threads t with pc := pc } := plain_of_pc plain'
  refine inv.goto ok ⟨?_, ?_, ?_, ?_⟩ ?_ before.aside after.noWaker within
  · rw [before.phase, after.phase]
  · rw [before.owning, after.owning]
  · rw [before.waiting, after.waiting]
  · rw [before.releasing, after.releasing]
  · intro stuck
    exact absurd after.waiting (Nat.ne_of_gt stuck.waiting_pos)

end Write

end RwLock

end MiniOsv.Sync
