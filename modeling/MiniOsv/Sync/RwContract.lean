/-
# Sync.RwContract -- exclusion and wake-ups of the read-write lock

What the invariant means to the users of the lock, in terms of the bits of `_readers` and
of what the threads do:

* `reached_exclusion`: readers and the writer exclude each other, and the two counts in the
  word are the numbers of owning and of pending readers;
* `reached_wakeObligation`: whoever waits is owed a wake-up by somebody who is still on the
  way to it.
-/
import MiniOsv.Sync.RwRuns

namespace MiniOsv.Sync

open Theory RwThread Finset Function Option

universe u

/-! ## The fields of the word -/

def writerBit (word : Word) : Bool := word.getLsbD 31

def pendingWriterBit (word : Word) : Bool := word.getLsbD 30

/-- Bits 16 to 29. -/
def owningBits (word : Word) : ℕ := (word.extractLsb' 16 14).toNat

/-- Bits 0 to 15. -/
def pendingBits (word : Word) : ℕ := (word.extractLsb' 0 16).toNat

section Pack

variable {writer pending : Bool} {owning waiting : ℕ} (owningFits : owning < 2 ^ 14)
  (waitingFits : waiting < 2 ^ 16)
include owningFits waitingFits

theorem writerBit_pack : writerBit (pack writer pending owning waiting) = writer := by
  rw [writerBit, pack_getLsbD owningFits waitingFits (by decide)]
  rfl

theorem pendingWriterBit_pack :
    pendingWriterBit (pack writer pending owning waiting) = pending := by
  rw [pendingWriterBit, pack_getLsbD owningFits waitingFits (by decide)]
  rfl

theorem owningBits_pack : owningBits (pack writer pending owning waiting) = owning := by
  rw [owningBits, BitVec.extractLsb'_toNat, pack_toNat owningFits waitingFits,
    Nat.shiftRight_eq_div_pow]
  omega

theorem pendingBits_pack : pendingBits (pack writer pending owning waiting) = waiting := by
  rw [pendingBits, BitVec.extractLsb'_toNat, pack_toNat owningFits waitingFits,
    Nat.shiftRight_eq_div_pow]
  omega

end Pack

/-! ## What threads do -/

namespace RwThread

variable {T : Type u}

/-- The thread holds the lock for writing: its exchange or addition has set the flag, and no
`wunlock` or `downgrade` of its has cleared it. -/
def Writes (l : RwThread T) : Prop := l.phase = .writing

def PendsWrite (l : RwThread T) : Prop := l.phase.pending = true

/-- The thread is inside `wunlock` or `downgrade` and has not left the loop of
`wake_pending_readers`. -/
def Wakes (l : RwThread T) : Prop := l.phase = .waking

/-- A waker has added the reader, whose `rlock` has not returned yet. -/
def granted (l : RwThread T) : Bool :=
  match l.pc with
  | .rlockWait true _ => true
  | _ => false

theorem owning_eq (l : RwThread T) : l.owning = l.rholds + l.granted.toNat := by
  rw [owning, granted]
  congr 1
  split <;> simp_all

theorem waiting_le_one (l : RwThread T) : l.waiting ≤ 1 := by
  rw [waiting]
  split <;> decide

end RwThread

namespace RwLock

variable {T : Type u} [Fintype T] {s : RwLock T}

/-! ## Exclusion -/

/-- **Exclusion.**  A thread that holds the lock for reading several times counts once for
each hold, as in the word. -/
structure Exclusion (s : RwLock T) : Prop where
  /-- `WRITER_LOCK` is set while exactly one thread, the owner of `_wmtx`, writes. -/
  oneWriter : writerBit s.readers = true →
    ∃ t, s.wmtxOwner = some t ∧ ∀ v, (s.threads v).Writes ↔ v = t
  writerFlagged : ∀ t, (s.threads t).Writes → writerBit s.readers = true
  noReader : ∀ t, (s.threads t).Writes →
    ∀ v, (s.threads v).rholds = 0 ∧ (s.threads v).granted = false
  owningCount : owningBits s.readers =
    (∑ t, (s.threads t).rholds) + (Finset.univ.filter fun t => (s.threads t).granted).card
  owningThreads : (∀ t, (s.threads t).rholds ≤ 1) → owningBits s.readers =
    (Finset.univ.filter fun t => 0 < (s.threads t).rholds).card +
      (Finset.univ.filter fun t => (s.threads t).granted).card
  pendingCount : pendingBits s.readers =
    (Finset.univ.filter fun t => 0 < (s.threads t).waiting).card
  assertsHold : ∀ t, (s.threads t).pc ≠ .failed .runlock ∧ (s.threads t).pc ≠ .failed .wunlock ∧
    (s.threads t).pc ≠ .failed .downgrade

theorem Inv.bits (inv : Inv s) : writerBit s.readers = s.phase.writer ∧
    pendingWriterBit s.readers = s.phase.pending ∧ owningBits s.readers = s.owning ∧
    pendingBits s.readers = s.waiting := by
  rw [inv.word, writerBit_pack inv.lt.1 inv.lt.2, pendingWriterBit_pack inv.lt.1 inv.lt.2,
    owningBits_pack inv.lt.1 inv.lt.2, pendingBits_pack inv.lt.1 inv.lt.2]
  exact ⟨rfl, rfl, rfl, rfl⟩

/-- A thread in a phase of its own is the owner, and the lock is in that phase. -/
theorem Inv.owner_of_phase (inv : Inv s) {t : T} (phase : (s.threads t).phase ≠ .free) :
    s.wmtxOwner = some t ∧ s.phase = (s.threads t).phase := by
  have locked : 1 ≤ (s.threads t).locks := by
    by_contra unlocked
    exact phase (phase_of_unlocked (inv.locals t) (by omega))
  exact ⟨inv.owner locked, inv.phase_eq locked⟩

omit [Fintype T] in
/-- The owner that a phase of the lock stands for. -/
theorem exists_owner (phase : s.phase ≠ .free) :
    ∃ t, s.wmtxOwner = some t ∧ (s.threads t).phase = s.phase := by
  cases owner : s.wmtxOwner with
  | none => exact absurd (by rw [RwLock.phase, owner]) phase
  | some t => exact ⟨t, rfl, by rw [RwLock.phase, owner]⟩

theorem Inv.writing_iff (inv : Inv s) {t : T} (writing : s.phase = .writing)
    (owner : s.wmtxOwner = some t) (v : T) : (s.threads v).Writes ↔ v = t := by
  constructor
  · intro writes
    have own := (inv.owner_of_phase (t := v) (by rw [writes]; decide)).1
    exact Option.some.inj (own.symm.trans owner)
  · rintro rfl
    rw [RwLock.phase, owner] at writing
    exact writing

theorem owning_eq_sum (s : RwLock T) : s.owning = (∑ t, (s.threads t).rholds) +
    (Finset.univ.filter fun t => (s.threads t).granted).card := by
  rw [owning, tally, card_filter, ← sum_add_distrib]
  refine sum_congr rfl fun t _ => ?_
  rw [owning_eq]
  cases (s.threads t).granted <;> rfl

theorem reached_exclusion [DecidableEq T] (reached : Reached s) : s.Exclusion := by
  have inv := reached.inv
  obtain ⟨writerFlag, -, owningEq, pendingEq⟩ := inv.bits
  refine ⟨?_, ?_, ?_, ?_, ?_, ?_, ?_⟩
  · intro flag
    have writing : s.phase = .writing := Phase.writer_iff.1 (writerFlag.symm.trans flag)
    obtain ⟨t, owner, -⟩ := exists_owner (s := s) (by rw [writing]; decide)
    exact ⟨t, owner, inv.writing_iff writing owner⟩
  · intro t writes
    rw [writerFlag, (inv.owner_of_phase (t := t) (by rw [writes]; decide)).2, writes]
    rfl
  · intro t writes v
    have phaseOk := inv.phaseOk
    rw [(inv.owner_of_phase (t := t) (by rw [writes]; decide)).2, writes] at phaseOk
    have none := tally_eq_zero.1 phaseOk.1 v
    rw [owning_eq] at none
    cases granted : (s.threads v).granted <;> simp_all
  · rw [owningEq, owning_eq_sum]
  · intro once
    rw [owningEq, owning_eq_sum, ← tally, tally_eq_card once]
  · rw [pendingEq, waiting, tally_eq_card fun t => waiting_le_one _]
  · intro t
    have ok := inv.locals t
    refine ⟨?_, ?_, ?_⟩ <;> intro at_ <;> rw [Ok, at_] at ok <;> exact ok

/-- A writer (`false`) takes the lock, a reader (`true`) comes and waits, and the writer
releases the lock. -/
def handOver : List (Bool × Option RwOp) :=
  [(false, some .wlock), (false, none), (false, none), (false, none), (false, none), (false, none),
    (true, some .rlock), (true, none), (true, none), (false, some .wunlock), (false, none)]

/-- The writer is about to wake the reader. -/
def awaitedState : RwLock Bool := (initial.play handOver).get (by decide +kernel)

/-- The reader was added and its `rlock` has not returned. -/
def grantedState : RwLock Bool :=
  (initial.play (handOver ++ [(false, none), (false, none)])).get (by decide +kernel)

theorem grantedState_exclusion : grantedState.Exclusion ∧ owningBits grantedState.readers = 1 :=
  ⟨reached_exclusion (Reached.initial.play (some_get _).symm), by decide +kernel⟩

/-! ## Wake-ups -/

section Steps

variable [DecidableEq T] {s' : RwLock T} {t v : T}

omit [Fintype T] in
theorem call_other {op : RwOp} (result : s.call t op = some s') (other : v ≠ t) :
    s'.threads v = s.threads v := by
  cases op <;> simp only [call] at result <;> (repeat' split at result) <;>
    simp only [Option.some.injEq, reduceCtorEq] at result <;> subst result <;>
    simp only [goto, set, mtxLock, update_of_ne other]

omit [Fintype T] in
/-- Of the other threads, a step touches only the reader in the waker's hand. -/
theorem run_inHand {spurious : Bool} (result : s.run t spurious = some s') (other : v ≠ t) :
    s'.threads v = s.threads v ∨ ∃ waker cleared, (s'.threads v).pc = .rlockWait true cleared ∧
      ((s.threads t).pc = .wakeGrant waker v ∨
        ∃ pending, (s.threads t).pc = .wakeStore waker v pending) := by
  cases at_ : (s.threads t).pc with simp only [RwLock.run, at_] at result
  | wakeGrant waker reader | wakeStore waker reader pending =>
    obtain rfl := Option.some.inj result
    by_cases hand : v = reader
    · subst hand
      exact .inr ⟨waker, _, by rw [goto_self], by simp⟩
    · exact .inl ((goto_other hand _).trans (goto_other other _))
  | _ =>
    left
    (repeat' split at result) <;> simp only [Option.some.injEq, reduceCtorEq] at result <;>
      subst result <;>
      simp only [RwLock.goto, set, readAcquired, RwLock.mtxUnlock, update_of_ne other]

theorem Inv.run_other (inv : Inv s) {spurious : Bool} (result : s.run t spurious = some s')
    (other : v ≠ t) (notWaiting : ∀ granted cleared, (s.threads v).pc ≠ .rlockWait granted cleared) :
    s'.threads v = s.threads v := by
  rcases run_inHand result other with same | ⟨waker, -, -, grants | ⟨pending, stores⟩⟩
  · exact same
  · exact absurd (inv.queue.inHand t waker v grants).1 (notWaiting _ _)
  · exact absurd (inv.queue.granting t waker v pending stores) (notWaiting _ _)

omit [Fintype T] [DecidableEq T] in
theorem wakes_wakeLoop (l : RwThread T) (waker : Waker) {pending : Word} (more : pending ≠ 0) :
    Wakes (⟨wakeLoop waker pending, l.rholds, l.locks⟩ : RwThread T) := by
  unfold wakeLoop
  rw [if_neg more]
  rfl

/-- A waker goes on as long as there are pending readers. -/
theorem Inv.wakes_run (inv : Inv s) {spurious : Bool} (result : s.run t spurious = some s')
    (wakes : (s.threads t).Wakes) (more : s.readers &&& pendingReadersMask ≠ 0) :
    (s'.threads t).Wakes := by
  have ok := inv.locals t
  cases at_ : (s.threads t).pc with simp only [RwLock.run, at_] at result
  | wakePop waker =>
    split at result <;> obtain rfl := Option.some.inj result <;> rw [goto_self] <;> rfl
  | wakeReload waker =>
    cases result
    rw [goto_self]
    exact wakes_wakeLoop _ _ more
  | wakeGrant waker reader =>
    obtain rfl := Option.some.inj result
    have notReader : t ≠ reader := by
      rintro rfl
      exact absurd ((inv.queue.inHand t waker t at_).1.symm.trans at_) (by simp)
    rw [goto_other notReader, goto_self]
    rfl
  | wakeStore waker reader pending =>
    cases result
    have notReader : t ≠ reader := by
      rintro rfl
      exact absurd ((inv.queue.granting t waker t pending at_).symm.trans at_) (by simp)
    rw [Ok, at_] at ok
    rw [goto_other notReader, goto_self]
    exact wakes_wakeLoop _ _ ok.2
  | downgradeReload =>
    cases result
    rw [goto_self]
    exact wakes_wakeLoop _ _ more
  | _ =>
    rw [RwThread.Wakes, RwThread.phase, at_] at wakes
    simp only [reduceCtorEq] at wakes
    try split at wakes <;> cases wakes

/-- A step after which there are still pending readers. -/
def Awaited (s s' : RwLock T) : Prop := Bounded s s' ∧ s'.readers &&& pendingReadersMask ≠ 0

theorem Inv.wakes_step (inv : Inv s) (step : Bounded s s') (wakes : (s.threads v).Wakes)
    (more : s.readers &&& pendingReadersMask ≠ 0) : (s'.threads v).Wakes := by
  obtain ⟨step, -⟩ := step
  have notWaiting : ∀ granted cleared, (s.threads v).pc ≠ .rlockWait granted cleared := by
    intro granted cleared at_
    rw [RwThread.Wakes, RwThread.phase, at_] at wakes
    simp only at wakes
    split at wakes <;> cases wakes
  have notIdle : (s.threads v).pc ≠ .idle := by
    intro at_
    rw [RwThread.Wakes, RwThread.phase, at_] at wakes
    simp only at wakes
    split at wakes <;> cases wakes
  cases step with
  | call t op idle result =>
    have other : v ≠ t := fun same => notIdle (same ▸ idle)
    rw [call_other result other]
    exact wakes
  | run t spurious result =>
    by_cases self : v = t
    · subst self
      exact inv.wakes_run result wakes more
    · rw [inv.run_other result self notWaiting]
      exact wakes

/-- A waker stays one along every run on which there are pending readers throughout. -/
theorem Inv.wakes_awaited (inv : Inv s) (wakes : (s.threads v).Wakes)
    (more : s.readers &&& pendingReadersMask ≠ 0) (run : Relation.ReflTransGen Awaited s s') :
    (s'.threads v).Wakes := by
  suffices kept : Inv s' ∧ (s'.threads v).Wakes ∧ s'.readers &&& pendingReadersMask ≠ 0 from
    kept.2.1
  induction run with
  | refl => exact ⟨inv, wakes, more⟩
  | tail _ step ih =>
    obtain ⟨inv, wakes, more⟩ := ih
    exact ⟨inv.step step.1, inv.wakes_step step.1 wakes more, step.2⟩

end Steps

/-- **Wake-ups.**  Who waits is owed a wake-up by somebody who will come to it. -/
structure WakeObligation [DecidableEq T] (s : RwLock T) : Prop where
  /-- A pending reader has a writer that holds the lock or is pending, or a waker that goes on
  as long as there are pending readers, or its own exchange to try. -/
  pendingReader : ∀ t, 0 < (s.threads t).waiting →
    (∃ v, (s.threads v).Writes ∧ writerBit s.readers = true) ∨
    (∃ v, (s.threads v).PendsWrite ∧ pendingWriterBit s.readers = true) ∨
    (∃ v, (s.threads v).Wakes ∧
      ∀ s', Relation.ReflTransGen Awaited s s' → (s'.threads v).Wakes) ∨
    ∃ prev, (s.threads t).pc = .rlockConvert prev
  sleepingWriter : ∀ t, (s.threads t).pc = .wlockWait → s.writerWait = true →
    (∃ v, 0 < (s.threads v).owning) ∨ ∃! v, (s.threads v).releasing = 1
  /-- The addition of a writer that goes on clears bit 30, sets bit 31 and nothing else. -/
  resumingWriter : ∀ t, (s.threads t).pc = .wlockAdd →
    (∀ v, (s.threads v).owning = 0) ∧ pendingWriterBit s.readers = true ∧
      ∀ spurious s', s.run t spurious = some s' →
        writerBit s'.readers = true ∧ pendingWriterBit s'.readers = false ∧
          ∀ i < 30, s'.readers.getLsbD i = s.readers.getLsbD i

theorem Inv.owed [DecidableEq T] (inv : Inv s) {t : T} (waits : 0 < (s.threads t).waiting)
    (wakes : s.phase.Wakes) :
    (∃ v, (s.threads v).Writes ∧ writerBit s.readers = true) ∨
    (∃ v, (s.threads v).PendsWrite ∧ pendingWriterBit s.readers = true) ∨
    ∃ v, (s.threads v).Wakes ∧
      ∀ s', Relation.ReflTransGen Awaited s s' → (s'.threads v).Wakes := by
  obtain ⟨writerFlag, pendingFlag, -, -⟩ := inv.bits
  obtain ⟨v, owner, phase⟩ := exists_owner (s := s) (by intro free; rw [free] at wakes; exact wakes)
  by_cases writes : s.phase.writer = true
  · exact .inl ⟨v, phase.trans (Phase.writer_iff.1 writes), writerFlag.trans writes⟩
  · by_cases pends : s.phase.pending = true
    · exact .inr (.inl ⟨v, by rw [PendsWrite, phase, pends], pendingFlag.trans pends⟩)
    · have waking : s.phase = .waking := by
        cases at_ : s.phase <;> simp_all [Phase.Wakes, Phase.writer, Phase.pending]
      have isWaker : (s.threads v).Wakes := phase.trans waking
      have more : s.readers &&& pendingReadersMask ≠ 0 := by
        rw [inv.pendingReaders, Ne, pack_waiting_eq_zero inv.lt.2]
        have := le_tally RwThread.waiting s.threads t
        simp only [waiting]
        omega
      exact .inr (.inr ⟨v, isWaker, fun _ run => inv.wakes_awaited isWaker more run⟩)

theorem reached_wakeObligation [DecidableEq T] (reached : Reached s) : s.WakeObligation := by
  have inv := reached.inv
  refine ⟨?_, ?_, ?_⟩
  · intro t waits
    by_cases stuck : (s.threads t).Stuck
    · rcases inv.owed waits (inv.stuck t stuck) with writer | pending | waker
      · exact .inl writer
      · exact .inr (.inl pending)
      · exact .inr (.inr (.inl waker))
    · refine .inr (.inr (.inr ?_))
      simp only [RwThread.waiting, RwThread.Stuck] at waits stuck
      split at waits <;> simp_all
  · intro t at_ wait
    have sleeping : (s.threads t).phase = .sleeping := by simp [RwThread.phase, at_]
    have phaseOk := inv.phaseOk
    rw [(inv.owner_of_phase (t := t) (by rw [sleeping]; decide)).2, sleeping] at phaseOk
    rcases phaseOk with ⟨-, ⟨some, -⟩ | ⟨-, one⟩⟩ | ⟨awake, -⟩
    · exact .inl (exists_of_tally_pos some)
    · exact .inr (existsUnique_of_tally_eq_one one)
    · rw [wait] at awake
      cases awake
  · intro t at_
    have adding : (s.threads t).phase = .adding := by simp [RwThread.phase, at_]
    have phase : s.phase = .adding :=
      (inv.owner_of_phase (t := t) (by rw [adding]; decide)).2.trans adding
    have phaseOk := inv.phaseOk
    have word := inv.word
    rw [phase] at phaseOk word
    refine ⟨tally_eq_zero.1 phaseOk.1, inv.bits.2.1.trans (by rw [phase]; rfl), ?_⟩
    intro spurious s' result
    simp only [run, at_] at result
    obtain ⟨readers, added, rfl⟩ : ∃ readers : Word, readers = s.readers + pendingWriter ∧
        s' = { s with readers := readers }.goto t .idle :=
      ⟨_, rfl, (Option.some.inj result).symm⟩
    have moved : readers = pack true false s.owning s.waiting :=
      added.trans ((congrArg (· + pendingWriter) word).trans (add_pendingWriter _ _))
    refine ⟨?_, ?_, fun i low => ?_⟩
    · exact (congrArg writerBit moved).trans (writerBit_pack inv.lt.1 inv.lt.2)
    · exact (congrArg pendingWriterBit moved).trans (pendingWriterBit_pack inv.lt.1 inv.lt.2)
    · change readers.getLsbD i = _
      rw [moved, word, pack_getLsbD inv.lt.1 inv.lt.2 (by omega),
        pack_getLsbD inv.lt.1 inv.lt.2 (by omega)]
      simp only [low, if_true]

theorem awaitedState_wakeObligation :
    awaitedState.WakeObligation ∧ 0 < (awaitedState.threads true).waiting :=
  ⟨reached_wakeObligation (Reached.initial.play (some_get _).symm), by decide +kernel⟩

end RwLock

end MiniOsv.Sync
