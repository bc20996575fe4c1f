/-
# Sync.RwLimits -- the limits of the read-write lock

The word has room for 16383 owning and 65535 pending readers.  The operations assert that there
is room, but on a value that was loaded before the access that adds the reader, and a reader that
was pending becomes an owner without an assertion.  `Room` says what keeps the assertions good:

* an exchange that failed is not retried on a word whose count of owners is full;
* `rlock` and `wake_pending_readers` turn a pending reader into an owner while there is room;
* nobody takes the last place of a pending reader from a thread that has passed its assertion.
-/
import MiniOsv.Sync.RwContract

namespace MiniOsv.Sync

open Theory Finset Nat Function

universe u

/-! ## What a program counter stands for -/

namespace RwPc

variable {T : Type u}

/-- The reader that was granted, and the one that is pending. -/
def counts : RwPc T → ℕ × ℕ
  | .rlockWait true _ => (1, 0)
  | .rlockConvert _ | .rlockPush | .rlockWait false _ => (0, 1)
  | _ => (0, 0)

/-- What the thread has asserted: of the word that its exchange expects, and of the number of
pending readers. -/
def Asserted (waiting : ℕ) : RwPc T → Prop
  | .tryRlockCas prev | .rlockCas prev => owningBits prev < 16383
  | .rlockPend => waiting < 65535
  | _ => True

@[simp] theorem counts_tryRlockLoop (prev : Word) :
    (tryRlockLoop prev : RwPc T).counts = (0, 0) := by
  unfold tryRlockLoop
  split <;> rfl

@[simp] theorem counts_rlockLoop (prev : Word) : (rlockLoop prev : RwPc T).counts = (0, 0) := by
  unfold rlockLoop
  split <;> [skip; split] <;> rfl

@[simp] theorem counts_convertLoop (prev : Word) :
    (convertLoop prev : RwPc T).counts = (0, 1) := by
  unfold convertLoop
  split <;> rfl

@[simp] theorem counts_runlockTest (prev : Word) :
    (runlockTest prev : RwPc T).counts = (0, 0) := by
  unfold runlockTest
  split <;> [skip; split] <;> rfl

@[simp] theorem counts_wlockLoop (prev : Word) : (wlockLoop prev : RwPc T).counts = (0, 0) := by
  unfold wlockLoop
  split <;> rfl

@[simp] theorem counts_wakeLoop (waker : Waker) (pending : Word) :
    (wakeLoop waker pending : RwPc T).counts = (0, 0) := by
  unfold wakeLoop
  split <;> cases waker <;> rfl

theorem Asserted.mono {m n : ℕ} (le : m ≤ n) {pc : RwPc T} (asserted : pc.Asserted n) :
    pc.Asserted m := by
  cases pc with
  | rlockPend => exact le.trans_lt asserted
  | _ => exact asserted

theorem asserted_tryRlockLoop {waiting : ℕ} {word : Word}
    (fits : word < pendingWriter → owningBits word < 16383) :
    (tryRlockLoop word : RwPc T).Asserted waiting := by
  unfold tryRlockLoop
  split
  next open_ => exact fits open_
  · trivial

theorem asserted_rlockLoop {waiting : ℕ} {word : Word}
    (fits : word < pendingWriter → owningBits word < 16383)
    (spare : (pendingReadersMask &&& word) + 1 < readerLockInc → waiting < 65535) :
    (rlockLoop word : RwPc T).Asserted waiting := by
  unfold rlockLoop
  split
  next open_ => exact fits open_
  · split
    next room => exact spare room
    · trivial

theorem asserted_heads (waiting : ℕ) :
    (∀ prev, (convertLoop prev : RwPc T).Asserted waiting) ∧
    (∀ prev, (runlockTest prev : RwPc T).Asserted waiting) ∧
    (∀ prev, (wlockLoop prev : RwPc T).Asserted waiting) ∧
    ∀ waker pending, (wakeLoop waker pending : RwPc T).Asserted waiting := by
  unfold convertLoop runlockTest wlockLoop wakeLoop
  refine ⟨?_, ?_, ?_, ?_⟩ <;> intros <;> (repeat' split) <;> trivial

end RwPc

theorem RwThread.owning_counts {T : Type u} (l : RwThread T) :
    l.owning = l.rholds + l.pc.counts.1 := by
  obtain ⟨pc, rholds, locks⟩ := l
  cases pc with
  | rlockWait granted cleared => cases granted <;> rfl
  | _ => rfl

theorem RwThread.waiting_counts {T : Type u} (l : RwThread T) : l.waiting = l.pc.counts.2 := by
  obtain ⟨pc, rholds, locks⟩ := l
  cases pc with
  | rlockWait granted cleared => cases granted <;> rfl
  | _ => rfl

namespace RwLock

variable {T : Type u} [DecidableEq T] {s s' : RwLock T} {t v : T} {spurious : Bool}

/-! ## What an access adds -/

/-- The thread that the access makes an owning reader. -/
def entrant (s : RwLock T) (t : T) (spurious : Bool) : Option T :=
  match (s.threads t).pc with
  | .tryRlockCas prev | .rlockCas prev | .rlockConvert prev | .downgradeCas prev =>
    if s.readers = prev ∧ spurious = false then some t else none
  | .wakeGrant _ reader => some reader
  | _ => none

/-- The thread that the access makes a pending reader. -/
def pender (s : RwLock T) (t : T) : Option T :=
  match (s.threads t).pc with
  | .rlockPend => some t
  | _ => none

theorem counts_call {op : RwOp} (idle : (s.threads t).pc = .idle)
    (result : s.call t op = some s') (v : T) :
    (s'.threads v).owning ≤ (s.threads v).owning ∧
      (s'.threads v).waiting ≤ (s.threads v).waiting := by
  by_cases here : v = t
  · subst here
    simp only [RwThread.owning_counts, RwThread.waiting_counts, idle]
    cases op <;> simp only [call] at result <;> (repeat' split at result) <;>
      simp only [Option.some.injEq, reduceCtorEq] at result <;> subst result <;>
      simp [goto, set, mtxLock] <;> simp [RwPc.counts]
  · rw [call_other result here]
    exact ⟨le_rfl, le_rfl⟩

/-- An access adds the entrant to the owning and the pender to the pending readers, no other. -/
theorem Inv.counts_run [Fintype T] (inv : Inv s) (result : s.run t spurious = some s') (v : T) :
    (s'.threads v).owning ≤ (s.threads v).owning +
        (if s.entrant t spurious = some v then 1 else 0) ∧
      (s'.threads v).waiting ≤ (s.threads v).waiting +
        (if s.pender t = some v then 1 else 0) := by
  have ok := inv.locals t
  rw [RwThread.Ok] at ok
  simp only [RwThread.owning_counts, RwThread.waiting_counts]
  cases at_ : (s.threads t).pc with simp only [RwLock.run, at_] at result ok
  | wakeGrant waker reader =>
    obtain rfl := Option.some.inj result
    obtain ⟨waits, -⟩ := inv.queue.inHand t waker reader at_
    have other : reader ≠ t := by
      rintro rfl
      cases at_.symm.trans waits
    by_cases hand : v = reader
    · subst hand
      simp [goto_self, goto_other other, entrant, at_, RwPc.counts]
    · by_cases here : v = t
      · subst here
        simp [goto_other hand, goto_self, at_, RwPc.counts]
      · simp [goto_other hand, goto_other here]
  | wakeStore waker reader pending =>
    cases result
    have waits := inv.queue.granting t waker reader pending at_
    have other : reader ≠ t := by
      rintro rfl
      cases at_.symm.trans waits
    by_cases hand : v = reader
    · subst hand
      simp [goto_self, goto_other other, waits, RwPc.counts]
    · by_cases here : v = t
      · subst here
        have none : (s.threads v).pc.counts = (0, 0) := at_ ▸ rfl
        simp [goto_other hand, goto_self, none]
      · simp [goto_other hand, goto_other here]
  | _ =>
    by_cases here : v = t
    · subst here
      (repeat' split at result) <;> simp only [Option.some.injEq, reduceCtorEq] at result <;>
        subst result <;>
        simp_all [RwLock.goto, set, readAcquired, RwLock.mtxUnlock, entrant, pender] <;>
        simp_all [RwPc.counts]
    · (repeat' split at result) <;> simp only [Option.some.injEq, reduceCtorEq] at result <;>
        subst result <;>
        simp [RwLock.goto, set, readAcquired, RwLock.mtxUnlock, here]

/-! ## Runs -/

variable [Fintype T]

/-- The sum over all threads of what one of them may add. -/
theorem tally_add_one {f : RwThread T → ℕ} {who : Option T}
    (pointwise : ∀ v, f (s'.threads v) ≤ f (s.threads v) + if who = some v then 1 else 0) :
    tally f s'.threads ≤ tally f s.threads + if who.isSome then 1 else 0 := by
  have total := sum_le_sum fun v (_ : v ∈ Finset.univ) => pointwise v
  rw [sum_add_distrib] at total
  cases who with
  | none => simpa [tally] using total
  | some t => simpa [tally] using total

/-- What keeps the assertions good; see the top. -/
def Room (s : RwLock T) (t : T) (spurious : Bool) : Prop :=
  match (s.threads t).pc with
  | .tryRlockCas prev | .rlockCas prev =>
    s.readers ≠ prev → s.readers < pendingWriter → s.owning < 16383
  | .rlockConvert prev => s.readers = prev ∧ spurious = false → s.owning < 16383
  | .wakeGrant _ _ => s.owning < 16383
  | .rlockPend => s.waiting = 65534 → ∀ v, (s.threads v).pc = .rlockPend → v = t
  | _ => True

/-- A step with that room; nothing is asked of a call. -/
inductive Restrained : RwLock T → RwLock T → Prop
  | call {s s' : RwLock T} (t : T) (op : RwOp) (idle : (s.threads t).pc = .idle)
      (result : s.call t op = some s') : Restrained s s'
  | run {s s' : RwLock T} (t : T) (spurious : Bool) (room : s.Room t spurious)
      (result : s.run t spurious = some s') : Restrained s s'

theorem Restrained.step (taken : Restrained s s') : Step s s' := by
  cases taken with
  | call t op idle result => exact .call t op idle result
  | run t spurious room result => exact .run t spurious result

/-- The lock with its limits kept, and what threads have asserted still so. -/
structure Limited (s : RwLock T) : Prop extends Inv s where
  asserted : ∀ v, (s.threads v).pc.Asserted s.waiting

omit [DecidableEq T] in
theorem Inv.readersFit_iff (inv : Inv s) : readersFit s.readers = true ↔ s.owning < 16383 := by
  rw [readersFit, inv.word, BitVec.and_comm, and_readersMask inv.lt.1 inv.lt.2, add_readerLockInc,
    decide_eq_true_iff]
  obtain below | full := inv.within.1.lt_or_eq
  · refine iff_of_true ((lt_pendingWriter ?_ (by decide)).2 ⟨rfl, rfl⟩) below
    exact Nat.succ_lt_succ below
  · rw [full]
    decide

omit [DecidableEq T] in
theorem Inv.pendFits_iff (inv : Inv s) :
    (pendingReadersMask &&& s.readers) + 1 < readerLockInc ↔ s.waiting < 65535 := by
  have value := @pack_toNat false false 0 _ (by decide) inv.lt.2
  have few := inv.lt.2
  rw [BitVec.and_comm, inv.pendingReaders, BitVec.lt_def, BitVec.toNat_add, value]
  simp [readerLockInc]
  omega

/-- A call goes on only behind its assertions. -/
theorem Inv.asserted_call (inv : Inv s) {op : RwOp} (result : s.call t op = some s') :
    (s'.threads t).pc.Asserted s.waiting := by
  have fits : readersFit s.readers = true → owningBits s.readers < 16383 := fun room => by
    rw [inv.bits.2.2.1]
    exact inv.readersFit_iff.1 room
  cases op with simp only [RwLock.call] at result
  | tryRlock =>
    obtain ⟨pc, head, rfl⟩ := goto_of_some result
    rw [goto_self, head]
    cases room : readersFit s.readers with
    | true => exact RwPc.asserted_tryRlockLoop fun _ => fits room
    | false => trivial
  | rlock =>
    obtain ⟨pc, head, rfl⟩ := goto_of_some result
    rw [goto_self, head]
    cases room : readersFit s.readers with
    | true => exact RwPc.asserted_rlockLoop (fun _ => fits room) inv.pendFits_iff.1
    | false => trivial
  | _ =>
    (repeat' split at result) <;> simp only [Option.some.injEq, reduceCtorEq] at result <;>
      subst result <;> simp [RwLock.goto, set, RwLock.mtxLock, RwPc.asserted_heads] <;> trivial

/-- With room, an access leaves its thread where its assertions hold. -/
theorem Inv.asserted_run (inv : Inv s) (asserted : (s.threads t).pc.Asserted s.waiting)
    (room : s.Room t spurious) (result : s.run t spurious = some s') :
    (s'.threads t).pc.Asserted s.waiting := by
  rw [Room] at room
  cases at_ : (s.threads t).pc with simp only [RwLock.run, at_] at result room asserted
  | tryRlockCas prev | rlockCas prev =>
    have fits : s.readers < pendingWriter → owningBits s.readers < 16383 := fun open_ => by
      by_cases same : s.readers = prev
      · rw [same]
        exact asserted
      · rw [inv.bits.2.2.1]
        exact room same open_
    split at result <;> obtain rfl := Option.some.inj result
    · simp [readAcquired, set, RwPc.Asserted]
    · rw [goto_self]
      first
        | exact RwPc.asserted_tryRlockLoop fits
        | exact RwPc.asserted_rlockLoop fits inv.pendFits_iff.1
  | wakeGrant waker reader | wakeStore waker reader pending =>
    obtain rfl := Option.some.inj result
    by_cases hand : t = reader
    · subst hand
      rw [goto_self]
      trivial
    · rw [goto_other hand, goto_self]
      first | exact (RwPc.asserted_heads _).2.2.2 _ _ | trivial
  | _ =>
    (repeat' split at result) <;> simp only [Option.some.injEq, reduceCtorEq] at result <;>
      subst result <;>
      simp [RwLock.goto, set, readAcquired, RwLock.mtxUnlock, RwPc.asserted_heads] <;> trivial

/-- An access with room stays within the limits. -/
theorem Limited.within_run (limited : Limited s) (room : s.Room t spurious)
    (result : s.run t spurious = some s') : s'.Within := by
  have inv := limited.toInv
  have asserted := limited.asserted t
  have owning := tally_add_one fun v => (inv.counts_run result v).1
  have waiting := tally_add_one fun v => (inv.counts_run result v).2
  obtain ⟨owned, pended⟩ := inv.within
  have space : (s.entrant t spurious).isSome = true → s.owning < 16383 := by
    intro enters
    rw [Room] at room
    rw [entrant] at enters
    cases at_ : (s.threads t).pc with simp only [at_] at enters room asserted
    | tryRlockCas prev | rlockCas prev =>
      split at enters
      next exchanged =>
        rw [← inv.bits.2.2.1, exchanged.1]
        exact asserted
      · cases enters
    | rlockConvert prev =>
      split at enters
      next exchanged => exact room exchanged
      · cases enters
    | wakeGrant waker reader => exact room
    | downgradeCas prev =>
      -- The thread writes, so no reader owns the lock.
      have ok := inv.locals t
      rw [RwThread.Ok, at_] at ok
      have phaseOk := inv.phaseOk
      rw [inv.writing (by rw [at_]; rfl) ok] at phaseOk
      exact phaseOk.1 ▸ by decide
    | _ => cases enters
  have spare : (s.pender t).isSome = true → s.waiting < 65535 := by
    intro pends
    rw [pender] at pends
    cases at_ : (s.threads t).pc with simp only [at_] at pends asserted
    | rlockPend => exact asserted
    | _ => cases pends
  constructor
  · split at owning
    next enters => exact owning.trans (space enters)
    · exact owning.trans owned
  · split at waiting
    next pends => exact waiting.trans (spare pends)
    · exact waiting.trans pended

theorem Limited.run (limited : Limited s) (room : s.Room t spurious)
    (result : s.run t spurious = some s') : Limited s' := by
  have inv := limited.toInv
  refine ⟨inv.run result (limited.within_run room result), fun v => ?_⟩
  have waiting := tally_add_one fun v => (inv.counts_run result v).2
  have own := inv.asserted_run (limited.asserted t) room result
  -- Only a `fetch_add(1)` makes the others' assertions worth less.
  cases pends : s.pender t with
  | none =>
    rw [pends] at waiting
    refine RwPc.Asserted.mono waiting ?_
    by_cases here : v = t
    · exact here ▸ own
    · obtain same | ⟨_, cleared, granted, -⟩ := run_inHand result here
      · rw [same]
        exact limited.asserted v
      · rw [granted]
        trivial
  | some who =>
    have at_ : (s.threads t).pc = .rlockPend := by
      rw [pender] at pends
      split at pends
      next at_ => exact at_
      · cases pends
    rw [pends] at waiting
    rw [Room, at_] at room
    simp only [RwLock.run, at_] at result
    by_cases here : v = t
    · obtain ⟨readers, pc, -, rfl, rfl⟩ := goto_readers_of_some result
      rw [here, goto_self]
      exact (RwPc.asserted_heads _).1 _
    · have asserted := limited.asserted v
      have other : s'.threads v = s.threads v := by
        cases result
        exact goto_other here _
      rw [other]
      cases their : (s.threads v).pc with rw [their] at asserted
      | rlockPend =>
        have more : s.waiting ≠ 65534 := fun last => here (room last v their)
        have few : s.waiting < 65535 := asserted
        exact lt_of_le_of_lt waiting (show s.waiting + 1 < 65535 by omega)
      | _ => exact asserted

theorem Limited.step (limited : Limited s) (taken : Restrained s s') : Limited s' := by
  cases taken with
  | call t op idle result =>
    have inv := limited.toInv
    have owning : s'.owning ≤ s.owning := sum_le_sum fun v _ => (counts_call idle result v).1
    have waiting : s'.waiting ≤ s.waiting := sum_le_sum fun v _ => (counts_call idle result v).2
    have within : s'.Within := ⟨owning.trans inv.within.1, waiting.trans inv.within.2⟩
    refine ⟨inv.call idle result within, fun v => RwPc.Asserted.mono waiting ?_⟩
    by_cases here : v = t
    · exact here ▸ inv.asserted_call result
    · rw [call_other result here]
      exact limited.asserted v
  | run t spurious room result => exact limited.run room result

/-- The states of runs that keep to the limits. -/
def ReachedRestrained (s : RwLock T) : Prop := Reachable (fun s => s = initial) Restrained s

theorem ReachedRestrained.limited (reached : ReachedRestrained s) : Limited s := by
  refine Reachable.invariant (I := Limited) ?_ (fun _ _ _ limited taken => limited.step taken)
    reached
  rintro s rfl
  exact ⟨Inv.initial, fun _ => trivial⟩

/-- A full count stops `try_rlock` and `rlock` before they change the word. -/
theorem Inv.call_full (inv : Inv s) {op : RwOp} (reads : op = .tryRlock ∨ op = .rlock)
    (full : s.owning = 16383) (result : s.call t op = some s') :
    ∃ site, s' = s.goto t (.failed site) := by
  have unfit : readersFit s.readers = false :=
    Bool.eq_false_iff.2 fun fits => (full ▸ inv.readersFit_iff.1 fits : 16383 < 16383).false
  obtain rfl | rfl := reads <;> rw [RwLock.call, unfit] at result <;>
    exact ⟨_, (Option.some.inj result).symm⟩

omit [DecidableEq T] in
/-- So does a full count of pending readers, when a writer sends `rlock` there. -/
theorem Inv.rlockLoop_full (inv : Inv s) (full : s.waiting = 65535)
    (blocked : pendingWriter ≤ s.readers) : (rlockLoop s.readers : RwPc T) = .failed .rlock := by
  have unfit : ¬(pendingReadersMask &&& s.readers) + 1 < readerLockInc :=
    fun fits => (full ▸ inv.pendFits_iff.1 fits : 65535 < 65535).false
  rw [rlockLoop, if_neg (BitVec.not_lt.2 blocked), if_neg unfit]

/-- **The limits** in every state of a run that keeps to them: each field of the word is the
number it stands for and the flags are the writer's, so nothing has been carried from one field
into another; with the owners full `try_rlock` and `rlock` fail their assertion, and with the
pending readers full an `rlock` that a writer blocks, before they change the word. -/
theorem reachedRestrained_limits (reached : ReachedRestrained s) :
    (owningBits s.readers = s.owning ∧ s.owning ≤ 16383) ∧
      (pendingBits s.readers = s.waiting ∧ s.waiting ≤ 65535) ∧
      (writerBit s.readers = s.phase.writer ∧ pendingWriterBit s.readers = s.phase.pending) ∧
      (∀ t op s', (op = .tryRlock ∨ op = .rlock) → s.owning = 16383 → s.call t op = some s' →
        s'.readers = s.readers ∧ ∃ site, (s'.threads t).pc = .failed site) ∧
      ∀ t s', s.waiting = 65535 → pendingWriter ≤ s.readers →
        (s.call t .rlock = some s' ∨
          ∃ prev spurious, (s.threads t).pc = .rlockCas prev ∧ s.run t spurious = some s') →
        s'.readers = s.readers ∧ (s'.threads t).pc = .failed .rlock := by
  have inv := reached.limited.toInv
  obtain ⟨writer, pending, owning, waiting⟩ := inv.bits
  refine ⟨⟨owning, inv.within.1⟩, ⟨waiting, inv.within.2⟩, ⟨writer, pending⟩, ?_, ?_⟩
  · intro t op s' reads full result
    obtain ⟨site, rfl⟩ := inv.call_full reads full result
    exact ⟨rfl, site, by rw [goto_self]⟩
  · intro t s' full blocked result
    have loop : (rlockLoop s.readers : RwPc T) = .failed .rlock := inv.rlockLoop_full full blocked
    obtain result | ⟨prev, spurious, at_, result⟩ := result
    · rw [RwLock.call, loop, ite_self] at result
      cases result
      exact ⟨rfl, by rw [goto_self]⟩
    · have ok := inv.locals t
      rw [RwThread.Ok, at_] at ok
      have failed : ¬(s.readers = prev ∧ spurious = false) :=
        fun exchanged => BitVec.not_lt.2 blocked (exchanged.1 ▸ ok)
      simp only [RwLock.run, at_, if_neg failed, loop] at result
      cases result
      exact ⟨rfl, by rw [goto_self]⟩

/-! ## Both counts full -/

/-- Two threads, the first of which holds the lock for reading `n` times. -/
def heldTimes (n : ℕ) : RwLock Bool where
  readers := pack false false n 0
  writerWait := false
  wmtxOwner := none
  readWaiters := []
  threads := fun t => ⟨.idle, if t then 0 else n, 0⟩

theorem heldTimes_reached {n : ℕ} (room : n < 2 ^ 14) : ReachedRestrained (heldTimes n) := by
  induction n with
  | zero =>
    refine .start (congrArg (mk _ _ _ _) (funext fun t => ?_))
    cases t <;> rfl
  | succ n ih =>
    have fits : n < 2 ^ 14 := lt_of_succ_lt room
    have before := ih fits
    have inv := before.limited.toInv
    have fit : readersFit (pack false false n 0) = true := by
      have count : n = (heldTimes n).owning :=
        (owningBits_pack fits (by decide)).symm.trans inv.bits.2.2.1
      exact inv.readersFit_iff.2 (count ▸ by omega)
    have low : pack false false n 0 < pendingWriter :=
      (lt_pendingWriter fits (by decide)).2 ⟨rfl, rfl⟩
    have call : (heldTimes n).call false .rlock =
        some ((heldTimes n).goto false (.rlockCas (pack false false n 0))) := by
      have loop : (rlockLoop (pack false false n 0) : RwPc Bool) = .rlockCas _ := if_pos low
      simp only [call, heldTimes, fit, loop, if_true]
    refine (before.next (.call false .rlock rfl call)).next (.run false false ?_ ?_)
    · exact fun other => absurd rfl other
    · have run : ((heldTimes n).goto false (.rlockCas (pack false false n 0))).run false false =
          some ({ heldTimes n with readers := pack false false n 0 + readerLockInc }.readAcquired
            false) := by
        simp [run, goto, set, heldTimes, readAcquired]
      rw [run, add_readerLockInc]
      refine congrArg some (congrArg (mk _ _ _ _) (funext fun t => ?_))
      cases t <;> rfl

/-- One thread holds the lock for writing, and of 65536 others the first `n` are pending. -/
def pended (n : ℕ) : RwLock (Option (Fin 65536)) where
  readers := pack true false 0 n
  writerWait := false
  wmtxOwner := some none
  readWaiters := []
  threads
    | none => ⟨.idle, 0, 1⟩
    | some i => ⟨if i.val < n then .rlockPush else .idle, 0, 0⟩

theorem pended_zero : ReachedRestrained (pended 0) := by
  have begun : ReachedRestrained (initial : RwLock (Option (Fin 65536))) := .start rfl
  have locked := begun.next (.call none .wlock rfl rfl)
  have checked := locked.next (.run none false trivial rfl)
  have announced := checked.next (.run none false trivial rfl)
  have claiming := announced.next (.run none false trivial rfl)
  have claimed := claiming.next (.run none false trivial rfl)
  refine claimed.next (.run none false trivial (congrArg some ?_))
  refine congrArg (mk _ _ _ _) (funext fun t => ?_)
  cases t <;> rfl

theorem pended_reached {n : ℕ} (few : n ≤ 65535) : ReachedRestrained (pended n) := by
  induction n with
  | zero => exact pended_zero
  | succ n ih =>
    have before := ih (by omega)
    have inv := before.limited.toInv
    have fits : n < 2 ^ 16 := by omega
    let t : Option (Fin 65536) := some ⟨n, by omega⟩
    have idle : ((pended n).threads t).pc = .idle := if_neg (lt_irrefl n)
    have blocked : ∀ m < 2 ^ 16, ¬pack true false 0 m < pendingWriter := fun m fits low =>
      absurd ((lt_pendingWriter (by decide) fits).1 low).1 (by decide)
    have fit : readersFit (pack true false 0 n) = true := by
      have none : 0 = (pended n).owning :=
        (owningBits_pack (by decide) fits).symm.trans inv.bits.2.2.1
      exact inv.readersFit_iff.2 (none ▸ by decide)
    have spare : (pendingReadersMask &&& pack true false 0 n) + 1 < readerLockInc := by
      have count : n = (pended n).waiting :=
        (pendingBits_pack (by decide) fits).symm.trans inv.bits.2.2.2
      exact inv.pendFits_iff.2 (count ▸ by omega)
    have call : (pended n).call t .rlock = some ((pended n).goto t .rlockPend) := by
      have loop : (rlockLoop (pack true false 0 n) : RwPc (Option (Fin 65536))) = .rlockPend := by
        rw [rlockLoop, if_neg (blocked n fits), if_pos spare]
      simp only [call, pended, fit, loop, if_true]
    refine (before.next (.call t .rlock idle call)).next (.run t false ?_ ?_)
    · rw [Room, goto_self]
      intro _ v pends
      by_contra other
      rw [goto_other other] at pends
      cases v with
      | none => cases pends
      | some i =>
        simp only [pended] at pends
        split at pends <;> cases pends
    · have word : pack true false 0 n + 1 = pack true false 0 (n + 1) := by
        rw [pack, pack]
        exact (BitVec.ofNat_add _ _).symm
      have loop : (convertLoop (pack true false 0 (n + 1)) : RwPc (Option (Fin 65536))) =
        .rlockPush := if_neg (blocked _ (by omega))
      have run : ((pended n).goto t .rlockPend).run t false =
          some (({ pended n with readers := pack true false 0 n + 1 }.goto t .rlockPend).goto t
            (convertLoop (pack true false 0 n + 1))) := by
        simp only [run, goto_self]
        rfl
      rw [run, word, loop]
      refine congrArg some (congrArg (mk _ _ _ _) (funext fun v => ?_))
      cases v with
      | none => rfl
      | some i =>
        by_cases here : some i = t
        · have last : i.val = n := congrArg Fin.val (Option.some.inj here)
          simp [goto, set, here, pended, t, last]
        · have other : i.val ≠ n := fun last => here (congrArg some (Fin.ext last))
          have same : i.val < n + 1 ↔ i.val < n := by omega
          simp [goto, set, here, pended, same]

/-- With 16383 owners, and with 65535 pending readers, the next reader fails. -/
theorem fullCounts_fail :
    (∀ s', (heldTimes 16383).call true .rlock = some s' →
      ∃ site, (s'.threads true).pc = .failed site) ∧
    ∀ s', (pended 65535).call (some (Fin.last 65535)) .rlock = some s' →
      (s'.threads (some (Fin.last 65535))).pc = .failed .rlock := by
  have owners := reachedRestrained_limits (heldTimes_reached (n := 16383) (by decide))
  have waiters := reachedRestrained_limits (pended_reached (n := 65535) (by decide))
  have owning : (heldTimes 16383).owning = 16383 := owners.1.1.symm.trans (by decide)
  have waiting : (pended 65535).waiting = 65535 := waiters.2.1.1.symm.trans (by decide)
  refine ⟨fun s' result => (owners.2.2.2.1 true .rlock s' (.inr rfl) owning result).2,
    fun s' result => (waiters.2.2.2.2 _ s' waiting (by decide) (.inl result)).2⟩

/-- Both threads have asked for the last place and got it. -/
def overfull : RwLock Bool where
  readers := 0x40000000
  writerWait := false
  wmtxOwner := none
  readWaiters := []
  threads := fun t => ⟨.idle, if t then 1 else 16383, 0⟩

/-- With 16382 holds both threads pass the assertion; the second exchange goes past the limit,
clears the count and sets the flag of a pending writer that does not exist. -/
theorem overfull_reached : Reachable (fun s => s = initial) Step overfull ∧
    overfull.owning = 16384 ∧ owningBits overfull.readers = 0 ∧
    pendingWriterBit overfull.readers = true ∧ overfull.wmtxOwner = none := by
  refine ⟨?_, by decide, by decide, by decide, rfl⟩
  have first : Reachable (fun s => s = initial) Step (heldTimes 16382) :=
    (heldTimes_reached (n := 16382) (by decide)).mono fun _ _ taken => taken.step
  have asked := first.next (.call true .rlock rfl rfl)
  have asked' := asked.next (.call false .rlock rfl rfl)
  have held := asked'.next (.run false false rfl)
  have again := held.next (.run true false rfl)
  refine again.next (.run true false (congrArg some ?_))
  refine congrArg (mk _ _ _ _) (funext fun t => ?_)
  cases t <;> rfl

end RwLock

end MiniOsv.Sync
