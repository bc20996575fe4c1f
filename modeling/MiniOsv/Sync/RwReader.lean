/-
# Sync.RwReader -- the steps of readers keep the invariant

A reader enters by a compare-exchange on a word below `PENDING_WRITER`, so neither flag is
set and the phase puts no bound on the number of readers (`Inv.open`).  It is counted as
pending by `fetch_add(1)`; if it then sees a flag it goes to wait, and the phase that set
the flag owes it a wake-up.  It leaves by subtracting itself, and if it was the last one
before a sleeping writer it also has to make the store that lets the writer go on.
-/
import MiniOsv.Sync.RwInvariant

namespace MiniOsv.Sync

open Theory List RwThread

universe u

namespace Phase

theorem wakes_of_flag {m : Phase} (flag : ¬(m.writer = false ∧ m.pending = false)) : m.Wakes := by
  cases m <;> simp_all [writer, pending, Wakes]

/-- A reader leaves.  Only the last one before a sleeping writer has something left to do. -/
theorem Ok.leave {m : Phase} {wait : Bool} {owning releasing : ℕ}
    (ok : m.Ok wait (owning + 1) releasing) :
    m.Ok wait owning (releasing + if owning = 0 ∧ m.pending = true then 1 else 0) := by
  cases m with
  | sleeping =>
    simp only [Ok, pending] at ok ⊢
    by_cases last : owning = 0 <;> simp_all
    · omega
  | _ => simp_all [Ok, pending]

theorem Ok.sleeping_of_releasing {m : Phase} {wait : Bool} {owning releasing : ℕ}
    (ok : m.Ok wait owning releasing) (pos : 1 ≤ releasing) :
    m = .sleeping ∧ wait = true ∧ owning = 0 ∧ releasing = 1 := by
  cases m with
  | sleeping =>
    rcases ok with ⟨waits, ⟨_, none⟩ | ⟨empty, one⟩⟩ | ⟨_, _, none⟩
    · omega
    · exact ⟨rfl, waits, empty, one⟩
    · omega
  | _ => simp_all [Ok]

end Phase

namespace RwLock

variable {T : Type u} [Fintype T] {s : RwLock T} {t : T} {pc : RwPc T}

theorem Inv.localAt (inv : Inv s) (at_ : (s.threads t).pc = pc) :
    Ok { s.threads t with pc := pc } := by
  rw [← at_]
  exact inv.locals t

theorem Inv.open (inv : Inv s) (low : s.readers < pendingWriter) :
    s.phase.writer = false ∧ s.phase.pending = false := by
  rwa [inv.word, lt_pendingWriter inv.lt.1 inv.lt.2] at low

theorem Inv.owner (inv : Inv s) (pos : 1 ≤ (s.threads t).locks) : s.wmtxOwner = some t :=
  (inv.mutex t).2 pos

theorem Inv.phase_eq (inv : Inv s) (pos : 1 ≤ (s.threads t).locks) :
    s.phase = (s.threads t).phase := by
  rw [phase, inv.owner pos]

/-- What the place of the owner of `_wmtx` says of the lock. -/
theorem Inv.phaseAt (inv : Inv s) (at_ : (s.threads t).pc = pc) (m : Phase)
    (locked : 1 ≤ (s.threads t).locks)
    (phase : RwThread.phase { s.threads t with pc := pc } = m) :
    s.phase = m ∧ s.readers = pack m.writer m.pending s.owning s.waiting ∧
      m.Ok s.writerWait s.owning s.releasing := by
  have found : s.phase = m := by rw [inv.phase_eq locked, ← phase, ← at_]
  exact found ▸ ⟨rfl, inv.word, inv.phaseOk⟩

variable [DecidableEq T]

attribute [local simp] RwThread.phase RwThread.owning RwThread.waiting RwThread.releasing
  Aside NoWaker

/-! ## Entering -/

theorem Inv.enter (inv : Inv s) {readers : Word} (waiting : ℕ) (low : s.readers < pendingWriter)
    (phase : (s.threads t).phase = if 1 ≤ (s.threads t).locks then .writing else .free)
    (owning : (s.threads t).owning = (s.threads t).rholds) (releasing : (s.threads t).releasing = 0)
    (aside : (s.threads t).Aside) (waitingEq : waiting + (s.threads t).waiting = s.waiting)
    (within : ({ s with readers := readers }.readAcquired t).Within)
    (word : readers = pack s.phase.writer s.phase.pending (s.owning + 1) waiting) :
    Inv ({ s with readers := readers }.readAcquired t) := by
  refine ⟨inv.toCore.write s.phase (s.owning + 1) waiting (phase_of_same rfl rfl phase.symm) rfl
    trivial within ?_ waitingEq word ?_ (fun stuck => stuck.elim) fun _ => id,
    inv.queue.update (s := s) rfl rfl aside (by constructor <;> simp)⟩
  · simp only [RwThread.owning] at owning ⊢
    omega
  · intro after releasingEq
    rw [releasing] at releasingEq
    rw [show after = s.releasing from releasingEq]
    have ok := inv.phaseOk
    have clear := inv.open low
    generalize s.phase = m at *
    cases m <;> simp_all [Phase.writer, Phase.pending, Phase.Ok]

theorem Inv.convertCas (inv : Inv s) {prev : Word} (at_ : (s.threads t).pc = .rlockConvert prev)
    (same : s.readers = prev) :
    Good ({ s with readers := prev + (readerLockInc - 1) }.readAcquired t) := by
  intro within
  have low : s.readers < pendingWriter := same ▸ inv.localAt at_
  have counted : (s.threads t).waiting = 1 := by simp [at_]
  have positive : 1 ≤ s.waiting := counted ▸ le_tally RwThread.waiting s.threads t
  obtain ⟨others, waitingEq⟩ := Nat.exists_eq_add_of_le' positive
  refine inv.enter others low ?_ ?_ ?_ ?_ ?_ within ?_
  · simp [at_]
  · simp [at_]
  · simp [at_]
  · simp [at_]
  · rw [counted, waitingEq]
  · rw [← same, inv.word, waitingEq, add_convert]

theorem Inv.granted (inv : Inv s) {granted : Bool}
    (at_ : (s.threads t).pc = .rlockWait granted true) : Good (s.readAcquired t) := by
  intro within
  obtain rfl : granted = true := inv.localAt at_ rfl
  refine ⟨inv.toCore.write s.phase s.owning s.waiting (phase_of_same rfl rfl ?_) rfl trivial within
    ?_ ?_ inv.word ?_ (fun stuck => stuck.elim) fun _ => id,
    inv.queue.update (s := s) rfl rfl (by simp [at_]) (by constructor <;> simp)⟩
  · simp [at_]
  · simp [at_]
  · simp [at_]
  · intro releasing releasingEq
    have same : releasing = s.releasing := by simpa [at_] using releasingEq
    rw [same]
    exact inv.phaseOk

/-! ## Waiting -/

omit [Fintype T] [DecidableEq T] in
/-- A thread at the head of the second loop of `rlock`. -/
theorem convertLoop_spec (l : RwThread T) (prev : Word) (pc : RwPc T)
    (head : pc = convertLoop prev) :
    Ok { l with pc := pc } ∧
      RwThread.phase { l with pc := pc } = (if 1 ≤ l.locks then .writing else .free) ∧
      RwThread.owning { l with pc := pc } = l.rholds ∧
      RwThread.waiting { l with pc := pc } = 1 ∧
      RwThread.releasing { l with pc := pc } = 0 ∧
      NoWaker { l with pc := pc } ∧
      (Stuck { l with pc := pc } → ¬prev < pendingWriter) := by
  unfold convertLoop at head
  split at head <;> subst head <;> simp_all [Ok, Stuck]

theorem Inv.pend (inv : Inv s) {readers : Word} (added : readers = s.readers + 1)
    (at_ : (s.threads t).pc = .rlockPend) (head : pc = convertLoop readers) :
    Good ({ s with readers := readers }.goto t pc) := by
  intro within
  have before : (s.threads t).Plain := plain_of_pc (by rw [at_]; rfl)
  obtain ⟨ok, phase, owning, waiting, releasing, noWaker, stuck⟩ :=
    convertLoop_spec (s.threads t) readers pc head
  have word : readers = pack s.phase.writer s.phase.pending s.owning (s.waiting + 1) := by
    rw [added, inv.word, pack, pack]
    exact (BitVec.ofNat_add _ _).symm
  have waitingEq : ({ s with readers := readers }.goto t pc).waiting + (s.threads t).waiting =
      s.waiting + RwThread.waiting { s.threads t with pc := pc } := waiting_update rfl
  have fits : s.waiting + 1 < 2 ^ 16 := by
    rw [before.waiting, waiting] at waitingEq
    have := within.2
    omega
  refine ⟨inv.toCore.write s.phase s.owning (s.waiting + 1) (phase_of_same rfl rfl ?_) rfl ok within
    ?_ ?_ word ?_ ?_ fun _ => id, inv.queue.update (s := s) rfl rfl before.aside noWaker⟩
  · exact phase.trans before.phase.symm
  · rw [before.owning, owning]
  · rw [before.waiting, waiting]
  · intro after releasingEq
    rw [before.releasing, releasing] at releasingEq
    rw [Nat.add_right_cancel releasingEq]
    exact inv.phaseOk
  · intro isStuck
    apply Phase.wakes_of_flag
    rw [← lt_pendingWriter inv.lt.1 fits, ← word]
    exact stuck isStuck

theorem Inv.convertFail (inv : Inv s) {prev : Word} (at_ : (s.threads t).pc = .rlockConvert prev) :
    Good (s.goto t (convertLoop s.readers)) := by
  intro within
  obtain ⟨ok, phase, owning, waiting, releasing, noWaker, stuck⟩ :=
    convertLoop_spec (s.threads t) s.readers _ rfl
  refine inv.goto ok ⟨?_, ?_, ?_, ?_⟩ ?_ (by simp [at_]) noWaker within
  · rw [phase]
    simp [at_]
  · rw [owning]
    simp [at_]
  · rw [waiting]
    simp [at_]
  · rw [releasing]
    simp [at_]
  · intro isStuck
    apply Phase.wakes_of_flag
    rw [← lt_pendingWriter inv.lt.1 inv.lt.2, ← inv.word]
    exact stuck isStuck

omit [DecidableEq T] in
/-- Everything but `RwQueue` looks at the threads only. -/
theorem Core.withQueue (core : Core s) {waiters : List T}
    (queue : RwQueue { s with readWaiters := waiters }) : Inv { s with readWaiters := waiters } :=
  ⟨⟨core.locals, core.mutex, core.word, core.within, core.phaseOk, core.stuck⟩, queue⟩

theorem Inv.push (inv : Inv s) (at_ : (s.threads t).pc = .rlockPush)
    (within : (s.goto t (.rlockWait false false)).Within) :
    Inv ({ s with readWaiters := s.readWaiters ++ [t] }.goto t (.rlockWait false false)) := by
  have moved : Inv (s.goto t (.rlockWait false false)) := by
    exact inv.goto (by simp [Ok]) (by constructor <;> simp [at_])
      (fun _ => inv.stuck t (by simp [Stuck, at_])) (by simp [at_]) (by simp) within
  have threads : (s.goto t (.rlockWait false false)).threads =
      Function.update s.threads t { s.threads t with pc := .rlockWait false false } := rfl
  have apart : ∀ r, (s.threads r).pc = .rlockWait false false → r ≠ t := by
    rintro r waits rfl
    simp [at_] at waits
  apply moved.toCore.withQueue
  refine ⟨?_, ?_, ?_, moved.queue.granting⟩
  · intro v mem
    rcases mem_append.1 mem with old | new
    · exact moved.queue.queued v old
    · rw [mem_singleton.1 new]
      exact congrArg RwThread.pc (threads_self threads)
  · rw [nodup_append]
    refine ⟨inv.queue.nodup, nodup_singleton t, fun v old w new same => ?_⟩
    rw [mem_singleton] at new
    exact apart v (inv.queue.queued v old) (same.trans new)
  · intro v waker r grants
    obtain ⟨waits, absent⟩ := moved.queue.inHand v waker r grants
    refine ⟨waits, fun mem => ?_⟩
    rcases mem_append.1 mem with old | new
    · exact absent old
    · -- The reader in hand waited before this step, and `t` did not.
      have self : v ≠ t := by
        rintro rfl
        have waits := congrArg RwThread.pc (threads_self threads)
        exact absurd (waits.symm.trans grants) (by simp)
      have grants := (congrArg RwThread.pc (threads_other threads self)).symm.trans grants
      exact apart r (inv.queue.inHand v waker r grants).1 (mem_singleton.1 new)

/-! ## Leaving -/

omit [Fintype T] [DecidableEq T] in
/-- What `runlock` finds in the word, when its caller is one of the readers. -/
theorem runlockTest_pack {pending : Bool} {owning waiting : ℕ} (owningFits : owning + 1 < 2 ^ 14)
    (waitingFits : waiting < 2 ^ 16) :
    (runlockTest (pack false pending (owning + 1) waiting) : RwPc T) =
      if owning = 0 ∧ pending = true then .runlockOwner else .idle := by
  have positive : pack false pending (owning + 1) waiting > 0 := by
    rw [gt_iff_lt, BitVec.lt_def, pack_toNat owningFits waitingFits]
    change 0 < _
    omega
  have below : pack false pending (owning + 1) waiting < writerLock := by
    rw [BitVec.lt_def, pack_toNat owningFits waitingFits]
    cases pending <;> simp [writerLock] <;> omega
  have last : pack false pending (owning + 1) waiting &&& readersMask = readerLockInc ↔
      owning = 0 := by
    have one : readerLockInc = pack false false 1 0 := by decide
    rw [and_readersMask owningFits waitingFits, one, pack_inj owningFits (by decide) (by decide)
      (by decide)]
    simp
  have flag : pack false pending (owning + 1) waiting &&& pendingWriter ≠ 0 ↔ pending = true := by
    rw [and_pendingWriter owningFits waitingFits]
    cases pending <;> decide
  unfold runlockTest
  simp only [positive, below, last, flag, decide_true, Bool.and_self, Bool.not_true,
    Bool.false_eq_true, if_false]

theorem Inv.runlock (inv : Inv s) (idle : (s.threads t).pc = .idle)
    (holds : (s.threads t).rholds ≠ 0) {readers : Word} {l : RwThread T}
    (left : readers = s.readers + -readerLockInc) (pc : l.pc = runlockTest s.readers)
    (rholds : l.rholds = (s.threads t).rholds - 1) (locks : l.locks = (s.threads t).locks) :
    Good ({ s with readers := readers }.set t l) := by
  intro within
  have before : (s.threads t).Plain := plain_of_pc (by rw [idle]; rfl)
  have counted : (s.threads t).owning ≤ s.owning := le_tally RwThread.owning s.threads t
  rw [before.owning] at counted
  obtain ⟨others, owningEq⟩ : ∃ others, s.owning = others + 1 := ⟨s.owning - 1, by omega⟩
  have leaving := inv.phaseOk
  rw [owningEq] at leaving
  have noWriter : s.phase.writer = false := by
    cases phase : s.phase <;> simp_all [Phase.Ok, Phase.writer]
  have word := inv.word
  rw [owningEq, noWriter] at word
  rw [word, runlockTest_pack (owningEq ▸ inv.lt.1) inv.lt.2] at pc
  have after : l.Ok ∧ l.phase = (if 1 ≤ l.locks then .writing else .free) ∧
      l.owning = l.rholds ∧ l.waiting = 0 ∧ l.NoWaker ∧ ¬l.Stuck ∧
      l.releasing = if others = 0 ∧ s.phase.pending = true then 1 else 0 := by
    split at pc <;> simp_all [Ok, Stuck]
  obtain ⟨ok, phase, owning, waiting, noWaker, notStuck, releasing⟩ := after
  refine ⟨inv.toCore.write s.phase others s.waiting (phase_of_same rfl rfl ?_) locks ok within ?_ ?_
    ?_ ?_ (fun stuck => (notStuck stuck).elim) fun _ => id,
    inv.queue.update (s := s) rfl rfl before.aside noWaker⟩
  · rw [before.phase, phase, locks]
  · rw [before.owning, owning, rholds, owningEq]
    omega
  · rw [before.waiting, waiting]
  · rw [left, word, sub_readerLockInc, noWriter]
  · intro remaining releasingEq
    rw [before.releasing, releasing] at releasingEq
    rw [show remaining = _ from releasingEq]
    exact leaving.leave

omit [DecidableEq T] in
theorem Inv.releasing_pos (inv : Inv s) (releases : (s.threads t).releasing = 1) :
    s.phase = .sleeping ∧ s.writerWait = true ∧ s.owning = 0 ∧ s.releasing = 1 :=
  inv.phaseOk.sleeping_of_releasing (releases ▸ le_tally RwThread.releasing s.threads t)

/-- The last reader finds the sleeping writer as the owner of `_wmtx`. -/
theorem Inv.runlockOwner (inv : Inv s) (at_ : (s.threads t).pc = .runlockOwner) {writer : T} :
    Good (s.goto t (.runlockStore writer)) := by
  intro within
  exact inv.goto trivial (by constructor <;> simp [at_]) (fun stuck => stuck.elim) (by simp [at_])
    (by simp) within

theorem Inv.runlockStore (inv : Inv s) {writer : T} (at_ : (s.threads t).pc = .runlockStore writer) :
    Good ({ s with writerWait := false }.goto t .idle) := by
  intro within
  have releases : (s.threads t).releasing = 1 := by simp [at_]
  obtain ⟨sleeping, -, empty, one⟩ := inv.releasing_pos releases
  refine ⟨inv.toCore.write s.phase s.owning s.waiting (phase_of_same rfl rfl ?_) rfl trivial within
    ?_ ?_ inv.word ?_ (fun stuck => stuck.elim) fun _ => id,
    inv.queue.update (s := s) rfl rfl (by simp [at_]) (by constructor <;> simp)⟩
  · simp [at_]
  · simp [at_]
  · simp [at_]
  · intro releasing releasingEq
    have none : releasing = 0 := by
      rw [releases, one] at releasingEq
      exact Nat.add_right_cancel (releasingEq.trans (by rfl : 1 + 0 = 0 + 1))
    rw [sleeping, empty, none]
    exact .inr ⟨rfl, rfl, rfl⟩

end RwLock

end MiniOsv.Sync
