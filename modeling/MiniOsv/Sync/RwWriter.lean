/-
# Sync.RwWriter -- the steps of the owner of `_wmtx` keep the invariant

Taking and releasing the mutex never changes the phase (`Inv.mtxLock`, `Inv.mtxUnlock`).
Between the two, the owner alone moves the lock from phase to phase (`Inv.advance`): it
announces itself, blocks new readers, waits for the last one, owns the lock for writing,
and hands it to the readers that came in the meantime.
-/
import MiniOsv.Sync.RwReader

namespace MiniOsv.Sync

open Theory RwThread Function

universe u

theorem Phase.writer_iff {m : Phase} : m.writer = true ↔ m = .writing := by
  cases m <;> simp [Phase.writer]

namespace RwLock

variable {T : Type u} [Fintype T] [DecidableEq T] {s : RwLock T} {t : T}

attribute [local simp] RwThread.phase

/-! ## The mutex -/

/-- The mutex changes hands within one phase. -/
theorem Inv.relock {s' : RwLock T} {l : RwThread T} (inv : Inv s)
    (threads : s'.threads = update s.threads t l)
    (mutex : ∀ v, s'.wmtxOwner = some v ↔ 1 ≤ (s'.threads v).locks)
    (phase : s'.phase = s.phase) (readers : s'.readers = s.readers)
    (wait : s'.writerWait = s.writerWait) (waiters : s'.readWaiters = s.readWaiters) (ok : l.Ok)
    (before : (s.threads t).Active) (after : l.Active)
    (rholds : l.rholds = (s.threads t).rholds) (noWaker : l.NoWaker) : Inv s' := by
  have owning : s'.owning = s.owning := by
    have := owning_update threads
    rw [before.owning, after.owning, rholds] at this
    omega
  have waiting : s'.waiting = s.waiting := by
    have := waiting_update threads
    rw [before.waiting, after.waiting] at this
    omega
  have releasing : s'.releasing = s.releasing := by
    have := releasing_update threads
    rw [before.releasing, after.releasing] at this
    omega
  refine ⟨⟨locals_update threads inv.locals ok, mutex, ?_, ?_, ?_, ?_⟩,
    inv.queue.update threads waiters before.aside noWaker⟩
  · rw [readers, phase, owning, waiting]
    exact inv.word
  · rw [Within, owning, waiting]
    exact inv.within
  · rw [phase, wait, owning, releasing]
    exact inv.phaseOk
  · intro v isStuck
    rw [phase]
    by_cases self : v = t
    · rw [self, threads_self threads] at isStuck
      exact absurd after.waiting (Nat.ne_of_gt isStuck.waiting_pos)
    · rw [threads_other threads self] at isStuck
      exact inv.stuck v isStuck

variable {old pc : RwPc T}

section

variable (inv : Inv s)

include inv

theorem Inv.mtxLock (idle : (s.threads t).pc = .idle)
    (available : s.mtxAvailable t = true)
    (ok : Ok { s.threads t with pc := pc, locks := (s.threads t).locks + 1 })
    (phase : RwThread.phase { s.threads t with pc := pc, locks := (s.threads t).locks + 1 } =
      if 2 ≤ (s.threads t).locks + 1 then .writing else .free)
    (active : isActive pc = true)
    (noWaker : NoWaker
      { s.threads t with pc := pc, locks := (s.threads t).locks + 1 }) : Inv (s.mtxLock t pc) := by
  have threads : (s.mtxLock t pc).threads = update s.threads t
      { s.threads t with pc := pc, locks := (s.threads t).locks + 1 } := rfl
  have owner : s.wmtxOwner = none ∨ s.wmtxOwner = some t := by
    simpa [mtxAvailable] using available
  have before : (s.threads t).Plain := plain_of_pc (by rw [idle]; rfl)
  refine inv.relock threads ?_ ?_ rfl rfl rfl ok
    (active_of_pc (by rw [idle]; rfl)) (active_of_pc active) rfl noWaker
  · intro v
    by_cases self : v = t
    · rw [self, threads_self threads]
      simp [RwLock.mtxLock, set]
    · rw [threads_other threads self, ← inv.mutex v]
      rcases owner with owner | owner <;> simp [RwLock.mtxLock, set, owner, Ne.symm self]
  · rw [phase_of_owner threads rfl, phase]
    rcases owner with owner | owner
    · have unlocked : (s.threads t).locks = 0 := by
        by_contra locked
        exact absurd (inv.owner (Nat.one_le_iff_ne_zero.2 locked)) (by simp [owner])
      rw [RwLock.phase, owner]
      simp [unlocked]
    · have locked := (inv.mutex t).1 owner
      rw [inv.phase_eq locked, before.phase, if_pos locked, if_pos (Nat.succ_le_succ locked)]

theorem Inv.mtxUnlock (at_ : (s.threads t).pc = old)
    (locked : 1 ≤ (s.threads t).locks)
    (last : (s.threads t).locks = 1 → (s.threads t).phase = .free)
    (inner : (s.threads t).locks ≠ 1 →
      RwThread.phase { s.threads t with pc := pc, locks := (s.threads t).locks - 1 } =
        (s.threads t).phase)
    (ok : Ok { s.threads t with pc := pc, locks := (s.threads t).locks - 1 })
    (before : isActive old = true) (after : isActive pc = true)
    (noWaker : NoWaker
      { s.threads t with pc := pc, locks := (s.threads t).locks - 1 }) : Inv (s.mtxUnlock t pc) := by
  have threads : (s.mtxUnlock t pc).threads = update s.threads t
      { s.threads t with pc := pc, locks := (s.threads t).locks - 1 } := rfl
  have owner := inv.owner locked
  refine inv.relock threads ?_ ?_ rfl rfl rfl ok (active_of_pc (at_ ▸ before))
    (active_of_pc after) rfl noWaker
  · intro v
    have newOwner : (s.mtxUnlock t pc).wmtxOwner =
        if (s.threads t).locks = 1 then none else s.wmtxOwner := rfl
    rw [newOwner]
    by_cases self : v = t
    · rw [self, threads_self threads, owner]
      by_cases one : (s.threads t).locks = 1
      · simp [one]
      · simp only [one, if_false, true_iff]
        omega
    · rw [threads_other threads self, ← inv.mutex v, owner]
      by_cases one : (s.threads t).locks = 1 <;> simp [one, Ne.symm self]
  · rw [inv.phase_eq locked]
    by_cases one : (s.threads t).locks = 1
    · have released : (s.mtxUnlock t pc).wmtxOwner = none := if_pos one
      rw [RwLock.phase, released, last one]
    · have kept : (s.mtxUnlock t pc).wmtxOwner = some t := (if_neg one).trans owner
      rw [phase_of_owner threads kept, inner one]

/-! ## From phase to phase -/

theorem Inv.advance {readers : Word} {wait : Bool} (m : Phase) (locked : 1 ≤ (s.threads t).locks)
    (at_ : (s.threads t).pc = old) (ok : Ok { s.threads t with pc := pc })
    (within : ({ s with readers := readers, writerWait := wait }.goto t pc).Within)
    (word : readers = pack m.writer m.pending s.owning s.waiting)
    (phaseOk : m.Ok wait s.owning s.releasing) (wakes : 0 < s.waiting → s.phase.Wakes → m.Wakes)
    (phase : RwThread.phase { s.threads t with pc := pc } = m)
    (before : isActive old = true) (after : isActive pc = true)
    (noWaker : NoWaker { s.threads t with pc := pc }) :
    Inv ({ s with readers := readers, writerWait := wait }.goto t pc) := by
  have old := active_of_pc (at_ ▸ before)
  have new : Active { s.threads t with pc := pc } := active_of_pc after
  have threads : (s.write t readers wait { s.threads t with pc := pc }).threads =
      update s.threads t { s.threads t with pc := pc } := rfl
  refine ⟨inv.toCore.write m s.owning s.waiting ?_ rfl ok within ?_ ?_ word ?_ ?_ wakes,
    inv.queue.update (s := s) rfl rfl old.aside noWaker⟩
  · exact (phase_of_owner threads (inv.owner locked)).trans phase
  · rw [old.owning, new.owning]
  · rw [old.waiting, new.waiting]
  · intro releasing releasingEq
    rw [old.releasing, new.releasing] at releasingEq
    rw [Nat.add_right_cancel releasingEq]
    exact phaseOk
  · intro stuck
    exact absurd new.waiting (Nat.ne_of_gt stuck.waiting_pos)

theorem Inv.stay (at_ : (s.threads t).pc = old)
    (phase : RwThread.phase { s.threads t with pc := pc } = (s.threads t).phase)
    (ok : Ok { s.threads t with pc := pc }) (within : (s.goto t pc).Within)
    (before : isActive old = true) (after : isActive pc = true)
    (noWaker : NoWaker { s.threads t with pc := pc }) : Inv (s.goto t pc) := by
  have old := active_of_pc (at_ ▸ before)
  have new : Active { s.threads t with pc := pc } := active_of_pc after
  refine inv.goto ok ⟨phase, ?_, ?_, ?_⟩ ?_ old.aside noWaker within
  · rw [old.owning, new.owning]
  · rw [old.waiting, new.waiting]
  · rw [old.releasing, new.releasing]
  · intro stuck
    exact absurd new.waiting (Nat.ne_of_gt stuck.waiting_pos)

/-! ## What the tests on the word say -/

omit [DecidableEq T] in
theorem Inv.no_readers : s.readers &&& readersMask = 0 ↔ s.owning = 0 := by
  have zero : (0 : Word) = pack false false 0 0 := by decide
  rw [inv.word, and_readersMask inv.lt.1 inv.lt.2, zero,
    pack_inj inv.lt.1 (by decide) (by decide) (by decide)]
  simp

omit [DecidableEq T] in
theorem Inv.no_writer : s.readers &&& writerLock = 0 ↔ s.phase.writer = false := by
  rw [inv.word, and_writerLock inv.lt.1 inv.lt.2]
  cases s.phase.writer <;> decide

omit [DecidableEq T] in
theorem Inv.pendingReaders : s.readers &&& pendingReadersMask = pack false false 0 s.waiting := by
  rw [inv.word, and_pendingReadersMask inv.lt.1 inv.lt.2]

end

theorem pack_waiting_eq_zero {waiting : ℕ} (fits : waiting < 2 ^ 16) :
    pack false false 0 waiting = 0 ↔ waiting = 0 := by
  have zero : (0 : Word) = pack false false 0 0 := by decide
  rw [zero, pack_inj (by decide) fits (by decide) (by decide)]
  simp

section

variable (inv : Inv s)

include inv

omit [DecidableEq T] in
/-- The word that a successful exchange of a writer installs. -/
theorem Inv.claimed :
    writerLock ||| (s.readers &&& pendingReadersMask) = pack true false 0 s.waiting := by
  rw [inv.pendingReaders, writerLock_or inv.lt.2]

/-! ## `try_upgrade` and `try_wlock` -/

theorem Inv.upgradeLoad (at_ : (s.threads t).pc = .upgradeLoad)
    (single : s.readers &&& indReadMask = readerLockInc) :
    Good (s.goto t (.upgradeCas s.readers)) := by
  intro within
  have ok : 1 ≤ (s.threads t).locks ∧ 1 ≤ (s.threads t).rholds := inv.localAt at_
  refine inv.stay at_ ?_ ?_ within rfl rfl ⟨by simp, by simp⟩
  · simp [at_]
  · exact ⟨ok.1, ok.2, single⟩

theorem Inv.upgradeCas {prev : Word} (at_ : (s.threads t).pc = .upgradeCas prev)
    (same : s.readers = prev) {readers : Word} {l : RwThread T}
    (claim : readers = writerLock ||| (prev &&& pendingReadersMask)) (idle : l.pc = .idle)
    (rholds : l.rholds = (s.threads t).rholds - 1) (locks : l.locks = (s.threads t).locks) :
    Good ({ s with readers := readers }.set t l) := by
  intro within
  have local_ : 1 ≤ (s.threads t).locks ∧ 1 ≤ (s.threads t).rholds ∧
      prev &&& indReadMask = readerLockInc := inv.localAt at_
  obtain ⟨locked, holds, single⟩ := local_
  have one : readerLockInc = pack false false 1 0 := by decide
  rw [← same, inv.word, and_indReadMask inv.lt.1 inv.lt.2, one,
    pack_inj inv.lt.1 (by decide) (by decide) (by decide)] at single
  obtain ⟨noWriter, noPending, owningOne, -⟩ := single
  have before : (s.threads t).Active := active_of_pc (by rw [at_]; rfl)
  have after : l.Plain := plain_of_pc (by rw [idle]; rfl)
  have bound : (s.threads t).owning ≤ s.owning := le_tally RwThread.owning s.threads t
  rw [before.owning] at bound
  have free : s.phase = .free := by
    have phase : s.phase = if 2 ≤ (s.threads t).locks then .writing else .free := by
      rw [inv.phase_eq locked]
      simp [at_]
    split at phase
    · rw [phase] at noWriter
      exact absurd noWriter (by decide)
    · exact phase
  have quiet : s.releasing = 0 := by
    have ok := inv.phaseOk
    rwa [free] at ok
  have threads : (s.write t readers s.writerWait l).threads = update s.threads t l := rfl
  refine ⟨inv.toCore.write .writing 0 s.waiting ?_ locks ?_ within ?_ ?_ ?_ ?_ ?_ fun _ _ => trivial,
    inv.queue.update threads rfl before.aside after.noWaker⟩
  · rw [phase_of_owner threads (inv.owner locked), after.phase, locks, if_pos locked]
  · simp [Ok, idle]
  · rw [before.owning, after.owning, rholds]
    omega
  · rw [before.waiting, after.waiting]
  · rw [claim, ← same]
    exact inv.claimed
  · intro releasing releasingEq
    rw [before.releasing, after.releasing, quiet] at releasingEq
    exact ⟨rfl, releasingEq⟩
  · intro stuck
    exact absurd after.waiting (Nat.ne_of_gt stuck.waiting_pos)

omit [DecidableEq T] in
/-- The mutex was just taken: the word tells whether the thread was the writer already. -/
theorem Inv.entry
    (phase : (s.threads t).phase = if 2 ≤ (s.threads t).locks then .writing else .free)
    (locked : 1 ≤ (s.threads t).locks) :
    (s.readers &&& writerLock = 0 → (s.threads t).locks = 1 ∧ s.phase = .free) ∧
      (s.readers &&& writerLock ≠ 0 → s.phase = .writing) := by
  rw [← inv.phase_eq locked] at phase
  rw [Ne, inv.no_writer, phase]
  by_cases inner : 2 ≤ (s.threads t).locks
  · rw [if_pos inner]
    simp [Phase.writer]
  · rw [if_neg inner]
    have one : (s.threads t).locks = 1 := by omega
    simp [Phase.writer, one]

theorem Inv.tryWlockLoad (at_ : (s.threads t).pc = .tryWlockLoad)
    (empty : s.readers &&& readersMask = 0) (noWriter : s.readers &&& writerLock = 0) :
    Good (s.goto t (.tryWlockCas s.readers)) := by
  intro within
  have locked : 1 ≤ (s.threads t).locks := inv.localAt at_
  obtain ⟨one, free⟩ := (inv.entry (by simp [at_]) locked).1 noWriter
  refine inv.stay at_ ?_ ⟨one, empty⟩ within rfl rfl ⟨by simp, by simp⟩
  rw [← inv.phase_eq locked, free]
  rfl

/-- The calls that find the lock held by their own thread return. -/
theorem Inv.reentered (at_ : (s.threads t).pc = .tryWlockLoad ∨ (s.threads t).pc = .wlockCheck)
    (writer : s.readers &&& writerLock ≠ 0) : Good (s.goto t .idle) := by
  intro within
  have locked : 1 ≤ (s.threads t).locks := by
    have ok := inv.locals t
    rcases at_ with at_ | at_ <;> simpa [Ok, at_] using ok
  have entry : (s.threads t).phase = if 2 ≤ (s.threads t).locks then .writing else .free := by
    rcases at_ with at_ | at_ <;> simp [at_]
  have writing := (inv.entry entry locked).2 writer
  have same : RwThread.phase { s.threads t with pc := (.idle : RwPc T) } = (s.threads t).phase := by
    rw [← inv.phase_eq locked, writing]
    simp [locked]
  rcases at_ with at_ | at_ <;>
    exact inv.stay at_ same trivial within rfl rfl ⟨by simp, by simp⟩

/-- The exchange of a writer that found no reader. -/
theorem Inv.claim {prev readers : Word} (same : s.readers = prev)
    (claim : readers = writerLock ||| (prev &&& pendingReadersMask))
    (empty : prev &&& readersMask = 0) (quiet : s.releasing = 0) (locked : 1 ≤ (s.threads t).locks)
    (at_ : (s.threads t).pc = old) (ok : Ok { s.threads t with pc := pc })
    (within : ({ s with readers := readers }.goto t pc).Within)
    (before : isActive old = true) (plain : isPlain pc = true)
    (after : isActive pc = true) : Inv ({ s with readers := readers }.goto t pc) := by
  have there : Plain { s.threads t with pc := pc } := plain_of_pc plain
  rw [← same] at empty claim
  have none := inv.no_readers.1 empty
  refine inv.advance .writing locked at_ ok within ?_ ⟨none, quiet⟩ (fun _ _ => trivial) ?_ before
    after there.noWaker
  · rw [claim, none]
    exact inv.claimed
  · rw [there.phase, if_pos locked]

/-! ## `wlock` -/

theorem Inv.wlockCheck (at_ : (s.threads t).pc = .wlockCheck)
    (noWriter : s.readers &&& writerLock = 0) : Good (s.goto t .wlockStore) := by
  intro within
  have locked : 1 ≤ (s.threads t).locks := inv.localAt at_
  obtain ⟨one, free⟩ := (inv.entry (by simp [at_]) locked).1 noWriter
  refine inv.stay at_ ?_ one within rfl rfl ⟨by simp, by simp⟩
  rw [← inv.phase_eq locked, free]
  rfl

theorem Inv.wlockStore (at_ : (s.threads t).pc = .wlockStore) :
    Good ({ s with writerWait := true }.goto t .wlockOr) := by
  intro within
  have one : (s.threads t).locks = 1 := inv.localAt at_
  obtain ⟨free, word, phaseOk⟩ := inv.phaseAt at_ .free one.ge rfl
  refine inv.advance .announced one.ge at_ one within word ⟨phaseOk, rfl⟩ ?_ rfl rfl rfl
    ⟨by simp, by simp⟩
  rw [free]
  exact fun _ => id

end

omit [Fintype T] [DecidableEq T] in
theorem wlockLoop_pack {writer pending : Bool} {owning waiting : ℕ} (owningFits : owning < 2 ^ 14)
    (waitingFits : waiting < 2 ^ 16) :
    (wlockLoop (pack writer pending owning waiting) : RwPc T) =
      if owning = 0 then .wlockCas (pack writer pending owning waiting) else .wlockWait := by
  have zero : (0 : Word) = pack false false 0 0 := by decide
  have test : pack writer pending owning waiting &&& readersMask = 0 ↔ owning = 0 := by
    rw [and_readersMask owningFits waitingFits, zero,
      pack_inj owningFits (by decide) (by decide) (by decide)]
    simp
  unfold wlockLoop
  simp only [test]

section

variable (inv : Inv s)

include inv

/-- `PENDING_WRITER` is set: the writer claims the lock or waits for the last reader. -/
theorem Inv.wlockOr (at_ : (s.threads t).pc = .wlockOr) {readers : Word}
    (blocked : readers = s.readers ||| pendingWriter) (head : pc = wlockLoop readers) :
    Good ({ s with readers := readers }.goto t pc) := by
  intro within
  have one : (s.threads t).locks = 1 := inv.localAt at_
  obtain ⟨-, word, phaseOk⟩ := inv.phaseAt at_ .announced one.ge rfl
  rw [word, or_pendingWriter inv.lt.1 inv.lt.2] at blocked
  rw [blocked, wlockLoop_pack inv.lt.1 inv.lt.2] at head
  by_cases empty : s.owning = 0
  · rw [if_pos empty] at head
    subst head
    exact inv.advance .claiming one.ge at_ one within blocked ⟨empty, phaseOk.1, phaseOk.2⟩
      (fun _ _ => trivial) rfl rfl rfl ⟨by simp, by simp⟩
  · rw [if_neg empty] at head
    subst head
    exact inv.advance .sleeping one.ge at_ one within blocked
      (.inl ⟨phaseOk.2, .inl ⟨Nat.pos_of_ne_zero empty, phaseOk.1⟩⟩) (fun _ _ => trivial) rfl rfl
      rfl ⟨by simp, by simp⟩

/-- A failed exchange of `wlock` finds no reader again, since new ones are blocked. -/
theorem Inv.wlockRetry {prev : Word} (at_ : (s.threads t).pc = .wlockCas prev) :
    Good (s.goto t (wlockLoop s.readers)) := by
  intro within
  have one : (s.threads t).locks = 1 := inv.localAt at_
  obtain ⟨-, -, phaseOk⟩ := inv.phaseAt at_ .claiming one.ge rfl
  have again : (wlockLoop s.readers : RwPc T) = .wlockCas s.readers := by
    rw [inv.word, wlockLoop_pack inv.lt.1 inv.lt.2, if_pos phaseOk.1]
  rw [again] at within ⊢
  refine inv.stay at_ ?_ one within rfl rfl ⟨by simp, by simp⟩
  simp [at_]

theorem Inv.wlockCas {prev : Word} (at_ : (s.threads t).pc = .wlockCas prev)
    (same : s.readers = prev) {readers : Word}
    (claim : readers = writerLock ||| (prev &&& pendingReadersMask)) :
    Good ({ s with readers := readers }.goto t .wlockDone) := by
  intro within
  have one : (s.threads t).locks = 1 := inv.localAt at_
  obtain ⟨-, -, phaseOk⟩ := inv.phaseAt at_ .claiming one.ge rfl
  exact inv.claim same claim (same ▸ inv.no_readers.2 phaseOk.1) phaseOk.2.1 one.ge at_ one within
    rfl rfl rfl

theorem Inv.wlockDone (at_ : (s.threads t).pc = .wlockDone) :
    Good ({ s with writerWait := false }.goto t .idle) := by
  intro within
  have one : (s.threads t).locks = 1 := inv.localAt at_
  obtain ⟨-, word, phaseOk⟩ := inv.phaseAt at_ .writing one.ge (by simp [one])
  exact inv.advance .writing one.ge at_ trivial within word phaseOk (fun _ _ => trivial)
    (by simp [one]) rfl rfl ⟨by simp, by simp⟩

/-- The writer was woken: the last reader is gone and the store was made. -/
theorem Inv.wlockWait (at_ : (s.threads t).pc = .wlockWait) (woken : s.writerWait = false) :
    Good (s.goto t .wlockAdd) := by
  intro within
  have one : (s.threads t).locks = 1 := inv.localAt at_
  obtain ⟨-, word, phaseOk⟩ := inv.phaseAt at_ .sleeping one.ge rfl
  have gone : s.owning = 0 ∧ s.releasing = 0 := by
    simpa [Phase.Ok, woken] using phaseOk
  exact inv.advance .adding one.ge at_ one within word gone (fun _ _ => trivial) rfl rfl rfl
    ⟨by simp, by simp⟩

/-- The addition moves the pending writer's bit up to the writer's. -/
theorem Inv.wlockAdd (at_ : (s.threads t).pc = .wlockAdd) :
    Good ({ s with readers := s.readers + pendingWriter }.goto t .idle) := by
  intro within
  have one : (s.threads t).locks = 1 := inv.localAt at_
  obtain ⟨-, word, phaseOk⟩ := inv.phaseAt at_ .adding one.ge rfl
  refine inv.advance .writing one.ge at_ trivial within ?_ phaseOk (fun _ _ => trivial)
    (by simp [one]) rfl rfl ⟨by simp, by simp⟩
  rw [word]
  exact add_pendingWriter _ _

end

end RwLock

end MiniOsv.Sync
