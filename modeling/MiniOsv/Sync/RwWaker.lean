/-
# Sync.RwWaker -- releasing the lock and waking readers keeps the invariant

`wunlock` and `downgrade` clear `WRITER_LOCK` and then run `wake_pending_readers`: pop a
reader, make it an owner on its behalf, clear the value it waits for, until the pending
count is zero.  Only the owner of `_wmtx` does so, hence at most one reader is in hand.
With these the invariant is kept by every step (`Inv.step`).
-/
import MiniOsv.Sync.RwWriter

namespace MiniOsv.Sync

open Theory Function RwThread

universe u

namespace RwLock

variable {T : Type u} [Fintype T] [DecidableEq T] {s : RwLock T} {t : T}

attribute [local simp] RwThread.phase RwThread.owning RwThread.waiting RwThread.releasing

/-! ## The loop -/

variable {waker : Waker} {old pc : RwPc T}

omit [Fintype T] [DecidableEq T] in
theorem wakeLoop_spec (l : RwThread T) {pending : Word}
    (head : pc = wakeLoop waker pending) (ok : l.WakerOk waker) :
    Ok { l with pc := pc } ∧ isActive pc = true ∧
      NoWaker { l with pc := pc } ∧
      RwThread.phase { l with pc := pc } = if pending = 0 then .free else .waking := by
  unfold wakeLoop at head
  by_cases none : pending = 0
  · rw [if_pos none] at head
    cases waker <;> subst head <;>
      simp_all [Ok, isActive, NoWaker, WakerOk]
  · rw [if_neg none] at head
    subst head
    exact ⟨ok, rfl, by constructor <;> simp, by rw [if_neg none]; rfl⟩

/-- The waker looks at the pending count while the lock is open. -/
theorem Inv.wakeLoop (inv : Inv s) {readers pending : Word} (at_ : (s.threads t).pc = old)
    (ok : (s.threads t).WakerOk waker) (quiet : s.releasing = 0)
    (word : readers = pack false false s.owning s.waiting)
    (count : pending = pack false false 0 s.waiting) (head : pc = Sync.wakeLoop waker pending)
    (within : ({ s with readers := readers }.goto t pc).Within)
    (before : isActive old = true) : Inv ({ s with readers := readers }.goto t pc) := by
  obtain ⟨ok', after, noWaker, phase⟩ := wakeLoop_spec (s.threads t) head ok
  have test : pending = 0 ↔ s.waiting = 0 := count ▸ pack_waiting_eq_zero inv.lt.2
  by_cases none : s.waiting = 0
  · rw [if_pos (test.2 none)] at phase
    exact inv.advance .free ok.pos at_ ok' within word quiet
      (fun some => absurd none (Nat.ne_of_gt some)) phase before after noWaker
  · rw [if_neg (mt test.1 none)] at phase
    exact inv.advance .waking ok.pos at_ ok' within word quiet (fun _ _ => trivial) phase before
      after noWaker

theorem Inv.wunlockAnd (inv : Inv s) (at_ : (s.threads t).pc = .wunlockAnd) {readers : Word}
    (cleared : readers = s.readers &&& ~~~writerLock)
    (head : pc = Sync.wakeLoop .wunlock (s.readers &&& pendingReadersMask)) :
    Good ({ s with readers := readers }.goto t pc) := by
  intro within
  have one : (s.threads t).locks = 1 := inv.localAt at_
  obtain ⟨-, word, phaseOk⟩ := inv.phaseAt at_ .writing one.ge (by simp [one])
  have ok : (s.threads t).WakerOk .wunlock := one
  refine inv.wakeLoop at_ ok phaseOk.2 ?_ inv.pendingReaders head within rfl
  rw [cleared, word, and_not_writerLock inv.lt.1 inv.lt.2]
  rfl

theorem Inv.wakeReload (inv : Inv s)
    (at_ : (s.threads t).pc = .wakeReload waker ∨
      (s.threads t).pc = .downgradeReload ∧ waker = .downgrade)
    (head : pc = Sync.wakeLoop waker (s.readers &&& pendingReadersMask)) : Good (s.goto t pc) := by
  intro within
  rcases at_ with at_ | ⟨at_, rfl⟩
  · have ok : (s.threads t).WakerOk waker := inv.localAt at_
    obtain ⟨-, word, quiet⟩ := inv.phaseAt at_ .waking ok.pos rfl
    exact inv.wakeLoop at_ ok quiet word inv.pendingReaders head within rfl
  · have ok : (s.threads t).WakerOk .downgrade := inv.localAt at_
    obtain ⟨-, word, quiet⟩ := inv.phaseAt at_ .waking ok.pos rfl
    exact inv.wakeLoop at_ ok quiet word inv.pendingReaders head within rfl

/-! ## One reader -/

omit [DecidableEq T] in
/-- Only one thread has a reader in its hand. -/
theorem Inv.waker_unique (inv : Inv s) (locked : 1 ≤ (s.threads t).locks) {v : T}
    (hand : ¬(s.threads v).NoWaker) : v = t := by
  have lockedToo : 1 ≤ (s.threads v).locks := by
    simp only [NoWaker, not_and_or, not_forall, not_not] at hand
    rcases hand with ⟨waker, reader, at_⟩ | ⟨waker, reader, pending, at_⟩
    · have ok : (s.threads v).WakerOk waker := inv.localAt at_
      exact ok.pos
    · have ok : (s.threads v).WakerOk waker ∧ pending ≠ 0 := inv.localAt at_
      exact ok.1.pos
  have same := (inv.owner lockedToo).symm.trans (inv.owner locked)
  exact Option.some.inj same

/-- A reader leaves the queue for the hand of the waker. -/
theorem Inv.take (inv : Inv s) (at_ : (s.threads t).pc = .wakePop waker) {reader : T}
    {rest : List T} (queue : s.readWaiters = reader :: rest)
    (within : (s.goto t (.wakeGrant waker reader)).Within) :
    Inv ({ s with readWaiters := rest }.goto t (.wakeGrant waker reader)) := by
  have ok : (s.threads t).WakerOk waker := inv.localAt at_
  have threads : (s.goto t (.wakeGrant waker reader)).threads = update s.threads t
      { s.threads t with pc := .wakeGrant waker reader } := rfl
  have moved : Core (s.goto t (.wakeGrant waker reader)) := by
    refine inv.toCore.goto ok ?_ (fun stuck => stuck.elim) within
    constructor <;> simp [at_]
  have kept : ∀ v granted, (s.threads v).pc = .rlockWait granted false →
      ((s.goto t (.wakeGrant waker reader)).threads v).pc = .rlockWait granted false := by
    intro v granted waits
    have other : v ≠ t := by
      rintro rfl
      simp [at_] at waits
    rw [threads_other threads other]
    exact waits
  have nodup := inv.queue.nodup
  rw [queue, List.nodup_cons] at nodup
  apply moved.withQueue
  refine ⟨?_, nodup.2, ?_, ?_⟩
  · intro v mem
    exact kept v false (inv.queue.queued v (queue ▸ List.mem_cons_of_mem reader mem))
  · intro v waker' reader' grants
    have self : v = t := by
      by_contra other
      have grants := (congrArg RwThread.pc (threads_other threads other)).symm.trans grants
      exact other (inv.waker_unique ok.pos fun noWaker => noWaker.1 waker' reader' grants)
    have hand := (congrArg RwThread.pc (threads_self threads)).symm.trans (self ▸ grants)
    obtain ⟨rfl, rfl⟩ : waker = waker' ∧ reader = reader' := by simpa using hand
    exact ⟨kept reader false (inv.queue.queued reader (queue ▸ List.mem_cons_self)), nodup.1⟩
  · intro v waker' reader' pending stores
    have other : v ≠ t := by
      rintro rfl
      have hand := (congrArg RwThread.pc (threads_self threads)).symm.trans stores
      exact absurd hand (by simp)
    have stores := (congrArg RwThread.pc (threads_other threads other)).symm.trans stores
    exact kept reader' true (inv.queue.granting v waker' reader' pending stores)

omit [Fintype T] in
theorem goto_comm {a b : T} (ne : a ≠ b) (p q : RwPc T) :
    (s.goto a p).goto b q = (s.goto b q).goto a p := by
  simp only [goto, set, update_of_ne ne, update_of_ne ne.symm]
  rw [update_comm ne]

omit [Fintype T] in
theorem goto_other {a v : T} (ne : v ≠ a) (p : RwPc T) :
    ((s.goto a p).threads v) = s.threads v := update_of_ne ne _ _

omit [Fintype T] in
theorem goto_self {a : T} (p : RwPc T) :
    ((s.goto a p).threads a) = { s.threads a with pc := p } := update_self _ _ _

/-- The limits do not see a step within one role. -/
theorem Within.of_alike (within : (s.goto t pc).Within)
    (alike : (s.threads t).Alike { s.threads t with pc := pc }) : s.Within := by
  have threads : (s.goto t pc).threads =
      update s.threads t { s.threads t with pc := pc } := rfl
  have owning := owning_update threads
  have waiting := waiting_update threads
  rw [alike.owning] at owning
  rw [alike.waiting] at waiting
  rwa [Within, Nat.add_right_cancel owning, Nat.add_right_cancel waiting] at within

section

variable (inv : Inv s)

include inv

/-- The queue after the waker has moved itself and the reader in its hand. -/
theorem Inv.queue_handed (locked : 1 ≤ (s.threads t).locks)
    (aside : (s.threads t).Aside) {reader : T} (absent : reader ∉ s.readWaiters) {p q : RwPc T}
    (waits : NoWaker { s.threads reader with pc := q })
    (taken : ∀ waker other, p ≠ .wakeGrant waker other)
    (stores : ∀ waker other pending, p = .wakeStore waker other pending →
      other = reader ∧ reader ≠ t ∧ q = .rlockWait true false)
    {s' : RwLock T} (threads : s'.threads = ((s.goto reader q).goto t p).threads)
    (waiters : s'.readWaiters = s.readWaiters) : s'.RwQueue := by
  have mine : ∀ v, ¬(s'.threads v).NoWaker → v = t := by
    intro v hand
    by_contra other
    rw [threads, goto_other other] at hand
    by_cases isReader : v = reader
    · rw [isReader, goto_self] at hand
      exact hand waits
    · rw [goto_other isReader] at hand
      exact other (inv.waker_unique locked hand)
  have self : (s'.threads t).pc = p := by
    rw [threads, goto_self]
  refine ⟨?_, by rw [waiters]; exact inv.queue.nodup, ?_, ?_⟩
  · intro v mem
    rw [waiters] at mem
    have queued := inv.queue.queued v mem
    have other : v ≠ t := fun same => aside false (same ▸ queued)
    have notReader : v ≠ reader := fun same => absent (same ▸ mem)
    rw [threads, goto_other other, goto_other notReader]
    exact queued
  · intro v waker other grants
    have same := mine v fun noWaker => noWaker.1 waker other grants
    exact absurd (self.symm.trans (same ▸ grants)) (taken waker other)
  · intro v waker other pending grants
    have same := mine v fun noWaker => noWaker.2 waker other pending grants
    obtain ⟨rfl, ne, granted⟩ := stores waker other pending (self.symm.trans (same ▸ grants))
    rw [threads, goto_other ne, goto_self]
    exact granted

theorem Inv.grant {reader : T}
    (at_ : (s.threads t).pc = .wakeGrant waker reader) {readers pending : Word}
    (added : readers = s.readers + (readerLockInc - 1))
    (count : pending = s.readers &&& pendingReadersMask) :
    Good (({ s with readers := readers }.goto t (.wakeStore waker reader pending)).goto reader
      (.rlockWait true false)) := by
  intro within
  have ok : (s.threads t).WakerOk waker := inv.localAt at_
  obtain ⟨waits, absent⟩ := inv.queue.inHand t waker reader at_
  have ne : t ≠ reader := by
    rintro rfl
    simp [at_] at waits
  obtain ⟨waking, word, quiet⟩ := inv.phaseAt at_ .waking ok.pos rfl
  have counted : (s.threads reader).waiting = 1 := by simp [waits]
  have positive : 1 ≤ s.waiting := counted ▸ le_tally RwThread.waiting s.threads reader
  obtain ⟨others, waitingEq⟩ := Nat.exists_eq_add_of_le' positive
  rw [goto_comm ne] at within ⊢
  have still : ({ s with readers := readers }.goto reader (.rlockWait true false)).threads t =
      s.threads t := goto_other ne _
  have alike : Alike (s.threads t)
      { s.threads t with pc := .wakeStore waker reader pending } := by
    constructor <;> simp [at_]
  have first : Core ({ s with readers := readers }.goto reader (.rlockWait true false)) := by
    refine inv.toCore.write s.phase (s.owning + 1) others (phase_of_same rfl rfl ?_) rfl ?_ ?_ ?_ ?_
      ?_ ?_ (fun stuck => stuck.elim) fun _ => id
    · simp [waits]
    · simp [Ok]
    · exact within.of_alike (still ▸ alike)
    · simp [waits]
      omega
    · rw [counted, waitingEq]
      rfl
    · rw [waking, added, word, waitingEq]
      exact add_convert _ _ _ _
    · intro releasing releasingEq
      rw [waking]
      have none : releasing = s.releasing := by
        simpa [waits] using releasingEq
      exact none.trans quiet
  refine ⟨first.goto ?_ (still ▸ alike) (fun stuck => stuck.elim) within, ?_⟩
  · refine ⟨by rw [still]; exact ok, ?_⟩
    rw [count, inv.pendingReaders, Ne, pack_waiting_eq_zero inv.lt.2]
    omega
  · refine inv.queue_handed ok.pos (by simp [Aside, at_]) absent
      (by constructor <;> simp) (by simp) ?_ rfl rfl
    intro waker' other pending' same
    obtain ⟨-, rfl, -⟩ : waker = waker' ∧ reader = other ∧ pending = pending' := by simpa using same
    exact ⟨rfl, ne.symm, rfl⟩

theorem Inv.clear {reader : T} {pending : Word}
    (at_ : (s.threads t).pc = .wakeStore waker reader pending) :
    Good ((s.goto t (Sync.wakeLoop waker pending)).goto reader (.rlockWait true true)) := by
  intro within
  have local_ : (s.threads t).WakerOk waker ∧ pending ≠ 0 := inv.localAt at_
  have next : (Sync.wakeLoop waker pending : RwPc T) = .wakePop waker := if_neg local_.2
  have waits := inv.queue.granting t waker reader pending at_
  have absent : reader ∉ s.readWaiters := by
    intro mem
    exact absurd (inv.queue.queued reader mem) (by simp [waits])
  have ne : t ≠ reader := by
    rintro rfl
    simp [at_] at waits
  rw [next, goto_comm ne] at within ⊢
  have still : (s.goto reader (.rlockWait true true)).threads t = s.threads t := goto_other ne _
  have alike : Alike (s.threads t) { s.threads t with pc := .wakePop waker } := by
    constructor <;> simp [at_]
  have first : Core (s.goto reader (.rlockWait true true)) := by
    refine inv.toCore.goto (by simp [Ok]) ?_ (fun stuck => stuck.elim)
      (within.of_alike (still ▸ alike))
    constructor <;>
      simp [waits]
  refine ⟨first.goto ?_ (still ▸ alike) (fun stuck => stuck.elim) within, ?_⟩
  · rw [still]
    exact local_.1
  · exact inv.queue_handed local_.1.pos (by simp [Aside, at_]) absent
      (by constructor <;> simp) (by simp) (by simp) rfl rfl

/-! ## `downgrade` -/

omit [DecidableEq T] in
theorem Inv.writing (plain : isPlain (s.threads t).pc = true)
    (locked : 1 ≤ (s.threads t).locks) : s.phase = .writing := by
  rw [inv.phase_eq locked, (plain_of_pc plain).phase, if_pos locked]

theorem Inv.downgradeCas {prev : Word} (at_ : (s.threads t).pc = .downgradeCas prev)
    (same : s.readers = prev) {readers : Word} {l : RwThread T}
    (opened : readers = (prev &&& ~~~writerLock) + readerLockInc) (pc : l.pc = .downgradeReload)
    (rholds : l.rholds = (s.threads t).rholds + 1) (locks : l.locks = (s.threads t).locks) :
    Good ({ s with readers := readers }.set t l) := by
  intro within
  have locked : 1 ≤ (s.threads t).locks := inv.localAt at_
  have plain : isPlain (s.threads t).pc = true := by
    rw [at_]
    rfl
  have before := plain_of_pc plain
  have after : l.Active := active_of_pc (by rw [pc]; rfl)
  have phaseOk := inv.phaseOk
  have word := inv.word
  rw [inv.writing plain locked] at phaseOk word
  have threads : (s.write t readers s.writerWait l).threads = update s.threads t l := rfl
  refine ⟨inv.toCore.write .waking (s.owning + 1) s.waiting ?_ locks ?_ within ?_ ?_ ?_ ?_ ?_
    fun _ _ => trivial, inv.queue.update threads rfl before.aside (by simp [NoWaker, pc])⟩
  · rw [phase_of_owner threads (inv.owner locked)]
    simp [pc]
  · simpa [Ok, pc, locks] using locked
  · rw [before.owning, after.owning, rholds]
    omega
  · rw [before.waiting, after.waiting]
  · rw [opened, ← same, word, and_not_writerLock inv.lt.1 inv.lt.2, add_readerLockInc]
    rfl
  · intro releasing releasingEq
    rw [before.releasing, after.releasing, phaseOk.2] at releasingEq
    exact releasingEq
  · intro stuck
    exact absurd after.waiting (Nat.ne_of_gt stuck.waiting_pos)

end

end RwLock

end MiniOsv.Sync
