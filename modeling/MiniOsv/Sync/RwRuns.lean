/-
# Sync.RwRuns -- every step keeps the invariant

The steps of the previous modules put together: a call (`Inv.call`), an access
(`Inv.run`), and with them every state that threads can reach within the documented
limits (`Reached.inv`).
-/
import MiniOsv.Sync.RwWaker
import MiniOsv.Theory.Transition

namespace MiniOsv.Sync

open Theory RwThread

universe u

namespace RwLock

variable {T : Type u} [Fintype T] [DecidableEq T] {s s' : RwLock T} {t : T}

attribute [local simp] RwThread.phase

/-! ## Calls -/

omit [Fintype T] in
theorem goto_of_some {pc : RwPc T} (result : some (s.goto t pc) = some s') :
    ∃ next, next = pc ∧ s' = s.goto t next :=
  ⟨pc, rfl, (Option.some.inj result).symm⟩

omit [Fintype T] in
theorem goto_readers_of_some {word : Word} {pc : RwPc T}
    (result : some ({ s with readers := word }.goto t pc) = some s') : ∃ readers next,
      readers = word ∧ next = pc ∧ s' = { s with readers := readers }.goto t next :=
  ⟨word, pc, rfl, rfl, (Option.some.inj result).symm⟩

omit [Fintype T] [DecidableEq T] in
theorem tryRlockLoop_spec (l : RwThread T) (prev : Word) (fits : Bool) {pc : RwPc T}
    (head : pc = if fits then tryRlockLoop prev else .failed .tryRlock) :
    isPlain pc = true ∧ Ok { l with pc := pc } := by
  unfold tryRlockLoop at head
  split at head <;> [split at head; skip] <;> subst head <;>
    simp_all [isPlain, Ok]

omit [Fintype T] [DecidableEq T] in
theorem rlockLoop_spec (l : RwThread T) (prev : Word) (fits : Bool) {pc : RwPc T}
    (head : pc = if fits then rlockLoop prev else .failed .rlock) :
    isPlain pc = true ∧ Ok { l with pc := pc } := by
  unfold rlockLoop at head
  split at head <;> [split at head <;> [skip; split at head]; skip] <;> subst head <;>
    simp_all [isPlain, Ok]

theorem Inv.call (inv : Inv s) {op : RwOp} (idle : (s.threads t).pc = .idle)
    (result : s.call t op = some s') (within : s'.Within) : Inv s' := by
  have plain : isPlain (s.threads t).pc = true := by rw [idle]; rfl
  have writer : (s.threads t).locks ≠ 0 → s.readers &&& writerLock ≠ 0 := fun holds => by
    rw [Ne, inv.no_writer, inv.writing plain (Nat.one_le_iff_ne_zero.2 holds)]
    decide
  cases op with simp only [RwLock.call] at result
  | tryRlock =>
    obtain ⟨pc, head, rfl⟩ := goto_of_some result
    obtain ⟨plain', ok⟩ := tryRlockLoop_spec (s.threads t) s.readers _ head
    exact inv.goto_plain plain plain' ok within
  | rlock =>
    obtain ⟨pc, head, rfl⟩ := goto_of_some result
    obtain ⟨plain', ok⟩ := rlockLoop_spec (s.threads t) s.readers _ head
    exact inv.goto_plain plain plain' ok within
  | runlock =>
    split at result
    · cases result
    next holds =>
      obtain rfl := Option.some.inj result
      exact inv.runlock idle holds rfl rfl rfl rfl within
  | tryUpgrade =>
    split at result
    · cases result
    next holds =>
      split at result <;> cases result
      next available =>
        exact inv.mtxLock idle available ⟨Nat.le_add_left 1 _, Nat.one_le_iff_ne_zero.2 holds⟩
          rfl rfl ⟨by simp, by simp⟩
  | tryWlock | wlock =>
    split at result <;> cases result
    next available =>
      exact inv.mtxLock idle available (Nat.le_add_left 1 _) rfl rfl ⟨by simp, by simp⟩
  | wunlock =>
    split at result
    · cases result
    next holds =>
      rw [if_neg (writer holds)] at result
      split at result <;> cases result
      next inner =>
        exact inv.goto_plain plain rfl inner within
      · have one : (s.threads t).locks = 1 := by omega
        exact inv.goto_plain plain rfl one within
  | downgrade =>
    split at result
    · cases result
    next holds =>
      rw [if_neg (writer holds)] at result
      cases result
      exact inv.goto_plain plain rfl (Nat.one_le_iff_ne_zero.2 holds) within

/-! ## Accesses -/

theorem Inv.run (inv : Inv s) {spurious : Bool} (result : s.run t spurious = some s')
    (within : s'.Within) : Inv s' := by
  have local_ := inv.locals t
  rw [Ok] at local_
  unfold RwLock.run at result
  cases at_ : (s.threads t).pc <;> simp only [at_] at result local_
  case idle => cases result
  case failed site => cases result
  case tryRlockCas prev | rlockCas prev =>
    have plain : isPlain (s.threads t).pc = true := by rw [at_]; rfl
    split at result
    next exchanged =>
      obtain rfl := Option.some.inj result
      have before := plain_of_pc plain
      refine inv.enter s.waiting (exchanged.1 ▸ local_) before.phase before.owning before.releasing
        before.aside (by rw [before.waiting, Nat.add_zero]) within ?_
      rw [← exchanged.1, inv.word, add_readerLockInc]
    · obtain ⟨pc, head, rfl⟩ := goto_of_some result
      obtain ⟨plain', ok⟩ : isPlain pc = true ∧ Ok { s.threads t with pc := pc } := by
        first | exact tryRlockLoop_spec _ _ true head | exact rlockLoop_spec _ _ true head
      exact inv.goto_plain plain plain' ok within
  case rlockPend =>
    obtain ⟨readers, pc, added, head, rfl⟩ := goto_readers_of_some result
    exact inv.pend added at_ (added ▸ head) within
  case rlockConvert prev =>
    split at result
    next exchanged =>
      obtain rfl := Option.some.inj result
      exact inv.convertCas at_ exchanged.1 within
    · cases result
      exact inv.convertFail at_ within
  case rlockPush =>
    cases result
    exact inv.push at_ within
  case rlockWait granted cleared =>
    cases cleared with
    | false => cases result
    | true =>
      cases result
      exact inv.granted at_ within
  case runlockOwner =>
    split at result
    next none =>
      have sleeping := (inv.releasing_pos (t := t) (by simp [RwThread.releasing, at_])).1
      rw [RwLock.phase, none] at sleeping
      exact absurd sleeping (by simp)
    · cases result
      exact inv.runlockOwner at_ within
  case runlockStore writer =>
    cases result
    exact inv.runlockStore at_ within
  case upgradeLoad =>
    split at result <;> cases result
    next single =>
      exact inv.upgradeLoad at_ single within
    · exact inv.stay at_ (by simp [at_]) local_.1 within rfl rfl ⟨by simp, by simp⟩
  case upgradeCas prev =>
    split at result <;> cases result
    next same =>
      exact inv.upgradeCas at_ same rfl rfl rfl rfl within
    · exact inv.stay at_ (by simp [at_]) local_.1 within rfl rfl ⟨by simp, by simp⟩
  case tryWlockLoad =>
    split at result
    next open_ =>
      cases result
      exact inv.tryWlockLoad at_ open_.1 open_.2 within
    · split at result <;> cases result
      next writer =>
        exact inv.reentered (.inl at_) writer within
      · exact inv.stay at_ (by simp [at_]) local_ within rfl rfl ⟨by simp, by simp⟩
  case tryWlockCas prev =>
    split at result <;> cases result
    next same =>
      obtain ⟨-, -, quiet⟩ := inv.phaseAt at_ .free local_.1.ge rfl
      exact inv.claim same rfl local_.2 quiet local_.1.ge at_ trivial within rfl rfl rfl
    · refine inv.stay at_ ?_ local_.1.ge within rfl rfl ⟨by simp, by simp⟩
      simp [at_, local_.1]
  case tryUnlock =>
    cases result
    refine inv.mtxUnlock at_ local_ (fun one => ?_) (fun more => ?_) trivial rfl rfl
      ⟨by simp, by simp⟩
    · simp [at_, one]
    · have two : 2 ≤ (s.threads t).locks := by omega
      have left : 1 ≤ (s.threads t).locks - 1 := by omega
      simp [at_, two, left]
  case wlockCheck =>
    split at result <;> cases result
    next writer =>
      exact inv.reentered (.inr at_) writer within
    next noWriter =>
      exact inv.wlockCheck at_ (not_not.1 noWriter) within
  case wlockStore =>
    cases result
    exact inv.wlockStore at_ within
  case wlockOr =>
    obtain ⟨readers, pc, blocked, head, rfl⟩ := goto_readers_of_some result
    exact inv.wlockOr at_ blocked (blocked ▸ head) within
  case wlockCas prev =>
    split at result <;> cases result
    next exchanged =>
      exact inv.wlockCas at_ exchanged.1 rfl within
    · exact inv.wlockRetry at_ within
  case wlockDone =>
    cases result
    exact inv.wlockDone at_ within
  case wlockWait =>
    split at result <;> cases result
    next woken =>
      exact inv.wlockWait at_ (Bool.not_eq_true _ ▸ woken) within
  case wlockAdd =>
    obtain rfl := Option.some.inj result
    exact inv.wlockAdd at_ within
  case wunlockInner =>
    cases result
    have left : 1 ≤ (s.threads t).locks - 1 := by omega
    refine inv.mtxUnlock at_ (by omega) (by omega) (fun more => ?_) trivial rfl rfl
      ⟨by simp, by simp⟩
    have one : 1 ≤ (s.threads t).locks := by omega
    simp [at_, one, left]
  case wunlockAnd =>
    obtain ⟨readers, pc, cleared, head, rfl⟩ := goto_readers_of_some result
    exact inv.wunlockAnd at_ cleared head within
  case wunlockMtx =>
    cases result
    exact inv.mtxUnlock at_ local_.ge (by simp [at_])
      (fun more => absurd local_ more) trivial rfl rfl ⟨by simp, by simp⟩
  case wakePop waker =>
    split at result <;> cases result
    · exact inv.stay at_ (by simp [at_]) local_ within rfl rfl ⟨by simp, by simp⟩
    next reader rest queue =>
      exact inv.take at_ queue within
  case wakeReload waker =>
    obtain ⟨pc, head, rfl⟩ := goto_of_some result
    exact inv.wakeReload (.inl at_) head within
  case wakeGrant waker reader =>
    obtain ⟨readers, pending, added, count, rfl⟩ : ∃ readers pending : Word,
        readers = s.readers + (readerLockInc - 1) ∧ pending = s.readers &&& pendingReadersMask ∧
          s' = ({ s with readers := readers }.goto t (.wakeStore waker reader pending)).goto reader
            (.rlockWait true false) :=
      ⟨_, _, rfl, rfl, (Option.some.inj result).symm⟩
    exact inv.grant at_ added count within
  case wakeStore waker reader pending =>
    cases result
    exact inv.clear at_ within
  case downgradeLoad =>
    have plain : isPlain (s.threads t).pc = true := by rw [at_]; rfl
    -- The assertion passes, since no reader owns the lock.
    have fit : readersFit s.readers = true := by
      have phaseOk := inv.phaseOk
      rw [inv.writing plain local_] at phaseOk
      rw [readersFit, BitVec.and_comm, inv.no_readers.2 phaseOk.1]
      decide
    rw [if_pos fit] at result
    cases result
    exact inv.goto_plain plain rfl local_ within
  case downgradeCas prev =>
    split at result
    next exchanged =>
      obtain rfl := Option.some.inj result
      exact inv.downgradeCas at_ exchanged.1 rfl rfl rfl rfl within
    · cases result
      exact inv.goto_plain (by rw [at_]; rfl) rfl local_ within
  case downgradeReload =>
    obtain ⟨pc, head, rfl⟩ := goto_of_some result
    exact inv.wakeReload (.inr ⟨at_, rfl⟩) head within
  case downgradeMtx =>
    cases result
    by_cases one : (s.threads t).locks = 1
    · rw [if_pos one]
      exact inv.mtxUnlock at_ local_ (by simp [at_])
        (fun more => absurd one more) trivial rfl rfl ⟨by simp, by simp⟩
    · rw [if_neg one]
      have left : 1 ≤ (s.threads t).locks - 1 := by omega
      exact inv.mtxUnlock at_ local_ (fun same => absurd same one) (by simp [at_])
        left rfl rfl ⟨by simp, by simp⟩

/-! ## Runs -/

/-- One step within the documented limits. -/
def Bounded (s s' : RwLock T) : Prop := Step s s' ∧ s'.Within

/-- The states that threads can reach within the documented limits. -/
def Reached (s : RwLock T) : Prop := Reachable (fun s => s = initial) Bounded s

theorem Reached.initial : Reached (initial : RwLock T) := .start rfl

theorem Inv.step (inv : Inv s) (step : Bounded s s') : Inv s' := by
  obtain ⟨step, within⟩ := step
  cases step with
  | call t op idle result => exact inv.call idle result within
  | run t spurious result => exact inv.run result within

theorem Reached.inv (reached : Reached s) : Inv s := by
  refine Reachable.invariant (I := Inv) ?_ ?_ reached
  · rintro s rfl
    exact Inv.initial
  · exact fun _ _ _ inv step => inv.step step

/-! ## Runs that are given step by step -/

instance (s : RwLock T) : Decidable s.Within := inferInstanceAs (Decidable (_ ∧ _))

/-- Who does what next; without an operation, the thread makes its next access. -/
def play (s : RwLock T) : List (T × Option RwOp) → Option (RwLock T)
  | [] => some s
  | (t, some op) :: rest =>
    if (s.threads t).pc = .idle then
      match s.call t op with
      | some s' => if s'.Within then s'.play rest else none
      | none => none
    else none
  | (t, none) :: rest =>
    match s.run t false with
    | some s' => if s'.Within then s'.play rest else none
    | none => none

theorem Reached.play {moves : List (T × Option RwOp)} (reached : Reached s)
    (played : s.play moves = some s') : Reached s' := by
  induction moves generalizing s with
  | nil =>
    cases played
    exact reached
  | cons move rest ih =>
    obtain ⟨t, op | op⟩ := move <;> simp only [RwLock.play] at played
    · split at played
      next next result =>
        split at played
        next within =>
          exact ih (reached.next ⟨.run t false result, within⟩) played
        · cases played
      · cases played
    · split at played
      next idle =>
        split at played
        next next result =>
          split at played
          next within =>
            exact ih (reached.next ⟨.call t op idle result, within⟩) played
          · cases played
        · cases played
      · cases played

end RwLock

end MiniOsv.Sync
