/-
# Sync.LfMutexRuns -- the lock word of the mutex is balanced

`send_lock_unless_already_waiting` adds one to `count` before it looks whether its thread is in
the queue already, and does not take it back when it returns false: the mutex then counts a
locker that does not exist.  `leaked_count` is such a run.  Where `wake_lock` finds its thread
asleep in the wait itself, the call never returns false, the record is queued once, and `count`
is what the threads have added (`reachedAllowed_lockWord`).
-/
import MiniOsv.Sync.LfMutexSteps

namespace MiniOsv.Sync.LfMutex

open Theory Thread List

section Runs

variable {κ : Type} [DecidableEq κ]

section Invariant

variable [Fintype κ] {s s' : State κ}

/-! ## Every step -/

theorem Inv.go (inv : Inv s) {t : κ} (stepped : s.go t = some s') : Inv s' := by
  unfold State.go at stepped
  cases place : (s.threads t).pc <;> simp only [place] at stepped
  case idle => cases stepped
  case lockAdd => cases stepped; exact inv.lockAdd place
  case lockOwn => cases stepped; exact inv.lockOwn place
  case lockCheck => cases stepped; exact inv.lockCheck place
  case lockUndo => cases stepped; exact inv.lockUndo place
  case lockPush => cases stepped; exact inv.lockPush place
  case lockHandoff => cases stepped; exact inv.lockHandoff place
  case lockEmpty old => cases stepped; exact inv.lockEmpty place
  case lockCas old =>
    have next := inv.lockCas place
    split at stepped
    case isTrue same => cases stepped; rwa [if_pos same] at next
    case isFalse other => cases stepped; rwa [if_neg other] at next
  case lockPop =>
    split at stepped
    case h_1 => cases stepped
    case h_2 other rest queue =>
      split_ifs at stepped with mine kind woken <;> cases stepped
      · exact inv.lockPopOwn place (by rw [queue, ← mine, ← kind])
      · exact inv.lockPop place queue mine
  case lockWake other =>
    cases stepped
    exact inv.clearRecord place rfl (.lockResume other.thread) rfl rfl ⟨rfl, rfl⟩ rfl ⟨rfl, rfl⟩ rfl
      rfl rfl (by simp) rfl rfl
  case lockResume r =>
    cases stepped
    exact inv.resume place rfl .lockWait rfl ⟨rfl, rfl⟩ rfl rfl rfl rfl rfl rfl (by simp) rfl rfl
  case lockWait =>
    split_ifs at stepped with sending woken running
    · cases stepped; exact inv.lockWaitWoken place sending woken
    · cases stepped; simpa only [place] using inv.lockWaitSleep place running
  case tryCas =>
    split_ifs at stepped with zero
    · cases stepped; exact inv.tryCas place zero
    · cases stepped
      exact inv.move place .tryCheck s.depth (by simp)
  case tryCheck =>
    split_ifs at stepped with owned <;> cases stepped
    · exact inv.move place .idle _ (by simp)
    · exact inv.move place .tryHandoff s.depth (by simp)
  case tryHandoff =>
    cases stepped
    split
    case isTrue =>
      exact inv.move place .idle s.depth (by simp)
    case isFalse handed =>
      exact inv.move place (.tryTake s.handoff) s.depth (by simpa using handed)
  case tryTake old =>
    split_ifs at stepped with same
    · cases stepped; exact inv.tryTake place same
    · cases stepped
      exact inv.move place .idle s.depth (by simp)
  case tryAdd => cases stepped; exact inv.tryAdd place
  case unlockDepth waits =>
    split at stepped
    case isTrue => cases stepped; exact inv.unlockDepth place
    case isFalse => cases stepped
  case unlockOwner waits => cases stepped; exact inv.unlockOwner place
  case unlockSub waits => cases stepped; exact inv.unlockSub place
  case unlockPop waits =>
    split at stepped
    case h_1 =>
      cases stepped
      exact inv.move place (.unlockStore waits) s.depth (by simp)
    case h_2 other rest queue =>
      split_ifs at stepped with mine
      cases stepped
      exact inv.pop place queue _ ⟨rfl, rfl⟩ mine rfl rfl rfl rfl rfl rfl rfl (by simp) ⟨rfl, rfl⟩
  case unlockWake waits other =>
    cases stepped
    exact inv.clearRecord place rfl (.unlockResume waits other.thread) rfl rfl ⟨rfl, rfl⟩ rfl
      ⟨rfl, rfl⟩ rfl rfl rfl (by simp) rfl rfl
  case unlockResume waits r =>
    cases stepped
    cases waits <;> exact inv.resume place rfl _ rfl ⟨rfl, rfl⟩ rfl rfl rfl rfl rfl rfl (by simp)
      rfl rfl
  case unlockStore waits => cases stepped; exact inv.unlockStore place
  case unlockEmpty waits ours => cases stepped; exact inv.unlockEmpty place
  case unlockCas waits ours =>
    split_ifs at stepped with same
    · cases stepped; exact inv.unlockCas place same
    · cases stepped; exact inv.leave place rfl rfl rfl rfl rfl rfl (by simp) s.depth
  case sleep =>
    split_ifs at stepped with running sent
    · cases stepped; exact inv.receive place running sent
    · cases stepped
      have ok := inv.places.ok t
      exact ⟨inv.accounts.turn place _ rfl rfl rfl rfl rfl rfl rfl, inv.places.own t _ rfl
        ⟨by simp, by simp, by simp [running], by simp [running], fun sent' => absurd sent' sent,
          ok.armed, by simp⟩ (fun owned => ⟨inv.places.owner t owned, by simp⟩)
        (fun _ _ _ _ fit => fit.same rfl rfl rfl rfl) (fun _ _ => id) (by simp) rfl⟩
  case sendAdd r =>
    split_ifs at stepped with owned
    cases stepped
    exact inv.sendAdd place
  case sendScan r rest =>
    cases rest with
    | nil =>
      cases stepped
      exact ⟨inv.accounts.turn place _ rfl rfl rfl rfl rfl rfl rfl, inv.sending place rfl _ rfl rfl
        rfl rfl rfl rfl rfl (by simp) (by simp) (by simp) (by simp)⟩
    | cons x rest =>
      have other := inv.places.scans t r _ place x mem_cons_self
      dsimp only at stepped
      rw [if_neg fun found => other found.2] at stepped
      cases stepped
      exact inv.sendScan place
  case sendPush r => cases stepped; exact inv.sendPush place
  case sent r => cases stepped; exact inv.sent place
  case refuse r => exact absurd place ((inv.places.ok t).accepted r)
  case clear r => cases stepped; exact inv.clear place

theorem Inv.wake (inv : Inv s) {r : κ} (waiting : (s.threads r).status = .waiting) :
    Inv (s.set r { s.threads r with status := .running }) := by
  have ok := inv.places.ok r
  constructor
  · exact inv.accounts.own r _ rfl rfl rfl fun _ => rfl
  · refine inv.places.own r _ rfl ⟨ok.held, ok.number, by simp, by simp, fun sent => ?_, ok.armed,
      ok.accepted⟩ (fun owned => ⟨inv.places.owner r owned,
        fun waits atSub => inv.places.released r waits atSub owned⟩) (fun u role _ _ fit => ?_)
      (fun _ _ => id) ⟨inv.places.carried r, inv.places.acts r, inv.places.scans r⟩ rfl
    · obtain ⟨active, unarmed, asleep⟩ := ok.sent sent
      refine ⟨active, unarmed, fun unwoken => ?_⟩
      exact absurd (waiting.symm.trans (asleep unwoken)) (by simp)
    · cases role with
      | send => exact absurd (waiting.symm.trans fit.1) (by simp)
      | clear => exact fit
      | resume => simp

/-- A turn of `wait_for`: the holder arms its record and starts to release the mutex. -/
theorem Inv.wait (inv : Inv s) {t : κ} (place : (s.threads t).pc = .idle)
    (held : 0 < (s.threads t).held) :
    Inv (s.set t { s.threads t with armed := true, status := .waiting, pc := .unlockDepth true,
                                    waiterWoken := (s.threads t).armed && (s.threads t).waiterWoken }) := by
  have ok := inv.places.ok t
  have unsent := ok.unsent (by rw [place]; rfl)
  constructor
  · refine inv.accounts.own t _ rfl ?_ ?_ fun o => ?_
    · simp [place]
    · simp [place, unsent]
    · cases kind : o.kind <;> simp [place, unsent]
  · refine inv.places.own t _ rfl ⟨fun _ => held, by simp, by simp, by simp, by simp [unsent],
      fun _ => ?_, by simp⟩ (fun owned => ⟨held, by simp⟩) (fun u role away other fit => ?_)
      (fun _ _ => id) (by simp) rfl
    · cases armed : (s.threads t).armed with
      | false => rfl
      | true => simpa using ok.armed armed
    · obtain rfl := inv.only_resumed held away other
      simp

theorem Inv.disarm (inv : Inv s) {t : κ} (place : (s.threads t).pc = .idle)
    (held : 0 < (s.threads t).held) : Inv (s.set t { s.threads t with armed := false }) := by
  have ok := inv.places.ok t
  have unsent := ok.unsent (by rw [place]; rfl)
  constructor
  · exact inv.accounts.own t _ rfl rfl rfl fun _ => rfl
  · refine inv.places.own t _ rfl ⟨ok.held, ok.number, ok.waiting, ok.sending, by simp [unsent],
      by simp, ok.accepted⟩ (fun owned => ⟨held, by simp [place]⟩) (fun u role away other fit => ?_)
      (fun _ _ => id) ⟨inv.places.carried t, inv.places.acts t, inv.places.scans t⟩ rfl
    obtain rfl := inv.only_resumed held away other
    exact fit

theorem Inv.step (inv : Inv s) {event : Event κ} (allowed : s.Allowed event)
    (stepped : s.step event = some s') : Inv s' := by
  cases event <;> simp only [State.step] at stepped
  case go t => exact inv.go stepped
  case wakeLock t r =>
    split_ifs at stepped with can waiting <;> cases stepped
    · obtain ⟨place, held, ne, armed⟩ := can
      obtain ⟨waits, settled⟩ := allowed waiting
      exact inv.startSend place held ne armed waits settled
    · obtain ⟨place, held, ne, armed⟩ := can
      exact inv.startClear place held ne armed
  all_goals obtain ⟨can, ⟨⟩⟩ := Option.ite_none_right_eq_some.1 stepped
  case wake r => exact inv.wake can
  case lock t => exact inv.move can .lockAdd s.depth (by simp)
  case tryLock t => exact inv.move can .tryCas s.depth (by simp)
  case unlock t => exact inv.move can.1 (.unlockDepth false) s.depth ⟨.inr can.2, by simp⟩
  case wait t => exact inv.wait can.1 can.2
  case disarm t => exact inv.disarm can.1 can.2

theorem Inv.initial (start : s.Initial) : Inv s := by
  obtain ⟨count, owner, queue, handoff, refused, threads⟩ := start
  have zero : ∀ f : Thread κ → ℕ, (∀ t, f (s.threads t) = 0) → tally f s.threads = 0 :=
    fun f none => tally_eq_zero.2 none
  constructor
  · refine ⟨?_, ?_, fun o => ?_⟩
    · rw [count, zero share]
      · rfl
      · intro t
        obtain ⟨place, held, -, unsent, -⟩ := threads t
        simp [place, held, unsent]
    · rw [count, handoff, zero token]
      · rfl
      · intro t
        obtain ⟨place, held, -, unsent, -⟩ := threads t
        simp [place, held, unsent]
    · obtain ⟨place, -, -, unsent, -⟩ := threads o.thread
      rw [zero (carriesOne o), zero (owesOne o), queue]
      · cases kind : o.kind <;> simp [place, unsent]
      · exact fun t => by simp [(threads t).1]
      · exact fun t => by simp [(threads t).1]
  · refine ⟨fun t => ?_, by simp [owner], fun t waits atSub => ?_, fun t o has => ?_,
      fun t r role acting => ?_, fun t r rest atScan => ?_, refused⟩
    · obtain ⟨place, held, running, unsent, unarmed⟩ := threads t
      exact ⟨by simp [place], by simp [place], by simp [running],
        by simp [running], by simp [unsent], by simp [unarmed], by simp [place]⟩
    · simp [(threads t).1] at atSub
    · simp [(threads t).1] at has
    · simp [(threads t).1] at acting
    · simp [(threads t).1] at atScan

theorem State.ReachedAllowed.inv (reached : s.ReachedAllowed) : Inv s :=
  Reachable.invariant (I := Inv) (fun _ start => Inv.initial start)
    (fun _ _ _ inv ⟨_, allowed, stepped⟩ => inv.step allowed stepped) reached

/-- A record that was just sent is in the queue, once. -/
theorem Inv.queued_once (inv : Inv s) {t r : κ} (place : (s.threads t).pc = .sent r) :
    s.queue.count ⟨r, .waiter⟩ = 1 := by
  have acting : (s.threads t).pc.acts = some (r, .send) := by rw [place]; rfl
  obtain ⟨-, -, unsent, -, -⟩ := inv.places.acts t r .send acting
  have held := inv.sender acting
  have alone := (inv.alone (token_pos_of_held held)).2.2
  have account := inv.accounts.records ⟨r, .waiter⟩
  have free : tally (carriesOne ⟨r, .waiter⟩) s.threads = 0 := tally_eq_zero.2 fun u => by
    unfold carriesOne
    refine if_neg fun carrying => ?_
    have right : 0 < (s.threads u).token := by
      unfold token
      cases found : (s.threads u).pc <;> simp [found] at carrying
      all_goals simp
    by_cases same : u = t
    · rw [same, place] at carrying
      cases carrying
    · have := alone u same
      omega
  have owed : tally (owesOne ⟨r, .waiter⟩) s.threads = 1 := by
    unfold tally
    rw [Finset.sum_eq_single t]
    · simp [place]
    · intro u _ away
      refine if_neg fun owing => ?_
      have holds : (s.threads u).pc.holds = true := by
        cases found : (s.threads u).pc <;> simp [found] at owing
        rfl
      exact away (inv.holder held ((inv.places.ok u).held holds))
    · exact fun out => absurd (Finset.mem_univ t) out
  simp only [wants, unsent, Bool.false_and, bit_false] at account
  omega

/-- When no thread is in a call of the mutex or holds it, the lock word is zero. -/
theorem Inv.settled (inv : Inv s)
    (idle : ∀ t, (s.threads t).pc = .idle ∧ (s.threads t).held = 0) : s.count = 0 := by
  have none : tally share s.threads = 0 := tally_eq_zero.2 fun t => by
    have unsent := (inv.places.ok t).unsent (by rw [(idle t).1]; rfl)
    simp [idle t, unsent]
  have := inv.accounts.balance
  omega

/-- **The lock word stays balanced.**  In every run in which `wake_lock` finds waiting only threads
that sleep in the wait, `send_lock_unless_already_waiting` never returns false; when it has
returned true the record is in the queue once, and no record of a wait is there twice; `count` is
one for each thread that holds the mutex, wants it or has been sent it, at most one thread holds
it, and `count` is zero when all are done. -/
theorem reachedAllowed_lockWord (s : State κ) (reached : s.ReachedAllowed) :
    s.refused = 0 ∧ (∀ t r, (s.threads t).pc ≠ .refuse r) ∧
      (∀ t r, (s.threads t).pc = .sent r → s.queue.count ⟨r, .waiter⟩ = 1) ∧
      (∀ r, s.queue.count ⟨r, .waiter⟩ ≤ 1) ∧ s.count = tally share s.threads ∧
      (∀ t u, 0 < (s.threads t).held → 0 < (s.threads u).held → u = t) ∧
      ((∀ t, (s.threads t).pc = .idle ∧ (s.threads t).held = 0) → s.count = 0) := by
  have inv := reached.inv
  refine ⟨inv.places.refused, fun t => (inv.places.ok t).accepted, fun t r => inv.queued_once,
    fun r => ?_, inv.accounts.balance, fun t u => inv.holder, inv.settled⟩
  by_cases owing : ∃ t, (s.threads t).pc = .sent r
  · obtain ⟨t, place⟩ := owing
    exact (inv.queued_once place).le
  · have account := inv.accounts.records ⟨r, .waiter⟩
    have bound := (s.threads r).wants_le .waiter
    have none : tally (owesOne ⟨r, .waiter⟩) s.threads = 0 := tally_eq_zero.2 fun u => by
      refine if_neg fun owes => owing ⟨u, ?_⟩
      cases found : (s.threads u).pc <;> simp [found] at owes
      rw [owes]
    simp only at account
    omega

/-! ## The handoff -/

/-- When a record is queued while the mutex is handed off, a thread will still look at the
handoff or take its own one back. -/
def State.Watched (s : State κ) : Prop :=
  s.handoff = 0 ∨ s.queue = [] ∨
    ∃ t, (s.threads t).pc = .lockHandoff ∨ (s.threads t).pc.number = some s.handoff

theorem Inv.watched (inv : Inv s) (watched : s.Watched) {event : Event κ}
    (stepped : s.step event = some s') : s'.Watched := by
  cases event <;> simp only [State.step] at stepped
  case' go t =>
    unfold State.go at stepped
    cases place : (s.threads t).pc
  case' go.sendScan r rest => cases rest
  all_goals try simp only [place] at stepped
  -- the sender holds the mutex, so that nobody hands it off
  case go.sendPush r =>
    cases stepped
    exact .inl (inv.alone (token_pos_of_held (inv.sender (by rw [place]; rfl)))).2.1
  -- `lock` pushes its record before it reads the handoff
  case go.lockPush => cases stepped; exact .inr (.inr ⟨t, .inl (by simp [State.set])⟩)
  -- `unlock` stores the handoff before it reads the queue
  case go.unlockStore waits =>
    cases stepped
    exact .inr (.inr ⟨t, .inr (by simp [State.set, State.setPc])⟩)
  all_goals repeat' split at stepped
  all_goals cases stepped
  all_goals try exact .inl rfl
  all_goals
    obtain zero | empty | ⟨u, looks⟩ := watched
    · exact .inl zero
    · exact .inr (.inl (by simp_all [State.set, State.setPc]))
    · refine or_iff_not_imp_left.2 fun handed => or_iff_not_imp_left.2 fun queued => ⟨u, ?_⟩
      simp only [State.set, State.setPc, Function.update_apply] at handed queued ⊢
      grind [State.cleared.eq_def, Pc.number, Pc.after]

/-- **No wake-up is lost.**  While `count` is not zero, exactly one thread has the right to take
the mutex or to wake the next one, unless the mutex is handed off; then no record is queued, or a
thread will still look.  A record is in the queue or in the hands of a waker as often as its thread
waits for it. -/
theorem reachedAllowed_noLostWake (s : State κ) (reached : s.ReachedAllowed) :
    tally token s.threads + nonzero s.handoff = nonzero s.count ∧ s.Watched ∧
      ∀ o, s.queue.count o + tally (carriesOne o) s.threads =
        (s.threads o.thread).wants o.kind + tally (owesOne o) s.threads := by
  have both := Reachable.invariant (I := fun s => Inv s ∧ s.Watched)
    (fun _ start => ⟨.initial start, .inl start.2.2.2.1⟩)
    (fun _ _ _ ⟨inv, watched⟩ ⟨_, allowed, stepped⟩ =>
      ⟨inv.step allowed stepped, inv.watched watched stepped⟩) reached
  exact ⟨both.1.accounts.token, both.2, both.1.accounts.records⟩

end Invariant

end Runs

/-! ## Two threads -/

def twoIdle : State Bool where
  count := 0
  depth := 0
  owner := none
  queue := []
  handoff := 0
  sequence := 0
  threads := fun _ => ⟨.idle, 0, .running, false, false, false, false⟩
  refused := 0

/-- The thread `false` takes the mutex and waits; the thread `true` then holds it. -/
def waitBegun : List (Event Bool) :=
  [.lock false, .go false, .go false, .wait false, .go false, .go false, .go false,
    .lock true, .go true, .go true]

theorem sentLock_lockWord : ∃ s : State Bool, s.ReachedAllowed ∧
    (s.threads true).pc = .sent false ∧ s.queue.count ⟨false, .waiter⟩ = 1 := by
  have start : twoIdle.ReachedAllowed :=
    .start ⟨rfl, rfl, rfl, rfl, rfl, fun _ => ⟨rfl, rfl, rfl, rfl, rfl⟩⟩
  have begun := start.freeEvents waitBegun (by simp [waitBegun, State.Allowed]) rfl
  have chosen : State.ReachedAllowed _ := begun.next ⟨.wakeLock true false, fun _ => ⟨rfl, by decide⟩, rfl⟩
  have sent := chosen.freeEvents [.go true, .go true, .go true] (by simp [State.Allowed]) rfl
  exact ⟨_, sent, rfl, (reachedAllowed_lockWord _ sent).2.2.1 true false rfl⟩

theorem handedOff_noLostWake : ∃ s : State Bool, s.ReachedAllowed ∧ s.handoff = 1 ∧
    s.queue = [⟨true, .locker⟩] ∧ s.Watched := by
  have start : twoIdle.ReachedAllowed :=
    .start ⟨rfl, rfl, rfl, rfl, rfl, fun _ => ⟨rfl, rfl, rfl, rfl, rfl⟩⟩
  have passed := start.freeEvents [.lock false, .go false, .go false, .lock true, .go true,
    .unlock false, .go false, .go false, .go false, .go false, .go false, .go true, .go true]
    (by simp [State.Allowed]) rfl
  exact ⟨_, passed, rfl, rfl, (reachedAllowed_noLostWake _ passed).2.1⟩

/-- A timer wakes the waiting thread, which goes to sleep in `lock`; the holder sends it the lock in
vain; then both leave the mutex. -/
def sentInVain : List (Event Bool) :=
  [.wake false, .go false, .go false, .go false, .go false, .go false, .go false,
    .wakeLock true false, .go true, .go true, .go true, .go true,
    .unlock true, .go true, .go true, .go true, .go true, .go true, .go true,
    .go false, .go false, .unlock false, .go false, .go false, .go false, .go false, .go false,
    .go false]

/-- **A leaked count.**  The call has returned false, nobody holds or wants the mutex, and `count`
is one. -/
theorem leaked_count : ∃ s : State Bool,
    (waitBegun ++ sentInVain).foldlM State.step twoIdle = some s ∧
    (∀ t, (s.threads t).pc = .idle ∧ (s.threads t).held = 0 ∧ (s.threads t).lockSent = false) ∧
    s.queue = [] ∧ s.refused = 1 ∧ s.count = 1 :=
  ⟨_, rfl, by decide, rfl, rfl, rfl⟩

end MiniOsv.Sync.LfMutex
