/-
# Sync.LfMutexSteps -- each step of the mutex keeps the accounts

One lemma for each step of `lock`, `try_lock`, `unlock`, `send_lock_unless_already_waiting` and
`wake_lock`.  The step that matters is `Inv.unqueued`: a thread to which the lock is being sent
sleeps in its wait, so it has no record in the queue and the scan does not find it.
-/
import MiniOsv.Sync.LfMutexInvariant

namespace MiniOsv.Sync.LfMutex

open Theory State Thread Function

set_option linter.unusedSectionVars false

section Runs

variable {κ : Type} [DecidableEq κ]

section Invariant

variable [Fintype κ] {s s' : State κ}

/-! ## Steps that several places take -/

section General

variable {t r : κ}

/-- The holder takes its one from the lock word. -/
theorem Inv.giveBack (inv : Inv s) {waits : Bool}
    (place : (s.threads t).pc = .unlockSub waits) (pc : Pc κ) (share : pc.share = 0)
    (queued : pc.queued = false) (carries : pc.carries = none) (owes : pc.owes = none)
    (token : pc.token = nonzero (s.count - 1)) (holds : pc.holds = false)
    (number : pc.number = none) (same : pc.waits = waits) (quiet : pc.Quiet) :
    Inv ({ s with count := s.count - 1 }.set t
      { s.threads t with held := (s.threads t).held - 1, pc := pc }) := by
  have ok := inv.places.ok t
  have held := ok.held (by rw [place]; rfl)
  have some := (inv.alone (token_pos_of_held held)).1
  have unowned : s.owner ≠ .some t := inv.places.released t waits place
  have here : (s.threads t).pc.share = 0 ∧ (s.threads t).pc.token = 0 ∧
      (s.threads t).pc.queued = false ∧ (s.threads t).pc.carries = none ∧
      (s.threads t).pc.owes = none := by
    rw [place]
    exact ⟨rfl, rfl, rfl, rfl, rfl⟩
  constructor
  · refine inv.accounts.own t _ rfl ?_ ?_ fun o => ?_
    · simp only [State.set, Thread.share, here, share]
      omega
    · simp only [State.set, Thread.token, here, queued, token, nonzero_of_ne some]
      omega
    · cases kind : o.kind <;> simp [State.set, Thread.carriesOne, Thread.owesOne, Thread.wants,
        here, queued, carries, owes]
  · refine inv.places.own t _ rfl (ok.move place _ _ (by simp [holds])
      ⟨by simp [number], same.trans, by simp, ?_⟩) (fun owned => absurd owned unowned)
      (fun _ _ _ _ fit => fit.same rfl rfl rfl rfl) (fun _ _ => id)
      ⟨by simp [carries], by simp [quiet.acts], ?_⟩ rfl
    · rintro r rfl
      simpa [Pc.special] using quiet.plain
    · rintro r rest atScan
      simp only at atScan
      subst atScan
      simpa [Pc.special] using quiet.plain

theorem Inv.sender (inv : Inv s) (acting : (s.threads t).pc.acts = some (r, .send)) :
    0 < (s.threads t).held := by
  refine (inv.places.ok t).held ?_
  cases found : (s.threads t).pc <;> simp [found, Pc.acts] at acting
  all_goals rfl

/-- The thread to which the lock is being sent has no record in the queue. -/
theorem Inv.unqueued (inv : Inv s) (place : (s.threads t).pc = .sendAdd r) :
    ∀ x ∈ s.queue, x.thread ≠ r := by
  have acting : (s.threads t).pc.acts = some (r, .send) := by rw [place]; rfl
  obtain ⟨-, sending, unsent, -, -⟩ := inv.places.acts t r .send acting
  have right := token_pos_of_held (inv.sender acting)
  intro x mem same
  have wanted := inv.wanted (o := x) right (by rw [place]; rfl)
    (Nat.add_pos_left (List.count_pos_iff.2 mem) _)
  rw [same] at wanted
  cases kind : x.kind with
  | locker =>
    -- it waits for no mutex, as it sleeps in the wait
    have waits := (inv.places.ok r).sending sending
    have queued : (s.threads r).pc.queued = true := by
      by_contra out
      rw [Bool.not_eq_true] at out
      simp [kind, wants, out] at wanted
    cases found : (s.threads r).pc <;> simp [found, Pc.waits, Pc.queued] at waits queued
  | waiter => simp [kind, wants, unsent] at wanted

theorem Inv.sending (inv : Inv s) {here : Pc κ} (place : (s.threads t).pc = here)
    (acting : here.acts = some (r, .send)) (pc : Pc κ)
    (threads : s'.threads = update s.threads t { s.threads t with pc := pc })
    (acts : pc.acts = here.acts)
    (owner : s'.owner = s.owner) (refused : s'.refused = s.refused) (number : pc.number = none)
    (carries : pc.carries = none) (active : here.waits = false) (awake : here ≠ .lockWait)
    (accepted : ∀ r, pc ≠ .refuse r) (released : ∀ waits, pc ≠ .unlockSub waits)
    (scans : ∀ u rest, pc = .sendScan u rest → ∀ x ∈ rest, x.thread ≠ u) : Places s' := by
  subst place
  have held := inv.sender acting
  exact inv.places.own t _ threads ((inv.places.ok t).move rfl _ pc (fun _ => held)
      ⟨by simp [number], by simp [active], awake, accepted⟩) (fun _ => ⟨held, released⟩)
    (fun _ _ _ _ fit => fit.same rfl rfl rfl rfl) (fun u _ owned => owner ▸ owned)
    ⟨by simp [carries], fun u role mine => inv.places.acts t u role (acts ▸ mine), scans⟩ refused

/-- A thread goes on and changes the flags of another one. -/
theorem Places.act {s : State κ} (places : Places s) {t r : κ} (ne : r ≠ t) (pc : Pc κ)
    (b : Thread κ) (pcSame : b.pc = (s.threads r).pc) (heldSame : b.held = (s.threads r).held)
    (okMine : { s.threads t with pc := pc }.Ok) (okOther : b.Ok)
    (carries : pc.carries = none) (plain : pc.special = false)
    (acts : ∀ u role, pc.acts = some (u, role) → u = r ∧ role.Fits b)
    (fits : ∀ u role, u ≠ t → (s.threads u).pc.acts = some (r, role) →
      role.Fits (s.threads r) → role.Fits b) : Places ((s.setPc t pc).set r b) := by
  have mine : ((s.setPc t pc).set r b).threads t = { s.threads t with pc := pc } := by
    simp [State.setPc, State.set, update_of_ne ne.symm]
  have other : ((s.setPc t pc).set r b).threads r = b := update_self ..
  have rest : ∀ u, u ≠ r → u ≠ t → ((s.setPc t pc).set r b).threads u = s.threads u :=
    fun u out away => by simp [State.setPc, State.set, update_of_ne, out, away]
  -- the places of all threads but the one that moves are the same
  have pcs : ∀ u, u ≠ t → (((s.setPc t pc).set r b).threads u).pc = (s.threads u).pc :=
    fun u away => by
      by_cases at_r : u = r
      · rw [at_r, other, pcSame]
      · rw [rest u at_r away]
  have helds : ∀ u, (((s.setPc t pc).set r b).threads u).held = (s.threads u).held := fun u => by
    by_cases at_r : u = r
    · rw [at_r, other, heldSame]
    · by_cases away : u = t
      · rw [away, mine]
      · rw [rest u at_r away]
  refine ⟨fun u => ?_, fun u owned => (helds u).symm ▸ places.owner u owned,
    fun u waits atSub => ?_, fun u o has => ?_, fun u v role acting => ?_,
    fun u v list atScan => ?_, places.refused⟩
  all_goals obtain rfl | away := eq_or_ne u t
  · rwa [mine]
  · by_cases at_r : u = r
    · rwa [at_r, other]
    · rw [rest u at_r away]
      exact places.ok u
  · rw [mine] at atSub
    simp only at atSub
    simp [atSub, Pc.special] at plain
  · rw [pcs u away] at atSub
    exact places.released u waits atSub
  · rw [mine] at has
    simp [carries] at has
  · rw [pcs u away] at has
    exact places.carried u o has
  · rw [mine] at acting
    obtain ⟨rfl, fit⟩ := acts v role acting
    rw [other]
    exact ⟨ne, fit⟩
  · rw [pcs u away] at acting
    obtain ⟨apart, fit⟩ := places.acts u v role acting
    refine ⟨apart, ?_⟩
    by_cases at_r : v = r
    · subst at_r
      rw [other]
      exact fits u role away acting fit
    · by_cases at_t : v = t
      · rw [at_t, mine]
        exact (at_t ▸ fit : role.Fits (s.threads t)).same rfl rfl rfl rfl
      · rw [rest v at_r at_t]
        exact fit
  · rw [mine] at atScan
    simp only at atScan
    simp [atScan, Pc.special] at plain
  · rw [pcs u away] at atScan
    exact places.scans u v list atScan

/-- The accounts when a thread goes on and what another one counts for stays the same. -/
theorem Accounts.act (acc : Accounts s) {t r : κ} (ne : r ≠ t) {here : Pc κ}
    (place : (s.threads t).pc = here) (pc : Pc κ) (b : Thread κ) (queued : pc.queued = here.queued)
    (carries : pc.carries = here.carries) (owes : pc.owes = here.owes)
    (share : pc.share = here.share) (token : pc.token = here.token)
    (pcSame : b.pc = (s.threads r).pc) (shares : b.share = (s.threads r).share)
    (tokens : b.token = (s.threads r).token)
    (wants : ∀ kind, b.wants kind = (s.threads r).wants kind) :
    Accounts ((s.setPc t pc).set r b) := by
  subst place
  refine acc.both ne _ b rfl ?_ ?_ rfl (fun o => ?_) (fun kind => Thread.wants_pc _ queued kind)
    fun o => ?_
  · rw [shares]
    simp only [State.setPc, State.set, Thread.share, share]
  · rw [tokens]
    simp only [State.setPc, State.set, Thread.token, token, queued]
  · simp only [Thread.carriesOne, Thread.owesOne, pcSame, and_self]
  · simp only [Thread.carriesOne, Thread.owesOne, carries, owes, wants]

theorem Thread.cleared_share (th : Thread κ) (kind : Kind) :
    (cleared kind th).share = th.share := by
  cases kind <;> rfl

variable {th : Thread κ} {kind : Kind}

theorem Thread.cleared_token (wanted : th.wants kind = 1) :
    (cleared kind th).token = th.token + 1 := by
  cases kind with
  | locker =>
    have : (th.pc.queued && !th.lockerWoken) = true := by simpa [wants, bit] using wanted
    obtain ⟨queued, unwoken⟩ : th.pc.queued = true ∧ th.lockerWoken = false := by simpa using this
    simp only [token, cleared, queued, unwoken, Bool.and_true, Bool.and_false, bit_true, bit_false]
    omega
  | waiter =>
    have : (th.lockSent && !th.waiterWoken) = true := by simpa [wants, bit] using wanted
    obtain ⟨sent, unwoken⟩ : th.lockSent = true ∧ th.waiterWoken = false := by simpa using this
    simp only [token, cleared, sent, unwoken, Bool.and_true, Bool.and_false, bit_true, bit_false]

theorem Thread.cleared_wants (wanted : th.wants kind = 1) (k : Kind) :
    th.wants k = (cleared kind th).wants k + if kind = k then 1 else 0 := by
  cases kind <;> cases k <;> simp [cleared, wants] at wanted ⊢ <;> exact wanted

theorem Thread.sent_of_wants (wanted : th.wants .waiter = 1) : th.lockSent = true := by
  by_contra unsent
  rw [Bool.not_eq_true] at unsent
  simp [wants, unsent] at wanted

theorem Thread.Ok.cleared (ok : th.Ok) (wanted : th.wants kind = 1) : (cleared kind th).Ok := by
  cases kind with
  | locker => exact ⟨ok.held, ok.number, ok.waiting, ok.sending, ok.sent, ok.armed, ok.accepted⟩
  | waiter =>
    obtain ⟨waits, unarmed, -⟩ := ok.sent (sent_of_wants wanted)
    exact ⟨ok.held, ok.number, ok.waiting, ok.sending, fun _ => ⟨waits, unarmed, by simp [cleared]⟩,
      fun armed => absurd (unarmed.symm.trans armed) (by simp), ok.accepted⟩

theorem Role.Fits.cleared {role : Role} (fits : role.Fits th)
    (wanted : th.wants kind = 1) : role.Fits (cleared kind th) := by
  cases kind with
  | locker => exact fits.same rfl rfl rfl rfl
  | waiter =>
    have sent := sent_of_wants wanted
    cases role with
    | send => exact absurd (fits.2.1.symm.trans sent) (by simp)
    | clear => exact absurd (fits.1.symm.trans sent) (by simp)
    | resume => exact fun _ => rfl

/-- The thread of a cleared record may be woken, even if the lock was sent to it. -/
theorem Thread.Ok.resumed (ok : th.Ok) (wanted : th.wants kind = 1) :
    Role.resume.Fits (State.cleared kind th) := by
  cases kind with
  | locker =>
    intro (sending : th.status = .sendingLock)
    have waits := ok.sending sending
    have queued : th.pc.queued = true := by
      by_contra out
      rw [Bool.not_eq_true] at out
      simp [wants, out] at wanted
    cases found : th.pc <;> simp [found, Pc.waits, Pc.queued] at waits queued
  | waiter => exact fun _ => rfl

/-- A record is cleared: the right to go on passes to its thread. -/
theorem Inv.clearRecord (inv : Inv s) {t : κ} {here : Pc κ} (place : (s.threads t).pc = here)
    {other : Record κ} (carries : here.carries = some other) (pc : Pc κ)
    (carried : pc.carries = none) (queued : pc.queued = here.queued)
    (owes : here.owes = none ∧ pc.owes = none) (share : pc.share = here.share)
    (token : here.token = 1 ∧ pc.token = 0) (holds : pc.holds = false) (number : pc.number = none)
    (waits : here.waits = pc.waits) (awake : here ≠ .lockWait)
    (acts : pc.acts = some (other.thread, .resume)) (plain : pc.special = false) :
    Inv ((s.setPc t pc).set other.thread (cleared other.kind (s.threads other.thread))) := by
  subst place
  have right : 0 < (s.threads t).token := by
    simp only [Thread.token, token.1]
    omega
  have ne : other.thread ≠ t := inv.places.carried t other carries
  have present : 0 < tally (Thread.carriesOne other) s.threads := by
    have := le_tally (carriesOne other) s.threads t
    simp only [carriesOne, carries, if_true] at this
    exact this
  have wanted := inv.wanted right owes.1 (Nat.add_pos_right _ present)
  have ok := inv.places.ok other.thread
  constructor
  · refine inv.accounts.both ne _ _ rfl ?_ ?_ rfl (fun o => ?_)
      (fun kind => Thread.wants_pc _ queued kind) fun o => ?_
    · simp only [State.setPc, State.set, Thread.cleared_share]
      simp only [Thread.share, share]
    · rw [Thread.cleared_token wanted]
      simp only [State.setPc, State.set]
      simp only [Thread.token, queued, token]
      omega
    · cases other.kind <;> exact ⟨rfl, rfl⟩
    · simp only [Thread.carriesOne, Thread.owesOne, carries, carried, owes, Option.some.injEq,
        reduceCtorEq, if_false]
      by_cases same : o.thread = other.thread
      · have split := cleared_wants wanted o.kind
        have record : other = o ↔ other.kind = o.kind :=
          ⟨fun eq => eq ▸ rfl, fun kind => by cases o; cases other; simp_all⟩
        simp only [same, if_true, record]
        omega
      · have : other ≠ o := fun eq => same (eq ▸ rfl)
        simp [same, this]
  · refine inv.places.act ne pc _ ?_ ?_ ((inv.places.ok t).move rfl _ pc (by simp [holds])
      ⟨by simp [number], by simp [waits], awake, ?_⟩) ?_ carried plain
      (fun u role acting => ?_) fun u role _ _ fit => ?_
    · cases other.kind <;> rfl
    · cases other.kind <;> rfl
    · rintro r rfl
      simp [Pc.special] at plain
    · exact ok.cleared wanted
    · rw [acts, Option.some.injEq, Prod.mk.injEq] at acting
      obtain ⟨rfl, rfl⟩ := acting
      exact ⟨rfl, ok.resumed wanted⟩
    · exact fit.cleared wanted

theorem Inv.resume (inv : Inv s) {t r : κ} {here : Pc κ} (place : (s.threads t).pc = here)
    (acting : here.acts = some (r, .resume)) (pc : Pc κ) (queued : pc.queued = here.queued)
    (carries : pc.carries = none ∧ here.carries = none) (owes : pc.owes = here.owes)
    (share : pc.share = here.share) (token : pc.token = here.token) (holds : pc.holds = false)
    (number : pc.number = none) (waits : here.waits = pc.waits) (awake : here ≠ .lockWait)
    (acts : pc.acts = none) (plain : pc.special = false) :
    Inv ((s.setPc t pc).set r { s.threads r with status := .running }) := by
  subst place
  obtain ⟨ne, woken⟩ := inv.places.acts t r .resume acting
  have ok := inv.places.ok r
  constructor
  · exact inv.accounts.act ne rfl pc _ queued (carries.1.trans carries.2.symm) owes share token rfl
      rfl rfl fun _ => rfl
  · refine inv.places.act ne pc _ rfl rfl ((inv.places.ok t).move rfl _ pc (by simp [holds])
      ⟨by simp [number], by simp [waits], awake, ?_⟩)
      ⟨ok.held, ok.number, by simp, by simp, fun sent => ?_, ok.armed, ok.accepted⟩ carries.1 plain
      (by simp [acts]) fun u role _ _ fit => ?_
    · rintro r rfl
      simp [Pc.special] at plain
    · obtain ⟨active, unarmed, asleep⟩ := ok.sent sent
      refine ⟨active, unarmed, fun (unwoken : (s.threads r).waiterWoken = false) => ?_⟩
      exact absurd (unwoken.symm.trans (woken (asleep unwoken))) (by simp)
    · cases role with
      | send => exact absurd (fit.2.2.1.symm.trans (woken fit.1)) (by simp)
      | clear => exact fit
      | resume => simp [Role.Fits]

end General

attribute [simp] State.set State.setPc Pc.queued Pc.share Pc.token Pc.holds Pc.carries Pc.owes
  Pc.number Pc.special Pc.acts Pc.waits Role.Fits share token wants
  carriesOne owesOne Pc.follows_iff

/-! ## The steps of one thread -/

section Lock

variable {t : κ}

section

variable (inv : Inv s)

include inv

theorem Inv.lockAdd (place : (s.threads t).pc = .lockAdd) :
    Inv ({ s with count := s.count + 1 }.setPc t
      (if s.count = 0 then .lockOwn else .lockCheck)) := by
  have nonneg := inv.count_nonneg
  have after : nonzero (s.count + 1) = 1 := nonzero_of_ne (by omega)
  split
  case isTrue zero =>
    refine inv.turn place .lockOwn ?_ ?_ (by simp) (by simp) rfl rfl rfl rfl
    · simp
    · simp only [State.setPc, State.set, Pc.token, after]
      simp [zero]; omega
  case isFalse some =>
    refine inv.turn place .lockCheck ?_ ?_ (by simp) (by simp) rfl rfl rfl rfl
    · simp
    · simp [after, nonzero_of_ne some]

theorem Inv.lockOwn (place : (s.threads t).pc = .lockOwn) :
    Inv ({ s with owner := some t, depth := 1 }.set t
      { s.threads t with held := (s.threads t).held + 1, pc := .idle }) := by
  have ok := inv.places.ok t
  constructor
  · refine inv.accounts.own t _ rfl ?_ ?_ fun o => ?_
    · simp [place]
    · simp [place]
    · cases kind : o.kind <;>
        simp [place]
  · exact inv.places.own t _ rfl (ok.move place _ _ (by simp) (by simp))
      (fun _ => ⟨Nat.succ_pos _, by simp⟩) (fun _ _ _ _ fit => fit.same rfl rfl rfl rfl)
      (fun u ne owned => absurd (Option.some.inj owned).symm ne) (by simp) rfl

theorem Inv.lockCheck (place : (s.threads t).pc = .lockCheck) :
    Inv (s.setPc t (if s.owner = some t then .lockUndo else .lockPush)) := by
  split
  case isTrue owned =>
    exact inv.move place .lockUndo s.depth ⟨.inr (inv.places.owner t owned), by simp⟩
  case isFalse =>
    exact inv.move place .lockPush s.depth (by simp)

theorem Inv.lockUndo (place : (s.threads t).pc = .lockUndo) :
    Inv ({ s with count := s.count - 1, depth := s.depth + 1 }.setPc t .idle) := by
  -- the caller holds the mutex besides, so one is left
  have held := (inv.places.ok t).held (by rw [place]; rfl)
  have total := inv.accounts.balance
  have mine := le_tally share s.threads t
  simp only [share, place, Pc.share] at mine
  refine inv.turn place .idle ?_ ?_ (by simp) (by simp) rfl rfl rfl rfl
  · simp
  · have before : nonzero s.count = 1 := nonzero_of_ne (by omega)
    have after : nonzero (s.count - 1) = 1 := nonzero_of_ne (by omega)
    simp [before, after]

theorem Inv.lockPush (place : (s.threads t).pc = .lockPush) :
    Inv ({ s with queue := s.queue ++ [(⟨t, .locker⟩ : Record κ)] }.set t
      { s.threads t with lockerWoken := false, pc := .lockHandoff }) := by
  have ok := inv.places.ok t
  constructor
  · refine inv.accounts.own t _ rfl ?_ ?_ fun o => ?_
    · simp [place]
    · simp [place]
    · obtain ⟨r, kind⟩ := o
      simp only [State.set, count_push, Record.mk.injEq, eq_comm (a := t)]
      by_cases mine : r = t <;> cases kind <;>
        simp [place, mine]
  · have moved := ok.move place (s.threads t).held .lockHandoff (by simp) (by simp)
    exact inv.places.own t _ rfl { moved with }
      (fun owned => ⟨inv.places.owner t owned, by simp⟩)
      (fun _ _ _ _ fit => fit.same rfl rfl rfl rfl) (fun _ _ => id) (by simp) rfl

theorem Inv.lockHandoff (place : (s.threads t).pc = .lockHandoff) :
    Inv (s.setPc t (if s.handoff = 0 then .lockWait else .lockEmpty s.handoff)) := by
  split
  case isTrue =>
    exact inv.move place .lockWait s.depth (by simp)
  case isFalse handed =>
    exact inv.move place (.lockEmpty s.handoff) s.depth (by simpa using handed)

theorem Inv.lockEmpty {old : ℕ} (place : (s.threads t).pc = .lockEmpty old) :
    Inv (s.setPc t (if s.queue = [] then .lockWait else .lockCas old)) := by
  have number := (inv.places.ok t).number
  rw [place] at number
  split
  case isTrue =>
    exact inv.move place .lockWait s.depth (by simp)
  case isFalse =>
    exact inv.move place (.lockCas old) s.depth (by simpa using number)

theorem Inv.lockCas {old : ℕ} (place : (s.threads t).pc = .lockCas old) :
    Inv (if s.handoff = old then { s with handoff := 0 }.setPc t .lockPop
      else s.setPc t .lockWait) := by
  split
  case isTrue same =>
    exact inv.takeHandoff place (same ▸ rfl) .lockPop rfl rfl rfl (by simp)
  case isFalse =>
    exact inv.move place .lockWait s.depth (by simp)

theorem Inv.lockPop (place : (s.threads t).pc = .lockPop)
    {other : Record κ} {rest : List (Record κ)} (queue : s.queue = other :: rest)
    (ne : other.thread ≠ t) : Inv ({ s with queue := rest }.setPc t (.lockWake other)) :=
  inv.pop place queue _ ⟨rfl, rfl⟩ ne rfl rfl rfl rfl rfl rfl rfl (by simp) ⟨rfl, rfl⟩

/-- A thread in `lock` pops its own record and has the mutex. -/
theorem Inv.lockPopOwn (place : (s.threads t).pc = .lockPop) {rest : List (Record κ)}
    (queue : s.queue = ⟨t, .locker⟩ :: rest) : Inv ({ s with queue := rest }.setPc t .lockOwn) := by
  have right : 0 < (s.threads t).token := by
    simp only [token, place, Pc.token]
    omega
  have wanted := inv.wanted (o := ⟨t, .locker⟩) right (by rw [place]; rfl) (by
    rw [queue, count_pop, if_pos rfl]
    omega)
  have unwoken : (s.threads t).lockerWoken = false := by
    simpa [place, bit] using wanted
  constructor
  · refine inv.accounts.own t _ rfl ?_ ?_ fun o => ?_
    · simp [place]
    · simp [place, unwoken]
    · obtain ⟨r, kind⟩ := o
      rw [queue, count_pop]
      simp only [State.setPc, State.set, Record.mk.injEq, eq_comm (a := t)]
      by_cases mine : r = t <;> cases kind <;>
        simp [place, mine, unwoken]
  · exact inv.places.turn place _ rfl (fun _ owned => owned) rfl (.inl rfl) (by simp)
      (.inl rfl) (by simp) (by simp) ⟨rfl, rfl⟩

theorem Inv.lockWaitWoken (place : (s.threads t).pc = .lockWait)
    (awake : (s.threads t).status ≠ .sendingLock) (woken : (s.threads t).lockerWoken = true) :
    Inv (s.set t { s.threads t with status := .running, pc := .lockOwn }) := by
  have unsent := (inv.places.ok t).unsent (by rw [place]; rfl)
  have armed := (inv.places.ok t).armed
  constructor
  · refine inv.accounts.own t _ rfl ?_ ?_ fun o => ?_
    · simp [place]
    · simp [place, woken]
    · obtain ⟨r, kind⟩ := o
      cases kind <;> simp [place, woken]
  · refine inv.places.own t _ rfl ⟨by simp, by simp, by simp, by simp,
      by simp [unsent], armed, by simp⟩ (fun owned => ⟨inv.places.owner t owned, by simp⟩)
      (fun u role _ _ fit => ?_) (fun _ _ => id) (by simp) rfl
    cases role with
    | send => exact absurd fit.1 awake
    | clear => exact fit
    | resume => simp

theorem Inv.lockWaitSleep (place : (s.threads t).pc = .lockWait)
    (running : (s.threads t).status = .running) :
    Inv (s.set t { s.threads t with status := .waiting }) := by
  have unsent := (inv.places.ok t).unsent (by rw [place]; rfl)
  have ok := inv.places.ok t
  constructor
  · exact inv.accounts.own t _ rfl rfl rfl fun o => rfl
  · refine inv.places.own t _ rfl ⟨ok.held, ok.number, fun _ => .inr place, by simp,
      by simp [unsent], ok.armed, ok.accepted⟩
      (fun owned => ⟨inv.places.owner t owned, by simp [place]⟩) (fun u role _ _ fit => ?_)
      (fun _ _ => id) ⟨inv.places.carried t, by simp [place], by simp [place]⟩ rfl
    cases role with
    | send => exact absurd (running.symm.trans fit.1) (by simp)
    | clear => exact fit
    | resume => simp

end

end Lock

section TryLock

theorem Inv.tryCas (inv : Inv s) {t : κ} (place : (s.threads t).pc = .tryCas)
    (zero : s.count = 0) : Inv ({ s with count := 1 }.setPc t .lockOwn) := by
  refine inv.turn place .lockOwn ?_ ?_ (by simp) (by simp) rfl rfl rfl rfl
  · simp [zero]
  · have after : nonzero (1 : ℤ) = 1 := nonzero_of_ne one_ne_zero
    simp only [State.setPc, State.set, Pc.token, zero, nonzero_zero, after]
    omega

theorem Inv.tryTake (inv : Inv s) {t : κ} {old : ℕ} (place : (s.threads t).pc = .tryTake old)
    (same : s.handoff = old) : Inv ({ s with handoff := 0 }.setPc t .tryAdd) :=
  inv.takeHandoff place (same ▸ rfl) .tryAdd rfl rfl rfl (by simp)

theorem Inv.tryAdd (inv : Inv s) {t : κ} (place : (s.threads t).pc = .tryAdd) :
    Inv ({ s with count := s.count + 1 }.setPc t .lockOwn) := by
  have some := (inv.alone (t := t) (by simp only [token, place, Pc.token]; omega)).1
  have nonneg := inv.count_nonneg
  refine inv.turn place .lockOwn ?_ ?_ (by simp) (by simp) rfl rfl rfl rfl
  · simp
  · have after : nonzero (s.count + 1) = 1 := nonzero_of_ne (by omega)
    simp [after, nonzero_of_ne some]

end TryLock

section Unlock

variable {waits : Bool} {t : κ}

section

variable (inv : Inv s)

include inv

theorem Inv.leave {here : Pc κ} (place : (s.threads t).pc = here) (unqueued : here.queued = false)
    (carries : here.carries = none) (owes : here.owes = none) (share : here.share = 0)
    (token : here.token = 0) (same : here.waits = waits) (awake : here ≠ .lockWait) (depth : ℕ) :
    Inv ({ s with depth := depth }.setPc t (.after waits)) := by
  cases waits with
  | false =>
    exact inv.move place .idle depth ⟨.inl rfl, ⟨by simp, rfl, rfl, unqueued.symm, carries.symm,
      owes.symm, .inl same, awake⟩, share.symm, token.symm⟩
  | true =>
    exact inv.move place .sleep depth ⟨.inl rfl, ⟨by simp, rfl, rfl, unqueued.symm, carries.symm,
      owes.symm, .inr same, awake⟩, share.symm, token.symm⟩

theorem Inv.unlockDepth (place : (s.threads t).pc = .unlockDepth waits) :
    Inv ({ s with depth := s.depth - 1 }.setPc t
      (if s.depth - 1 ≠ 0 then .after waits else .unlockOwner waits)) := by
  split
  case isTrue => exact inv.leave place rfl rfl rfl rfl rfl rfl (by simp) _
  case isFalse =>
    exact inv.move place (.unlockOwner waits) _
      ⟨.inr ((inv.places.ok t).held (by rw [place]; rfl)), by simp⟩

theorem Inv.unlockOwner (place : (s.threads t).pc = .unlockOwner waits) :
    Inv ({ s with owner := none }.setPc t (.unlockSub waits)) := by
  have ok := inv.places.ok t
  have held := ok.held (by rw [place]; rfl)
  refine ⟨inv.accounts.turn place _ rfl rfl rfl rfl rfl rfl rfl, inv.places.own t _ rfl
    (ok.move place _ _ (fun _ => held) (by simp)) ?_ (fun _ _ _ _ fit => fit.same rfl rfl rfl rfl) ?_
    (by simp) rfl⟩
  · intro owned
    cases owned
  · intro u _ owned
    cases owned

theorem Inv.unlockSub (place : (s.threads t).pc = .unlockSub waits) :
    Inv ({ s with count := s.count - 1 }.set t
      { s.threads t with held := (s.threads t).held - 1,
                         pc := if s.count = 1 then .after waits else .unlockPop waits }) := by
  split
  case isTrue one =>
    have after : nonzero (s.count - 1) = 0 := by simp [one]
    cases waits <;>
      exact inv.giveBack place _ rfl rfl rfl rfl after.symm rfl rfl rfl ⟨rfl, rfl⟩
  case isFalse more =>
    have after : nonzero (s.count - 1) = 1 := nonzero_of_ne (by omega)
    exact inv.giveBack place _ rfl rfl rfl rfl after.symm rfl rfl rfl ⟨rfl, rfl⟩

theorem Inv.unlockStore (place : (s.threads t).pc = .unlockStore waits) :
    Inv ({ s with sequence := bump s.sequence, handoff := bump s.sequence }.setPc t
      (.unlockEmpty waits (bump s.sequence))) := by
  have picked : bump s.sequence ≠ 0 := by
    unfold bump
    split <;> omega
  have free := (inv.alone (t := t) (by simp only [token, place, Pc.token]; omega)).2.1
  refine inv.turn place (.unlockEmpty waits (bump s.sequence)) rfl ?_ (.inl rfl)
    (by simpa using picked) rfl rfl rfl rfl
  simp only [State.setPc, State.set, Pc.token, free, nonzero_zero, nonzero_of_ne picked]

theorem Inv.unlockEmpty {ours : ℕ} (place : (s.threads t).pc = .unlockEmpty waits ours) :
    Inv (s.setPc t (if s.queue = [] then .after waits else .unlockCas waits ours)) := by
  have number := (inv.places.ok t).number
  rw [place] at number
  split
  case isTrue => exact inv.leave place rfl rfl rfl rfl rfl rfl (by simp) s.depth
  case isFalse =>
    exact inv.move place (.unlockCas waits ours) s.depth (by simpa using number)

theorem Inv.unlockCas {ours : ℕ} (place : (s.threads t).pc = .unlockCas waits ours)
    (same : s.handoff = ours) : Inv ({ s with handoff := 0 }.setPc t (.unlockPop waits)) :=
  inv.takeHandoff place (same ▸ rfl) _ rfl rfl rfl (by simp)

/-- A thread to which the lock was sent wakes up and has it. -/
theorem Inv.receive (place : (s.threads t).pc = .sleep)
    (running : (s.threads t).status = .running) (sent : (s.threads t).lockSent = true) :
    Inv ({ s with owner := some t, depth := 1 }.set t
      { s.threads t with lockSent := false, held := (s.threads t).held + 1, pc := .idle }) := by
  have ok := inv.places.ok t
  have woken : (s.threads t).waiterWoken = true := by
    by_contra unwoken
    have := (ok.sent sent).2.2 (by simpa using unwoken)
    simp [running] at this
  constructor
  · refine inv.accounts.own t _ rfl ?_ ?_ fun o => ?_
    · simp [place, sent]
    · simp [place, sent, woken]
    · cases kind : o.kind <;> simp [place, sent, woken]
  · refine inv.places.own t _ rfl ⟨by simp, by simp, by simp [running], by simp [running],
      by simp, ok.armed, by simp⟩ (fun _ => ⟨Nat.succ_pos _, by simp⟩) (fun u role _ _ fit => ?_)
      (fun u ne owned => absurd (Option.some.inj owned).symm ne) (by simp) rfl
    cases role with
    | send => exact absurd (running.symm.trans fit.1) (by simp)
    | clear => exact ⟨rfl, fit.2⟩
    | resume => simp [running]

end

end Unlock

section SendLock

variable {t r : κ}

theorem Inv.sendAdd (inv : Inv s) (place : (s.threads t).pc = .sendAdd r) :
    Inv ({ s with count := s.count + 1 }.setPc t (.sendScan r s.queue)) := by
  have held := inv.sender (r := r) (by rw [place]; rfl)
  have some := (inv.alone (token_pos_of_held held)).1
  have nonneg := inv.count_nonneg
  constructor
  · refine inv.accounts.turn place _ rfl rfl rfl rfl rfl ?_ ?_
    · simp
    · have after : nonzero (s.count + 1) = 1 := nonzero_of_ne (by omega)
      simp [after, nonzero_of_ne some]
  · refine inv.sending place rfl _ rfl rfl rfl rfl rfl rfl rfl (by simp) (by simp) (by simp)
      fun u rest scan => ?_
    obtain ⟨rfl, rfl⟩ := Pc.sendScan.inj scan
    exact inv.unqueued place

/-- The scan passes a record of another thread. -/
theorem Inv.sendScan (inv : Inv s) {x : Record κ} {rest : List (Record κ)}
    (place : (s.threads t).pc = .sendScan r (x :: rest)) : Inv (s.setPc t (.sendScan r rest)) := by
  have passed := inv.places.scans t r _ place
  refine ⟨inv.accounts.turn place _ rfl rfl rfl rfl rfl rfl rfl, inv.sending place rfl _ rfl rfl rfl
    rfl rfl rfl rfl (by simp) (by simp) (by simp) fun u list scan => ?_⟩
  obtain ⟨rfl, rfl⟩ := Pc.sendScan.inj scan
  exact fun y mem => passed y (List.mem_cons_of_mem _ mem)

theorem Inv.sendPush (inv : Inv s) (place : (s.threads t).pc = .sendPush r) :
    Inv ({ s with queue := s.queue ++ [(⟨r, .waiter⟩ : Record κ)] }.setPc t (.sent r)) := by
  constructor
  · refine inv.accounts.own t _ rfl ?_ ?_ fun o => ?_
    · simp [place]
    · simp [place]
    · have wants : ∀ kind, ({ s.threads t with pc := .sent r } : Thread κ).wants kind =
          (s.threads t).wants kind := wants_pc _ (by rw [place]; rfl)
      simp only [State.setPc, State.set, count_push, wants]
      simp [place]
  · exact inv.sending place rfl _ rfl rfl rfl rfl rfl rfl rfl (by simp) (by simp) (by simp)
      (by simp)

end SendLock

/-! ## Steps that change another thread -/

section Others

theorem Thread.Ok.unsent_of_armed {th : Thread κ} (ok : th.Ok) (armed : th.armed = true) :
    th.lockSent = false := by
  by_contra sent
  have := (ok.sent (by simpa using sent)).2.1
  simp [armed] at this

theorem Inv.sent (inv : Inv s) {t r : κ} (place : (s.threads t).pc = .sent r) :
    Inv ((s.setPc t .idle).set r { s.threads r with lockSent := true }) := by
  have acting : (s.threads t).pc.acts = some (r, .send) := by rw [place]; rfl
  obtain ⟨ne, sending, unsent, unwoken, unarmed⟩ := inv.places.acts t r .send acting
  have held := inv.sender acting
  have ok := inv.places.ok r
  constructor
  · refine inv.accounts.both ne _ _ rfl ?_ ?_ rfl (fun _ => ⟨rfl, rfl⟩)
      (fun kind => wants_pc _ (by rw [place]; rfl) kind) fun o => ?_
    · simp only [State.setPc, State.set, share, place, Pc.share, unsent, bit_true, bit_false]
      omega
    · simp [place, unsent, unwoken]
    · obtain ⟨u, kind⟩ := o
      by_cases same : u = r <;> cases kind <;>
        simp [place, unsent, unwoken, same, eq_comm (a := r)]
  · refine inv.places.act ne .idle _ rfl rfl ((inv.places.ok t).move place _ _ (by simp) (by simp))
      ⟨ok.held, ok.number, ok.waiting, ok.sending, fun _ => ⟨ok.sending sending, unarmed,
        fun _ => sending⟩, ok.armed, ok.accepted⟩ rfl rfl (by simp)
      fun u role away other fit => ?_
    obtain rfl := inv.only_resumed held away other
    exact absurd (unwoken.symm.trans (fit sending)) (by simp)

theorem Inv.clear (inv : Inv s) {t r : κ} (place : (s.threads t).pc = .clear r) :
    Inv ((s.setPc t .idle).set r { s.threads r with waiterWoken := true }) := by
  have acting : (s.threads t).pc.acts = some (r, .clear) := by rw [place]; rfl
  obtain ⟨ne, unsent, unarmed⟩ := inv.places.acts t r .clear acting
  have held := (inv.places.ok t).held (by rw [place]; rfl)
  have ok := inv.places.ok r
  constructor
  · refine inv.accounts.act ne place _ _ rfl rfl rfl rfl rfl rfl rfl (by simp [unsent]) fun kind => ?_
    cases kind <;> simp [unsent]
  · refine inv.places.act ne .idle _ rfl rfl ((inv.places.ok t).move place _ _ (by simp) (by simp))
      ⟨ok.held, ok.number, ok.waiting, ok.sending, by simp [unsent], by simp [unarmed],
        ok.accepted⟩ rfl rfl (by simp) fun u role away other fit => ?_
    obtain rfl := inv.only_resumed held away other
    exact fun _ => rfl

/-- `wake_lock` finds its thread waiting and starts to send it the lock. -/
theorem Inv.startSend (inv : Inv s) {t r : κ} (place : (s.threads t).pc = .idle)
    (held : 0 < (s.threads t).held) (ne : r ≠ t) (armed : (s.threads r).armed = true)
    (waits : (s.threads r).pc.waits = true) (settled : ∀ u, (s.threads u).pc.resumes ≠ some r) :
    Inv ((s.setPc t (.sendAdd r)).set r
      { s.threads r with armed := false, status := .sendingLock }) := by
  have ok := inv.places.ok r
  have unsent := ok.unsent_of_armed armed
  constructor
  · exact inv.accounts.act ne place _ _ rfl rfl rfl rfl rfl rfl rfl rfl fun _ => rfl
  · refine inv.places.act ne _ _ rfl rfl ((inv.places.ok t).move place _ _ (fun _ => held) (by simp))
      ⟨ok.held, ok.number, by simp, fun _ => waits, by simp [unsent], by simp, ok.accepted⟩ rfl rfl
      (fun u role mine => ?_) fun u role away other fit => ?_
    · cases mine
      exact ⟨rfl, rfl, unsent, ok.armed armed, rfl⟩
    · obtain rfl := inv.only_resumed held away other
      refine absurd ?_ (settled u)
      cases found : (s.threads u).pc <;> simp [found] at other
      all_goals simp [Pc.resumes, other]

theorem Inv.startClear (inv : Inv s) {t r : κ} (place : (s.threads t).pc = .idle)
    (held : 0 < (s.threads t).held) (ne : r ≠ t) (armed : (s.threads r).armed = true) :
    Inv ((s.setPc t (.clear r)).set r { s.threads r with armed := false }) := by
  have ok := inv.places.ok r
  have unsent := ok.unsent_of_armed armed
  constructor
  · exact inv.accounts.act ne place _ _ rfl rfl rfl rfl rfl rfl rfl rfl fun _ => rfl
  · refine inv.places.act ne _ _ rfl rfl ((inv.places.ok t).move place _ _ (fun _ => held) (by simp))
      ⟨ok.held, ok.number, ok.waiting, ok.sending, by simp [unsent], by simp, ok.accepted⟩ rfl rfl
      (fun u role mine => ?_) fun u role away other fit => ?_
    · cases mine
      exact ⟨rfl, unsent, rfl⟩
    · obtain rfl := inv.only_resumed held away other
      exact fit

end Others

end Invariant

end Runs

end MiniOsv.Sync.LfMutex
