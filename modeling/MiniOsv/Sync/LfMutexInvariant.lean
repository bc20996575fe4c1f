/-
# Sync.LfMutexInvariant -- what a step does to the accounts of the mutex

A step changes the thread that takes it (`Accounts.own`, `Places.own`) or that thread and one other
(`Accounts.both`).  Most steps only move a thread from one place to another (`Inv.turn`,
`Inv.move`), take the handoff (`Inv.takeHandoff`) or pop a record (`Inv.pop`).  `Inv.alone` says
that one thread has the right to go on, `Inv.wanted` that a record it finds is waited for.
-/
import MiniOsv.Sync.LfMutex

namespace MiniOsv.Sync.LfMutex

open Theory Thread
open Function

set_option linter.unusedSectionVars false

section Runs

variable {κ : Type} [DecidableEq κ]

/-! ## One thread -/

theorem Thread.Ok.move {th : Thread κ} (ok : th.Ok) {here : Pc κ} (place : th.pc = here) (n : ℕ)
    (pc : Pc κ) (held : pc.holds = true → 0 < n)
    (goes : pc.number ≠ some 0 ∧ (here.waits = true → pc.waits = true) ∧ here ≠ .lockWait ∧
      ∀ r, pc ≠ .refuse r) : { th with held := n, pc := pc }.Ok := by
  obtain ⟨number, waits, awake, accepted⟩ := goes
  exact {
    held, number, accepted
    waiting := fun waiting =>
      (ok.waiting waiting).imp (place ▸ waits) fun asleep => absurd (place ▸ asleep) awake
    sending := fun sending => waits (place ▸ ok.sending sending)
    sent := fun sent => ⟨waits (place ▸ (ok.sent sent).1), (ok.sent sent).2⟩
    armed := ok.armed }

theorem Thread.Ok.unsent {th : Thread κ} (ok : th.Ok) (active : th.pc.waits = false) :
    th.lockSent = false := by
  by_contra sent
  have := (ok.sent (by simpa using sent)).1
  simp [active] at this

theorem Thread.wants_le (th : Thread κ) (kind : Kind) : th.wants kind ≤ 1 := by
  cases kind <;> simp only [wants, bit] <;> split <;> omega

theorem count_push (queue : List (Record κ)) (x o : Record κ) :
    (queue ++ [x]).count o = queue.count o + if x = o then 1 else 0 := by
  simp [List.count_append, List.count_singleton]

theorem count_pop (rest : List (Record κ)) (x o : Record κ) :
    (x :: rest).count o = rest.count o + if x = o then 1 else 0 := by
  simp [List.count_cons]

/-! ## What a step does to the accounts -/

section Accounts

variable [Fintype κ] {s s' : State κ}

theorem Accounts.own (acc : Accounts s) (t : κ) (th : Thread κ)
    (threads : s'.threads = update s.threads t th)
    (balance : s'.count + (s.threads t).share = s.count + th.share)
    (token : th.token + nonzero s'.handoff + nonzero s.count =
      (s.threads t).token + nonzero s.handoff + nonzero s'.count)
    (records : ∀ o, s'.queue.count o + th.carriesOne o + (s.threads t).owesOne o +
        (if o.thread = t then (s.threads t).wants o.kind else 0) =
      s.queue.count o + (s.threads t).carriesOne o + th.owesOne o +
        (if o.thread = t then th.wants o.kind else 0)) :
    Accounts s' where
  balance := by
    have before := acc.balance
    have change := tally_update Thread.share s.threads t th
    rw [threads]
    omega
  token := by
    have before := acc.token
    have change := tally_update Thread.token s.threads t th
    rw [threads]
    omega
  records := fun o => by
    have before := acc.records o
    have here := records o
    have carried := tally_update (Thread.carriesOne o) s.threads t th
    have owed := tally_update (Thread.owesOne o) s.threads t th
    rw [threads]
    by_cases same : o.thread = t
    · rw [same] at before ⊢
      rw [update_self]
      simp only [same, if_true] at here
      omega
    · rw [update_of_ne same]
      simp only [same, if_false] at here
      omega

theorem Accounts.both (acc : Accounts s) {t r : κ} (ne : r ≠ t) (a b : Thread κ)
    (threads : s'.threads = update (update s.threads t a) r b)
    (balance : s'.count + (s.threads t).share + (s.threads r).share = s.count + a.share + b.share)
    (token : a.token + b.token + nonzero s'.handoff + nonzero s.count =
      (s.threads t).token + (s.threads r).token + nonzero s.handoff +
        nonzero s'.count)
    (queue : s'.queue = s.queue)
    (quiet : ∀ o, b.carriesOne o = (s.threads r).carriesOne o ∧
      b.owesOne o = (s.threads r).owesOne o)
    (wants : ∀ kind, a.wants kind = (s.threads t).wants kind)
    (records : ∀ o, a.carriesOne o + (s.threads t).owesOne o +
        (if o.thread = r then (s.threads r).wants o.kind else 0) =
      (s.threads t).carriesOne o + a.owesOne o + (if o.thread = r then b.wants o.kind else 0)) :
    Accounts s' where
  balance := by
    have before := acc.balance
    have change := tally_update_update Thread.share s.threads ne.symm a b
    rw [threads]
    omega
  token := by
    have before := acc.token
    have change := tally_update_update Thread.token s.threads ne.symm a b
    rw [threads]
    omega
  records := fun o => by
    have before := acc.records o
    have here := records o
    have quiet := quiet o
    have carried := tally_update_update (Thread.carriesOne o) s.threads ne.symm a b
    have owed := tally_update_update (Thread.owesOne o) s.threads ne.symm a b
    rw [threads, queue]
    by_cases same : o.thread = r
    · rw [same] at before ⊢
      rw [update_self]
      simp only [same, if_true] at here
      omega
    · rw [update_of_ne same]
      simp only [same, if_false] at here
      by_cases mine : o.thread = t
      · rw [mine] at before ⊢
        rw [update_self, wants]
        omega
      · rw [update_of_ne mine]
        omega

end Accounts

/-! ## What a step does to the places -/

theorem Places.own {s s' : State κ} (places : Places s) (t : κ) (th : Thread κ)
    (threads : s'.threads = update s.threads t th) (ok : th.Ok)
    (owner : s'.owner = some t → 0 < th.held ∧ ∀ waits, th.pc ≠ .unlockSub waits)
    (fits : ∀ u role, u ≠ t → (s.threads u).pc.acts = some (t, role) →
      role.Fits (s.threads t) → role.Fits th)
    (others : ∀ u, u ≠ t → s'.owner = some u → s.owner = some u)
    (mine : (∀ o, th.pc.carries = some o → o.thread ≠ t) ∧
      (∀ r role, th.pc.acts = some (r, role) → r ≠ t ∧ role.Fits (s.threads r)) ∧
      ∀ r rest, th.pc = .sendScan r rest → ∀ x ∈ rest, x.thread ≠ r)
    (refused : s'.refused = s.refused) : Places s' := by
  have self : s'.threads t = th := by rw [threads, update_self]
  have other : ∀ u ≠ t, s'.threads u = s.threads u := fun u ne => by rw [threads, update_of_ne ne]
  refine ⟨fun u => ?_, fun u owned => ?_, fun u waits atSub owned => ?_, fun u o has => ?_,
    fun u r role acting => ?_, fun u r rest atScan => ?_, refused.trans places.refused⟩
  all_goals obtain rfl | same := eq_or_ne u t
  · rwa [self]
  · rw [other u same]
    exact places.ok u
  · rw [self]
    exact (owner owned).1
  · rw [other u same]
    exact places.owner u (others u same owned)
  · rw [self] at atSub
    exact (owner owned).2 waits atSub
  · rw [other u same] at atSub
    exact places.released u waits atSub (others u same owned)
  · rw [self] at has
    exact mine.1 o has
  · rw [other u same] at has
    exact places.carried u o has
  · rw [self] at acting
    obtain ⟨ne, fit⟩ := mine.2.1 r role acting
    rw [other r ne]
    exact ⟨ne, fit⟩
  · rw [other u same] at acting
    obtain ⟨ne, fit⟩ := places.acts u r role acting
    refine ⟨ne, ?_⟩
    obtain rfl | target := eq_or_ne r t
    · rw [self]
      exact fits u role same acting fit
    · rwa [other r target]
  · rw [self] at atScan
    exact mine.2.2 r rest atScan
  · rw [other u same] at atScan
    exact places.scans u r rest atScan

/-- A thread whose status and flags stay the same still fits. -/
theorem Role.Fits.same {role : Role} {a b : Thread κ} (fits : role.Fits a)
    (status : b.status = a.status) (lockSent : b.lockSent = a.lockSent)
    (waiterWoken : b.waiterWoken = a.waiterWoken) (armed : b.armed = a.armed) : role.Fits b := by
  cases role <;> simpa only [Role.Fits, status, lockSent, waiterWoken, armed] using fits

/-! ## Who may go on -/

section Invariant

variable [Fintype κ] {s s' : State κ}

variable {t : κ}

/-- **One thread has the right to go on.** -/
theorem Inv.alone (inv : Inv s) (right : 0 < (s.threads t).token) :
    s.count ≠ 0 ∧ s.handoff = 0 ∧ ∀ u, u ≠ t → (s.threads u).token = 0 := by
  have total := inv.accounts.token
  have one : nonzero s.count ≤ 1 := by
    unfold nonzero
    split <;> omega
  have own := le_tally token s.threads t
  refine ⟨fun zero => ?_, ?_, fun u ne => ?_⟩
  · simp [zero] at total
    omega
  · by_contra handed
    have := nonzero_of_ne handed
    omega
  · have := add_le_tally token s.threads ne
    omega

theorem Thread.token_pos_of_held {th : Thread κ} (held : 0 < th.held) : 0 < th.token := by
  unfold token
  omega

theorem Inv.holder (inv : Inv s) {t u : κ} (first : 0 < (s.threads t).held)
    (second : 0 < (s.threads u).held) : u = t := by
  by_contra ne
  have := (inv.alone (token_pos_of_held first)).2.2 u ne
  have := token_pos_of_held second
  omega

/-- The holder alone sends the lock or clears a record. -/
theorem Inv.only_resumed (inv : Inv s) {t r u : κ} {role : Role} (held : 0 < (s.threads t).held)
    (ne : u ≠ t) (acting : (s.threads u).pc.acts = some (r, role)) : role = .resume := by
  have places := inv.places.ok u
  cases found : (s.threads u).pc <;> simp only [found, Pc.acts, Option.some.injEq, Prod.mk.injEq,
    reduceCtorEq] at acting
  all_goals first
    | exact acting.2.symm
    | exact absurd (inv.holder held (places.held (by rw [found]; rfl))) ne

theorem Inv.count_nonneg (inv : Inv s) : 0 ≤ s.count := by
  have := inv.accounts.balance
  omega

/-! ## Steps of one thread -/

theorem Thread.wants_pc (th : Thread κ) {pc : Pc κ} (queued : pc.queued = th.pc.queued)
    (kind : Kind) : { th with pc := pc }.wants kind = th.wants kind := by
  cases kind <;> simp only [wants, queued]

variable {here : Pc κ}

/-- A thread goes on from one place to another and changes the lock word or the handoff. -/
theorem Accounts.turn (acc : Accounts s) (place : (s.threads t).pc = here)
    (pc : Pc κ) (threads : s'.threads = update s.threads t { s.threads t with pc := pc })
    (queue : s'.queue = s.queue) (queued : pc.queued = here.queued)
    (carries : pc.carries = here.carries) (owes : pc.owes = here.owes)
    (balance : s'.count + here.share = s.count + pc.share)
    (token : pc.token + nonzero s'.handoff + nonzero s.count =
      here.token + nonzero s.handoff + nonzero s'.count) : Accounts s' := by
  subst place
  refine acc.own t _ threads ?_ ?_ fun o => ?_
  · simp only [Thread.share]
    push_cast
    omega
  · simp only [Thread.token, queued]
    omega
  · rw [queue, Thread.wants_pc _ queued]
    simp only [Thread.carriesOne, Thread.owesOne, carries, owes]

/-- A place from which a thread acts on no other. -/
structure Pc.Quiet (pc : Pc κ) : Prop where
  acts : pc.acts = none
  plain : pc.special = false

/-- A quiet place that follows another one within a call. -/
@[mk_iff] structure Pc.Follows (pc here : Pc κ) : Prop where
  number : pc.number ≠ some 0
  acts : pc.acts = none
  plain : pc.special = false
  queued : pc.queued = here.queued
  carries : pc.carries = here.carries
  owes : pc.owes = here.owes
  waits : here.waits = false ∨ here.waits = pc.waits
  awake : here ≠ .lockWait

theorem Places.turn {s s' : State κ} (places : Places s) (place : (s.threads t).pc = here)
    (pc : Pc κ) (threads : s'.threads = update s.threads t { s.threads t with pc := pc })
    (owner : ∀ u, s'.owner = some u → s.owner = some u) (refused : s'.refused = s.refused)
    (held : pc.holds = false ∨ 0 < (s.threads t).held) (number : pc.number ≠ some 0)
    (waits : here.waits = false ∨ here.waits = pc.waits) (awake : here ≠ .lockWait)
    (carried : ∀ o, pc.carries = some o → o.thread ≠ t) (quiet : pc.Quiet) : Places s' := by
  subst place
  refine places.own t _ threads ((places.ok t).move rfl _ pc (fun holds => ?_)
    ⟨number, fun active => ?_, awake, fun r refuse => ?_⟩)
    (fun owned => ⟨places.owner t (owner t owned), fun waits atSub => ?_⟩)
    (fun u role _ _ fit => fit.same rfl rfl rfl rfl) (fun u _ owned => owner u owned)
    ⟨carried, fun r role acting => ?_, fun r rest atScan => ?_⟩ refused
  · simpa [holds] using held
  · simpa [active] using waits
  · simpa [refuse, Pc.special] using quiet.plain
  · have special := quiet.plain
    simp only at atSub
    simp [atSub, Pc.special] at special
  · simp [quiet.acts] at acting
  · have special := quiet.plain
    simp only at atScan
    simp [atScan, Pc.special] at special

theorem Inv.turn (inv : Inv s) (place : (s.threads t).pc = here) (pc : Pc κ)
    (balance : s'.count + here.share = s.count + pc.share)
    (token : pc.token + nonzero s'.handoff + nonzero s.count =
      here.token + nonzero s.handoff + nonzero s'.count)
    (held : pc.holds = false ∨ 0 < (s.threads t).held) (follows : pc.Follows here)
    (threads : s'.threads = update s.threads t { s.threads t with pc := pc })
    (queue : s'.queue = s.queue) (owner : s'.owner = s.owner) (refused : s'.refused = s.refused) :
    Inv s' :=
  ⟨inv.accounts.turn place pc threads queue follows.queued follows.carries follows.owes balance
      token,
    inv.places.turn place pc threads (fun u owned => owner ▸ owned) refused held follows.number
      follows.waits follows.awake
      (fun o has => inv.places.carried t o (by rw [place, ← follows.carries, has]))
      ⟨follows.acts, follows.plain⟩⟩

theorem Inv.move (inv : Inv s) (place : (s.threads t).pc = here) (pc : Pc κ) (depth : ℕ)
    (goes : (pc.holds = false ∨ 0 < (s.threads t).held) ∧ pc.Follows here ∧
      pc.share = here.share ∧ pc.token = here.token) : Inv ({ s with depth := depth }.setPc t pc) := by
  obtain ⟨held, follows, share, token⟩ := goes
  exact inv.turn place pc (by rw [share]; rfl) (by rw [token]; rfl) held follows rfl rfl rfl rfl

theorem Inv.takeHandoff (inv : Inv s) (place : (s.threads t).pc = here)
    (number : here.number = some s.handoff) (pc : Pc κ) (share : pc.share = here.share)
    (token : pc.token = here.token + 1) (holds : pc.holds = false) (follows : pc.Follows here) :
    Inv ({ s with handoff := 0 }.setPc t pc) := by
  have handed : s.handoff ≠ 0 := by
    have seen := (inv.places.ok t).number
    rw [place, number] at seen
    simpa using seen
  refine inv.turn place _ ?_ ?_ (.inl holds) follows rfl rfl rfl rfl
  · rw [share]
    rfl
  · simp only [State.setPc, State.set, nonzero_zero, nonzero_of_ne handed, token]

/-! ## The queue -/

/-- While a thread has the right to go on, a record that is in the queue or in the hands of a
waker is one that its thread waits for. -/
theorem Inv.wanted (inv : Inv s) (right : 0 < (s.threads t).token)
    (owes : (s.threads t).pc.owes = none) {o : Record κ}
    (present : 0 < s.queue.count o + tally (carriesOne o) s.threads) :
    (s.threads o.thread).wants o.kind = 1 := by
  have account := inv.accounts.records o
  have bound := (s.threads o.thread).wants_le o.kind
  have none : tally (owesOne o) s.threads = 0 := tally_eq_zero.2 fun u => by
    unfold owesOne
    refine if_neg fun owing => ?_
    -- who owes a record holds the mutex
    have holds : (s.threads u).pc.holds = true := by
      cases found : (s.threads u).pc <;> simp [found, Pc.owes] at owing
      rfl
    have same : u = t := by
      by_contra ne
      have := (inv.alone right).2.2 u ne
      have := token_pos_of_held ((inv.places.ok u).held holds)
      omega
    rw [same, owes] at owing
    cases owing
  omega

theorem Inv.pop (inv : Inv s) (place : (s.threads t).pc = here)
    {other : Record κ} {rest : List (Record κ)} (queue : s.queue = other :: rest) (pc : Pc κ)
    (carries : here.carries = none ∧ pc.carries = some other) (ne : other.thread ≠ t)
    (queued : pc.queued = here.queued) (owes : pc.owes = here.owes)
    (share : pc.share = here.share) (token : pc.token = here.token) (holds : pc.holds = false)
    (number : pc.number = none) (waits : here.waits = pc.waits) (awake : here ≠ .lockWait)
    (quiet : pc.Quiet) : Inv ({ s with queue := rest }.setPc t pc) := by
  constructor
  · subst place
    refine inv.accounts.own t _ rfl ?_ ?_ fun o => ?_
    · simp only [State.setPc, State.set, Thread.share, share]
    · simp only [State.setPc, State.set, Thread.token, token, queued]
    · rw [queue, count_pop, Thread.wants_pc _ queued]
      simp only [State.setPc, State.set, Thread.carriesOne, Thread.owesOne, carries, owes,
        Option.some.injEq, reduceCtorEq, if_false]
      omega
  · refine inv.places.turn place _ rfl (fun _ owned => owned) rfl (.inl holds) (by simp [number])
      (.inr waits) awake (fun o has => ?_) quiet
    rw [carries.2, Option.some.injEq] at has
    exact has ▸ ne

end Invariant

end Runs

end MiniOsv.Sync.LfMutex
