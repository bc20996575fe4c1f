/-
# Sched.PinWakeupsSteps -- wakers and schedulers keep the claims on a thread

A thread in status `waking` has one claim on it: a waker that is about to push it, its place in a
queue, or a helper that has marked it (`Inv.wakings`); a queued thread is in one run queue or in the
hands of a helper (`Inv.queueds`).  This module has the steps of `wake_impl`, of
`handle_incoming_wakeups`, of a context switch and of the current thread.
-/
import MiniOsv.Sched.PinWakeups

namespace MiniOsv.Sched.PinWakeups

open Theory List State Status Wake
open Function

set_option linter.unusedSectionVars false

section Runs

variable {ι κ ω ν : Type} [DecidableEq ι] [DecidableEq κ] [DecidableEq ω] [DecidableEq ν]
variable [Fintype ι] [Fintype ω] {s s' : State ι κ ω ν}

/-! ## What a status says -/

theorem Status.is_of_ne {status which : Status} (ne : status ≠ which) : status.is which = 0 :=
  if_neg ne

@[simp] theorem Status.is_self (status : Status) : status.is status = 1 := if_pos rfl

variable {t : κ}

theorem Inv.unclaimed (inv : Inv s) (other : s.status t ≠ .waking) :
    (∀ w, (s.wakers w).pend t = 0) ∧ (∀ q, t ∉ s.contents q) ∧
      ∀ a, Helper.claims .marked t (s.helper a) = 0 := by
  have total := inv.wakings t
  rw [is_of_ne other] at total
  refine ⟨fun w => ?_, fun q mem => ?_, fun a => ?_⟩
  · have := le_tally (pend t) s.wakers w
    omega
  · have := le_tally (List.count t) s.contents q
    have := count_pos_iff.2 mem
    omega
  · have := le_tally (Helper.claims .marked t) s.helper a
    omega

theorem Inv.status_of_linked (inv : Inv s) {q : ι × ι} (mem : t ∈ s.contents q) :
    s.status t = .waking := by
  by_contra other
  exact (inv.unclaimed other).2.1 q mem

variable {w : ω}

theorem Inv.status_of_pend (inv : Inv s) (pend : (s.wakers w).pend t = 1) :
    s.status t = .waking := by
  by_contra other
  have := (inv.unclaimed other).1 w
  omega

variable {a : ι} {h : Helper ι κ}

theorem Inv.status_of_marked (inv : Inv s) (helper : s.helper a = some h)
    (marked : h.claim = .marked) : s.status h.thread = .waking := by
  by_contra other
  have := (inv.unclaimed other).2.2 a
  simp [helper, Helper.claims, marked] at this

theorem Inv.status_of_ready (inv : Inv s) (mem : t ∈ s.runqueue a) : s.status t = .queued := by
  by_contra other
  have total := inv.queueds t
  rw [is_of_ne other] at total
  have := le_tally (List.count t) s.runqueue a
  have := count_pos_iff.2 mem
  omega

theorem Inv.status_of_taken (inv : Inv s) (helper : s.helper a = some h)
    (taken : h.claim = .taken) : s.status h.thread = .queued := by
  by_contra other
  have total := inv.queueds h.thread
  rw [is_of_ne other] at total
  have := le_tally (Helper.claims .taken h.thread) s.helper a
  simp [helper, Helper.claims, taken] at this
  omega

/-- A thread that a waker is about to push is in no queue. -/
theorem Inv.unlinked (inv : Inv s) (pend : (s.wakers w).pend t = 1) (q : ι × ι) :
    t ∉ s.contents q := by
  intro mem
  have total := inv.wakings t
  rw [inv.status_of_pend pend, is_self] at total
  have := le_tally (Wake.pend t) s.wakers w
  have := le_tally (List.count t) s.contents q
  have := count_pos_iff.2 mem
  omega

/-- While a helper is early in its work the thread is not current anywhere. -/
theorem Inv.not_current (inv : Inv s) {a b : ι} (helper : s.helper a = some h)
    (early : h.place.early = true) : s.current b ≠ h.thread := by
  intro current
  obtain ⟨cpu, away⟩ := (inv.helping a h helper).early early
  have same : b = a := by rw [← inv.here b, current, cpu]
  exact away (same ▸ current)

/-- A helper reads the statuses, the CPUs and the current threads only. -/
theorem Helper.Ok.same (ok : h.Ok s a) (status : s'.status = s.status)
    (cpu : s'.cpu = s.cpu) (current : s'.current = s.current) : h.Ok s' a := by
  obtain ⟨early, moving, moved, taken, marked⟩ := ok
  refine ⟨fun place => ?_, fun place => ?_, moved, taken, marked⟩
  · rw [cpu, current]
    exact early place
  · rw [status]
    exact moving place

theorem Helper.Ok.unclaimed (ok : h.Ok s a)
    (place : h.place = .test ∨ h.place = .mark ∨ h.place = .erase) : h.claim = .nothing := by
  cases claim : h.claim with
  | nothing => rfl
  | marked => rcases place with at_ | at_ | at_ <;> simpa [at_] using ok.marked claim
  | taken => rcases place with at_ | at_ | at_ <;> simpa [at_] using ok.taken claim

section

variable (inv : Inv s)

include inv

/-- A waker that was not about to set a mask bit goes on. -/
theorem Inv.noticed_waker (wake : Wake ι κ) {a c : ι}
    (other : s.wakers w ≠ .mark c a) (filled : s.contents (a, c) ≠ []) :
    s.mask a c = true ∨ s.sweep a c = true ∨ ∃ v, update s.wakers w wake v = .mark c a := by
  refine (inv.noticed a c filled).imp_right fun noted => noted.imp_right ?_
  rintro ⟨v, marking⟩
  have apart : v ≠ w := by
    rintro rfl
    exact other marking
  exact ⟨v, (update_of_ne apart _ _).trans marking⟩

/-- A waker that was not about to try its compare-and-swap on `t` goes on. -/
theorem Inv.kept_waker (wake : Wake ι κ) (woken : s.woken t = true)
    (other : ∀ c fromMutex, s.status t = .waiting → s.wakers w ≠ .cas c t fromMutex) :
    s.status t = .waking ∨ s.status t = .sendingLock ∨ s.status t = .waiting ∧
      ∃ v c fromMutex, update s.wakers w wake v = .cas c t fromMutex := by
  refine (inv.kept t woken).imp_right fun asleep => asleep.imp_right ?_
  rintro ⟨waiting, v, c, fromMutex, calling⟩
  have apart : v ≠ w := by
    rintro rfl
    exact other c fromMutex waiting calling
  exact ⟨waiting, v, c, fromMutex, (update_of_ne apart _ _).trans calling⟩

/-! ## Changes of the status -/

/-- The helpers do not mind a change of the status, unless it takes a thread that is being moved out
of the statuses in which it can be. -/
theorem Inv.helping_status (t : κ) (status : Status)
    (moving : ∀ a h, s.helper a = some h → h.thread = t → h.place = .move →
      status.movable = true) (a : ι) (h : Helper ι κ) (helper : s.helper a = some h) :
    h.Ok (s.setStatus t status) a := by
  obtain ⟨early, movable, moved, taken, marked⟩ := inv.helping a h helper
  refine ⟨early, fun place => ?_, moved, taken, marked⟩
  simp only [setStatus, update_apply]
  split
  case isTrue same => exact moving a h helper same place
  case isFalse => exact movable place

omit inv in
theorem is_update_status {status x : Status} (before : s.status t ≠ x) (after : status ≠ x) (u : κ) :
    (update s.status t status u).is x = (s.status u).is x := by
  by_cases same : u = t
  · rw [same, update_self, is_of_ne before, is_of_ne after]
  · rw [update_of_ne same]

/-- The status of a thread changes between statuses that claim nothing. -/
theorem Inv.restatus (t : κ) (status : Status)
    (before : s.status t ≠ .waking ∧ s.status t ≠ .queued)
    (after : status ≠ .waking ∧ status ≠ .queued)
    (moving : ∀ a h, s.helper a = some h → h.thread = t → h.place = .move → status.movable = true)
    (woken : Bool) (kept : woken = true → s.woken t = true ∧ status = .sendingLock) :
    Inv ((s.setStatus t status).setWoken t woken) := by
  refine { inv with
    wakings := fun u => (inv.wakings u).trans (is_update_status before.1 after.1 u).symm
    queueds := fun u => (inv.queueds u).trans (is_update_status before.2 after.2 u).symm
    helping := fun a h helper =>
      (inv.helping_status t status moving a h helper).same rfl rfl rfl
    kept := fun u waked => ?_ }
  simp only [setWoken, setStatus, update_apply] at waked ⊢
  split_ifs at waked ⊢ with same
  · exact .inr (.inl (kept waked).2)
  · exact inv.kept u waked

end

section

variable (inv : Inv s)

include inv

/-- The same, where nobody has woken the thread, or the mutex will. -/
theorem Inv.restatus_only (t : κ) (status : Status)
    (before : s.status t ≠ .waking ∧ s.status t ≠ .queued)
    (after : status ≠ .waking ∧ status ≠ .queued)
    (moving : ∀ a h, s.helper a = some h → h.thread = t → h.place = .move → status.movable = true)
    (kept : s.woken t = true → status = .sendingLock) : Inv (s.setStatus t status) := by
  have same : (s.setStatus t status).setWoken t (s.woken t) = s.setStatus t status := by
    simp only [setWoken, setStatus, update_eq_self]
  exact same ▸ inv.restatus t status before after moving (s.woken t) fun woken => ⟨woken, kept woken⟩

/-- A thread that is running or queued owes no wake-up. -/
theorem Inv.unwoken (waking : s.status t ≠ .waking) (sending : s.status t ≠ .sendingLock)
    (waiting : s.status t ≠ .waiting) : s.woken t = false := by
  by_contra woken
  obtain h | h | h := inv.kept t (by simpa using woken)
  · exact waking h
  · exact sending h
  · exact waiting h.1

theorem Inv.unwoken_of_running (running : s.status t = .running) : s.woken t = false :=
  inv.unwoken (by simp [running]) (by simp [running]) (by simp [running])

/-! ## Wakers -/

theorem Inv.setWaker {wake : Wake ι κ}
    (pend : ∀ t, wake.pend t = (s.wakers w).pend t)
    (destined : ∀ c t tcpu, wake = .push c t tcpu → s.cpu t = tcpu)
    (mark : ∀ a c, s.wakers w = .mark c a → s.contents (a, c) ≠ [] →
      s.mask a c = true ∨ s.sweep a c = true)
    (cas : ∀ c t fromMutex, s.wakers w = .cas c t fromMutex → s.woken t = true →
      s.status t ≠ .waiting) : Inv (s.setWaker w wake) where
  wakings := fun t => by
    have change := tally_update (Wake.pend t) s.wakers w wake
    rw [pend t] at change
    have := inv.wakings t
    simp only [State.setWaker]
    omega
  queueds := inv.queueds
  destined := fun v c t tcpu pushing => by
    simp only [State.setWaker, update_apply] at pushing
    split at pushing
    · exact destined c t tcpu pushing
    · exact inv.destined v c t tcpu pushing
  linked := inv.linked
  ready := inv.ready
  here := inv.here
  helping := fun a h helper => (inv.helping a h helper).same rfl rfl rfl
  noticed := fun a c filled => by
    by_cases marking : s.wakers w = .mark c a
    · exact (mark a c marking filled).imp_right .inl
    · exact inv.noticed_waker wake marking filled
  represents := inv.represents
  kept := fun t woken => inv.kept_waker wake woken fun c fromMutex waiting calling =>
    cas c t fromMutex calling woken waiting

theorem Inv.load {c : ι} (place : s.wakers w = .load c t) :
    Inv (s.setWaker w (.push c t (s.cpu t))) := by
  refine inv.setWaker (fun _ => by rw [place]; rfl) (fun c' t' tcpu same => ?_) (by simp [place])
    (by simp [place])
  obtain ⟨-, rfl, rfl⟩ := push.inj same
  rfl

/-- The compare-and-swap finds the thread asleep. -/
theorem Inv.casDone {c : ι} {fromMutex : Bool} (place : s.wakers w = .cas c t fromMutex)
    (asleep : s.status t = .waiting ∨ s.status t = .sendingLock) :
    Inv (((s.setStatus t .waking).setWoken t true).setWaker w (.load c t)) := by
  have unqueued : s.status t ≠ .queued := by rcases asleep with h | h <;> simp [h]
  have unwaking : s.status t ≠ .waking := by rcases asleep with h | h <;> simp [h]
  refine ⟨fun u => ?_, fun u => (inv.queueds u).trans (is_update_status unqueued (by simp) u).symm,
    fun v c' t' tcpu pushing => ?_, inv.linked, inv.ready, inv.here, fun a h helper => ?_,
    fun a c' filled => ?_, inv.represents, fun u woken => ?_⟩
  · have change := tally_update (pend u) s.wakers w (.load c t)
    rw [place] at change
    have before := inv.wakings u
    simp only [State.setWaker, State.setWoken, State.setStatus]
    by_cases same : u = t
    · subst same
      rw [is_of_ne unwaking] at before
      rw [update_self, is_self]
      simp only [pend, if_true] at change
      omega
    · rw [update_of_ne same]
      simp only [pend, if_neg (Ne.symm same)] at change
      omega
  · simp only [State.setWaker, State.setWoken, State.setStatus, update_apply] at pushing
    split at pushing
    · cases pushing
    · exact inv.destined v c' t' tcpu pushing
  · exact (inv.helping_status t .waking (fun _ _ _ _ _ => rfl) a h helper).same rfl rfl rfl
  · exact inv.noticed_waker (.load c t) (by simp [place]) filled
  · simp only [State.setWaker, State.setWoken, State.setStatus, update_apply] at woken ⊢
    by_cases same : u = t
    · exact .inl (if_pos same)
    · rw [if_neg same] at woken ⊢
      simp only [← update_apply]
      refine inv.kept_waker (.load c t) woken fun c' m _ calling => same ?_
      rw [place] at calling
      exact (cas.inj calling).2.1.symm

/-- The compare-and-swap fails: the thread is awake, or somebody else is waking it. -/
theorem Inv.casFailed {c : ι} {fromMutex : Bool}
    (place : s.wakers w = .cas c t fromMutex) (awake : s.status t ≠ .waiting) :
    Inv ((s.setWoken t (s.woken t || decide (s.status t = .waking))).setWaker w .idle) := by
  have noted : Inv (s.setWoken t (s.woken t || decide (s.status t = .waking))) := by
    refine { inv with
      helping := fun a h helper => (inv.helping a h helper).same rfl rfl rfl
      kept := fun u woken => ?_ }
    simp only [setWoken, update_apply] at woken ⊢
    split at woken
    case isTrue same =>
      subst same
      rw [Bool.or_eq_true, decide_eq_true_eq] at woken
      exact woken.elim (inv.kept u) .inl
    case isFalse => exact inv.kept u woken
  refine noted.setWaker (fun u => ?_) (by simp) (fun a c' marking => ?_)
    (fun c' u m calling _ => ?_)
  · simp [setWoken, place, pend]
  · simp [setWoken, place] at marking
  · simp only [setWoken, place] at calling
    obtain ⟨-, rfl, -⟩ := cas.inj calling
    exact awake

theorem Inv.push {c : ι} {tcpu : ι}
    (place : s.wakers w = .push c t tcpu) :
    Inv ({ s with
      links := s.links.push (tcpu, c) t
      contents := update s.contents (tcpu, c) (s.contents (tcpu, c) ++ [t]) }.setWaker w
        (.mark c tcpu)) := by
  have fresh := inv.unlinked (t := t) (w := w) (by simp [place, pend])
  have cpu := inv.destined w c t tcpu place
  refine ⟨fun u => ?_, inv.queueds, fun v c' t' tcpu' pushing => ?_, fun q u mem => ?_, inv.ready,
    inv.here, fun a h helper => ?_, fun a c' filled => ?_, inv.represents.push fresh,
    fun u woken => ?_⟩
  · have gone := tally_update (pend u) s.wakers w (.mark c tcpu)
    have come := tally_update (List.count u) s.contents (tcpu, c) (s.contents (tcpu, c) ++ [t])
    rw [place] at gone
    rw [count_append, count_singleton] at come
    have before := inv.wakings u
    simp only [State.setWaker]
    simp only [pend] at gone
    simp only [beq_iff_eq] at come
    omega
  · simp only [State.setWaker, update_apply] at pushing
    split at pushing
    · cases pushing
    · exact inv.destined v c' t' tcpu' pushing
  · simp only [State.setWaker, update_apply] at mem ⊢
    split at mem
    case isTrue same =>
      rw [mem_append, mem_singleton] at mem
      obtain old | rfl := mem
      · exact same ▸ inv.linked _ u old
      · rw [same]
        exact cpu
    case isFalse => exact inv.linked q u mem
  · exact (inv.helping a h helper).same rfl rfl rfl
  · by_cases same : (a, c') = (tcpu, c)
    · obtain ⟨rfl, rfl⟩ := Prod.mk.inj same
      exact .inr (.inr ⟨w, update_self ..⟩)
    · simp only [State.setWaker, update_of_ne same] at filled
      exact inv.noticed_waker (.mark c tcpu) (by simp [place]) filled
  · exact inv.kept_waker (.mark c tcpu) woken (by simp [place])

theorem Inv.setBits {mask sweep : ι → ι → Bool}
    (noticed : ∀ a c, s.contents (a, c) ≠ [] →
      mask a c = true ∨ sweep a c = true ∨ ∃ w, s.wakers w = .mark c a) :
    Inv { s with mask := mask, sweep := sweep } :=
  { inv with
    helping := fun a h helper => (inv.helping a h helper).same rfl rfl rfl
    noticed := noticed }

theorem Inv.mark {c tcpu : ι} (place : s.wakers w = .mark c tcpu) :
    Inv ({ s with
      mask := update s.mask tcpu (update (s.mask tcpu) c true) }.setWaker w
        .idle) := by
  have noted : Inv { s with
      mask := update s.mask tcpu (update (s.mask tcpu) c true) } := by
    refine inv.setBits fun a c' filled => (inv.noticed a c' filled).imp_left fun before => ?_
    by_cases same : a = tcpu
    · subst same
      by_cases also : c' = c
      · simp [also]
      · simpa [also] using before
    · simpa [same] using before
  refine noted.setWaker (fun u => ?_) (by simp) (fun a c' marking _ => ?_) (by simp [place])
  · simp [place, pend]
  · simp only [place] at marking
    obtain ⟨rfl, rfl⟩ := mark.inj marking
    simp

/-! ## The scheduler of a CPU -/

theorem Inv.sweep (done : ∀ c, s.sweep a c = false) :
    Inv { s with sweep := update s.sweep a (s.mask a)
                 mask := update s.mask a fun _ => false } := by
  refine inv.setBits fun b c filled => ?_
  by_cases same : b = a
  · subst same
    simpa [done] using inv.noticed b c filled
  · simpa [same] using inv.noticed b c filled

theorem Inv.popEnd {a c : ι} (front : s.links.front (a, c) = none) :
    Inv { s with sweep := update s.sweep a (update (s.sweep a) c false) } := by
  have empty : s.contents (a, c) = [] := by
    rw [inv.represents.front, List.head?_eq_none_iff] at front
    exact front
  refine inv.setBits fun b d filled => ?_
  by_cases same : b = a
  · subst same
    have other : d ≠ c := by
      rintro rfl
      exact filled empty
    simpa [other] using inv.noticed b d filled
  · simpa [same] using inv.noticed b d filled

/-- A thread that was waking is taken from its queue and gets another status. -/
theorem Inv.popped {a c : ι} (free : s.helper a = none) {rest : List κ}
    (first : s.contents (a, c) = t :: rest) {status : Status} (unwaking : status ≠ .waking)
    (runqueue : ι → List κ)
    (queueds : ∀ u, tally (List.count u) runqueue + tally (Helper.claims .taken u) s.helper =
      (update s.status t status u).is .queued)
    (ready : ∀ b, ∀ u ∈ runqueue b, s.cpu u = b) :
    Inv ((({ s with
      links := s.links.pop (a, c) t
      contents := update s.contents (a, c) rest
      runqueue := runqueue }.setStatus t status).setWoken t false)) := by
  have mem : t ∈ s.contents (a, c) := first ▸ mem_cons_self
  have waking := inv.status_of_linked mem
  refine ⟨fun u => ?_, queueds, inv.destined, fun q u linked => ?_, ready, inv.here,
    fun b h helper => ?_, fun b d filled => ?_, inv.represents.pop first, fun u woken => ?_⟩
  · have gone := tally_update (List.count u) s.contents (a, c) rest
    rw [first, count_cons] at gone
    have before := inv.wakings u
    simp only [setWoken, setStatus]
    simp only [beq_iff_eq] at gone
    by_cases same : u = t
    · subst same
      rw [waking, is_self] at before
      rw [update_self, is_of_ne unwaking]
      simp only [if_true] at gone
      omega
    · rw [update_of_ne same]
      simp only [if_neg (Ne.symm same)] at gone
      omega
  · simp only [setWoken, setStatus, update_apply] at linked ⊢
    split at linked
    case isTrue same =>
      subst same
      exact inv.linked _ u (first ▸ mem_cons_of_mem _ linked)
    case isFalse => exact inv.linked q u linked
  · obtain ⟨early, movable, moved, taken, marked⟩ := inv.helping b h helper
    refine ⟨early, fun place => ?_, moved, taken, marked⟩
    -- A thread that is popped is not being moved.
    have other : h.thread ≠ t := fun same => by
      have cpu := (early (by rw [place]; rfl)).1
      rw [same, inv.linked _ t mem] at cpu
      obtain rfl : a = b := cpu
      cases free.symm.trans helper
    simp only [setWoken, setStatus, update_of_ne other]
    exact movable place
  · refine inv.noticed b d fun empty => filled ?_
    by_cases same : (b, d) = (a, c)
    · rw [same, first] at empty
      cases empty
    · simpa only [setWoken, setStatus, update_of_ne same] using empty
  · simp only [setWoken, setStatus, update_apply] at woken ⊢
    split at woken
    case isTrue => cases woken
    case isFalse other => rw [if_neg other]; exact inv.kept u woken

theorem Inv.stepPop {a c : ι} (free : s.helper a = none) : Inv (s.stepPop a c) := by
  unfold State.stepPop
  cases front : s.links.front (a, c) with
  | none => exact inv.popEnd front
  | some t =>
    have head := inv.represents.front (a, c)
    rw [front] at head
    obtain ⟨rest, first⟩ : ∃ rest, s.contents (a, c) = t :: rest := List.head?_eq_some_iff.1 head.symm
    have waking := inv.status_of_linked (first ▸ mem_cons_self : t ∈ s.contents (a, c))
    have unqueued : s.status t ≠ .queued := by simp [waking]
    have cpu : s.cpu t = a := inv.linked _ t (first ▸ mem_cons_self)
    have shorter : (s.contents (a, c)).erase t = rest := by rw [first, erase_cons_head]
    simp only [shorter]
    split
    case isTrue =>
      exact inv.popped free first (by simp) s.runqueue
        (fun u => (inv.queueds u).trans (is_update_status unqueued (by simp) u).symm) inv.ready
    case isFalse =>
      rw [if_neg fun wrong => wrong cpu]
      refine inv.popped free first (by simp) (update s.runqueue a (t :: s.runqueue a))
        (fun u => ?_) fun b u mem => ?_
      · have change := tally_update (List.count u) s.runqueue a (t :: s.runqueue a)
        rw [count_cons] at change
        have before := inv.queueds u
        simp only [beq_iff_eq] at change
        by_cases same : u = t
        · subst same
          rw [is_of_ne unqueued] at before
          rw [update_self, is_self]
          simp only [if_true] at change
          omega
        · rw [update_of_ne same]
          simp only [if_neg (Ne.symm same)] at change
          omega
      · simp only [update_apply] at mem
        split at mem
        case isTrue same =>
          obtain rfl | old := mem_cons.1 mem
          · exact cpu.trans same.symm
          · exact same ▸ inv.ready a u old
        case isFalse => exact inv.ready b u mem

/-! ## The current thread -/

theorem Inv.current_not_moving (a b : ι) (h : Helper ι κ) (helper : s.helper b = some h)
    (same : h.thread = s.current a) (place : h.place = .move) : False :=
  inv.not_current helper (by rw [place]; rfl) same.symm

theorem Inv.sleep (running : s.status (s.current a) = .running) :
    Inv (s.setStatus (s.current a) .waiting) := by
  have quiet := inv.unwoken_of_running running
  exact inv.restatus_only _ _ (by simp [running]) (by simp) (fun _ _ _ _ _ => rfl) (by simp [quiet])

theorem Inv.stay (waiting : s.status (s.current a) = .waiting) :
    Inv ((s.setStatus (s.current a) .running).setWoken (s.current a) false) :=
  inv.restatus _ _ (by simp [waiting]) (by simp)
    (fun b h helper same place => (inv.current_not_moving a b h helper same place).elim) false
    (by simp)

theorem Inv.finish (running : s.status (s.current a) = .running) :
    Inv (s.setStatus (s.current a) .terminated) := by
  have quiet := inv.unwoken_of_running running
  exact inv.restatus_only _ _ (by simp [running]) (by simp)
    (fun b h helper same place => (inv.current_not_moving a b h helper same place).elim)
    (by simp [quiet])

theorem Inv.send (waiting : s.status t = .waiting) : Inv (s.setStatus t .sendingLock) :=
  inv.restatus_only _ _ (by simp [waiting]) (by simp) (fun _ _ _ _ _ => rfl) fun _ => rfl

section

variable (free : s.helper a = none)

include free

/-- A thread is taken from or put into a run queue of a CPU on which no helper is at work. -/
theorem Inv.requeue (status : κ → Status)
    (list : List κ) (current : ι → κ)
    (wakings : ∀ u, (status u).is .waking = (s.status u).is .waking)
    (queueds : ∀ u, list.count u + (s.status u).is .queued =
      (s.runqueue a).count u + (status u).is .queued)
    (ready : ∀ u ∈ list, s.cpu u = a) (here : ∀ b, s.cpu (current b) = b)
    (elsewhere : ∀ b, b ≠ a → current b = s.current b)
    (moving : ∀ u, (s.status u).movable = true → status u = s.status u)
    (kept : ∀ u, s.woken u = true → status u = s.status u) :
    Inv { s with status := status, current := current
                 runqueue := update s.runqueue a list } := by
  refine ⟨fun u => ?_, fun u => ?_, inv.destined, inv.linked, fun b u mem => ?_, here,
    fun b h helper => ?_, inv.noticed, inv.represents, fun u woken => ?_⟩
  · rw [wakings u]
    exact inv.wakings u
  · have change := tally_update (List.count u) s.runqueue a list
    have before := inv.queueds u
    have here := queueds u
    simp only
    omega
  · simp only [update_apply] at mem
    split at mem
    case isTrue same => exact same ▸ ready u mem
    case isFalse => exact inv.ready b u mem
  · have other : b ≠ a := by
      rintro rfl
      rw [free] at helper
      cases helper
    obtain ⟨early, movable, moved, taken, marked⟩ := inv.helping b h helper
    refine ⟨fun place => ⟨(early place).1, ?_⟩, fun place => ?_, moved, taken, marked⟩
    · intro same
      exact (early place).2 ((elsewhere b other).symm.trans same)
    · have same := moving _ (movable place)
      simp only
      rw [same]
      exact movable place
  · have same := kept u woken
    simp only
    rw [same]
    exact inv.kept u woken

theorem Inv.preempt (running : s.status (s.current a) = .running) :
    Inv ((s.setStatus (s.current a) .queued).setRunqueue a (s.current a :: s.runqueue a)) := by
  have awake := inv.unwoken_of_running running
  refine inv.requeue free _ _ s.current (fun u => ?_) (fun u => ?_) (fun u mem => ?_) inv.here
    (fun _ _ => rfl) (fun u movable => ?_) (fun u woken => ?_)
  · simp only [setStatus, update_apply]
    split_ifs with same
    · rw [same, running]
      rfl
    · rfl
  · simp only [setStatus, update_apply, count_cons, beq_iff_eq]
    by_cases same : u = s.current a
    · rw [same, if_pos rfl, if_pos rfl, running, is_self, is_of_ne (by simp)]
    · rw [if_neg same, if_neg (Ne.symm same), Nat.add_zero]
  · obtain rfl | old := mem_cons.1 mem
    · exact inv.here a
    · exact inv.ready a u old
  · refine update_of_ne ?_ _ _
    rintro rfl
    rw [running] at movable
    cases movable
  · refine update_of_ne ?_ _ _
    rintro rfl
    rw [awake] at woken
    cases woken

theorem Inv.runNext {n : κ} (mem : n ∈ s.runqueue a) :
    Inv (({ s with current := update s.current a n }.setStatus n .running).setRunqueue a
      ((s.runqueue a).erase n)) := by
  have queued := inv.status_of_ready mem
  have quiet := inv.unwoken (t := n) (by simp [queued]) (by simp [queued]) (by simp [queued])
  refine inv.requeue free _ _ _ (fun u => ?_) (fun u => ?_)
    (fun u old => inv.ready a u (mem_of_mem_erase old)) (fun b => ?_)
    (fun b other => update_of_ne other _ _) (fun u movable => ?_) (fun u woken => ?_)
  · simp only [setStatus, update_apply]
    split_ifs with same
    · rw [same, queued]
      rfl
    · rfl
  · simp only [setStatus, update_apply]
    by_cases same : u = n
    · subst same
      have := count_pos_iff.2 mem
      rw [if_pos rfl, count_erase_self, queued, is_self, is_of_ne (by simp)]
      omega
    · rw [if_neg same, count_erase_of_ne same]
  · simp only [setStatus, update_apply]
    split_ifs with same
    · exact same ▸ inv.ready a n mem
    · exact inv.here b
  · refine update_of_ne ?_ _ _
    rintro rfl
    rw [queued] at movable
    cases movable
  · refine update_of_ne ?_ _ _
    rintro rfl
    rw [quiet] at woken
    cases woken

theorem Inv.stepSwitch {n : κ}
    (mem : n ∈ s.runqueue a) (ne : n ≠ s.current a) : Inv (s.stepSwitch a n) := by
  unfold State.stepSwitch
  simp only
  split
  case isTrue running =>
    have listed : n ∈ ((s.setStatus (s.current a) .queued).setRunqueue a
        (s.current a :: s.runqueue a)).runqueue a := by
      simp [State.setRunqueue, mem]
    have next := (inv.preempt free running).runNext free listed
    simpa [State.setRunqueue, State.setStatus, erase_cons_tail, Ne.symm ne] using next
  case isFalse => exact inv.runNext free mem

end

end

end Runs

end MiniOsv.Sched.PinWakeups
