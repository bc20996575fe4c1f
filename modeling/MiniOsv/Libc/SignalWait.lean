/-
# Libc.SignalWait -- what becomes of a signal that a waiting thread got

`sigwait` does not look at its set: it returns whatever is in the slot.  And the slot is
written by every `kill` of a signal the thread blocks, whether the last one was fetched or
not.  So a signal that `kill` reported as delivered may be overwritten, or be returned by
a call that asked for others.

`accepted_signals_returned` says that nothing else goes wrong: it is about the runs in
which a delivering `kill` finds no slot occupied and no thread waiting for other signals,
and `sigwait` is not called for other signals while the slot is occupied (`Orderly`).
-/
import MiniOsv.Libc.Signal

namespace MiniOsv.Libc.Signal

open Theory State
open Function (update update_self update_of_ne)

variable {ι : Type}

/-- `kill` gets as far as the waiters of the signal. -/
def Delivers (s : State ι) (pid sig : ℤ) : Prop :=
  (pid = osvPid ∨ pid = 0 ∨ pid = -1) ∧ 1 ≤ sig ∧ sig ≤ nsignals ∧
    s.actions (sig.toNat - 1) = .handler

/-- The step does not run into an occupied slot or a foreign set. -/
def Orderly (s : State ι) : Event ι → Prop
  | .kill pid sig => Delivers s pid sig → ∀ t ∈ s.waiters (sig.toNat - 1),
      s.pending t = 0 ∧ ∀ set, s.pcs t = .waiting set → set.has sig.toNat = true
  | .sigwait t set => s.pending t ≠ 0 → set.has (s.pending t) = true
  | _ => True

def State.outstanding (s : State ι) (t : ι) : List ℕ :=
  if s.pending t = 0 then [] else [s.pending t]

/-- What holds of thread `t`. -/
structure Kept (s : State ι) (t : ι) : Prop where
  /-- Nothing accepted is lost: it was returned, or it is in the slot. -/
  slot : s.accepted t = (s.returned t).map Prod.fst ++ s.outstanding t
  returned : ∀ answer ∈ s.returned t, 1 ≤ answer.1 ∧ answer.2.has answer.1 = true
  waiting : ∀ set, s.pcs t = .waiting set → s.pending t ≠ 0 → set.has (s.pending t) = true
  taken : ∀ set signo, s.pcs t = .taken set signo →
    s.pending t = signo ∧ 1 ≤ signo ∧ set.has signo = true

theorem kept_initial (t : ι) : Kept (initial : State ι) t where
  slot := rfl
  returned _ mem := by cases mem
  waiting _ pc := by cases pc
  taken _ _ pc := by cases pc

theorem Kept.congr {s s' : State ι} {t : ι} (kept : Kept s t)
    (accepted : s'.accepted t = s.accepted t) (returned : s'.returned t = s.returned t)
    (pending : s'.pending t = s.pending t) (pc : s'.pcs t = s.pcs t) : Kept s' t where
  slot := by
    rw [accepted, returned, outstanding, pending]
    exact kept.slot
  returned := by
    rw [returned]
    exact kept.returned
  waiting := by
    rw [pc, pending]
    exact kept.waiting
  taken := by
    rw [pc, pending]
    exact kept.taken

/-! ## `kill` -/

variable [DecidableEq ι]

theorem foldl_pending (list : List ι) (pending : ι → ℕ) (signo : ℕ) (u : ι) :
    list.foldl (fun p t => update p t signo) pending u =
      if u ∈ list then signo else pending u := by
  induction list generalizing pending with
  | nil => simp
  | cons t rest ih =>
    rw [List.foldl_cons, ih]
    by_cases later : u ∈ rest
    · simp [later]
    · by_cases same : u = t
      · simp [same]
      · simp [later, same]

theorem wakeUp_pending (s : State ι) (signo : ℕ) (t : ι) :
    (s.wakeUpSignalWaiters signo).2.pending t =
      if t ∈ s.waiters (signo - 1) then signo else s.pending t :=
  foldl_pending _ _ _ _

variable {s : State ι}

theorem Kept.wakeUp {t : ι} (kept : Kept s t) {signo : ℕ} (signal : 1 ≤ signo)
    (free : t ∈ s.waiters (signo - 1) →
      s.pending t = 0 ∧ ∀ set, s.pcs t = .waiting set → set.has signo = true) :
    Kept (s.wakeUpSignalWaiters signo).2 t := by
  by_cases listed : t ∈ s.waiters (signo - 1)
  · obtain ⟨empty, asked⟩ := free listed
    have pending : (s.wakeUpSignalWaiters signo).2.pending t = signo := by
      rw [wakeUp_pending, if_pos listed]
    have accepted : (s.wakeUpSignalWaiters signo).2.accepted t = s.accepted t ++ [signo] :=
      if_pos listed
    refine ⟨?_, kept.returned, fun set pc _ => ?_, fun set other pc => ?_⟩
    · rw [accepted, kept.slot, outstanding, outstanding, pending, if_pos empty,
        if_neg (by omega), List.append_nil]
      rfl
    · rw [pending]
      exact asked set pc
    · -- A thread that is fetching has its slot occupied.
      obtain ⟨occupied, positive, _⟩ := kept.taken set other pc
      omega
  · have pending : (s.wakeUpSignalWaiters signo).2.pending t = s.pending t := by
      rw [wakeUp_pending, if_neg listed]
    exact kept.congr (if_neg listed) rfl pending rfl

theorem Kept.kill {t : ι} (kept : Kept s t) {pid sig : ℤ}
    (orderly : Orderly s (.kill pid sig)) : Kept (s.kill pid sig).2 t := by
  rw [State.kill]
  split
  · exact kept
  next ours =>
    split
    · exact kept
    next nonzero =>
      split
      · exact kept
      next inRange =>
        split
        · exact kept.congr rfl rfl rfl rfl
        · exact kept
        next handler =>
          have delivers : Delivers s pid sig := ⟨by omega, by omega, by omega, handler⟩
          dsimp only
          split <;> exact kept.wakeUp (by omega) (orderly delivers t)

/-! ## Runs -/

/-- Thread `t` goes on within `sigwait`, and its slot agrees with where it is. -/
theorem Kept.goto (kept : ∀ u, Kept s u) {t : ι} {pc : Pc}
    (waiting : ∀ set, pc = .waiting set → s.pending t ≠ 0 → set.has (s.pending t) = true)
    (taken : ∀ set signo, pc = .taken set signo →
      s.pending t = signo ∧ 1 ≤ signo ∧ set.has signo = true) (u : ι) :
    Kept { s with pcs := update s.pcs t pc } u := by
  by_cases same : u = t
  · subst same
    have here : update s.pcs u pc u = pc := update_self u _ _
    refine ⟨(kept u).slot, (kept u).returned, fun set at_ => ?_, fun set signo at_ => ?_⟩
    · exact waiting set (here.symm.trans at_)
    · exact taken set signo (here.symm.trans at_)
  · exact (kept u).congr rfl rfl rfl (update_of_ne same _ _)

theorem Kept.exit (kept : ∀ u, Kept s u) (t u : ι) :
    Kept { s.exitNotifier t with pcs := update s.pcs t .gone } u := by
  have frame : (s.exitNotifier t).accepted = s.accepted ∧
      (s.exitNotifier t).returned = s.returned ∧ (s.exitNotifier t).pending = s.pending := by
    rw [exitNotifier]
    split <;> exact ⟨rfl, rfl, rfl⟩
  obtain ⟨accepted, returned, pending⟩ := frame
  have left : Kept { s with pcs := update s.pcs t .gone } u :=
    Kept.goto kept (fun _ pc => (by cases pc)) (fun _ _ pc => (by cases pc)) u
  exact left.congr (congrFun accepted u) (congrFun returned u) (congrFun pending u) rfl

theorem Kept.fetched (kept : ∀ u, Kept s u) {t : ι} {set : Sigset} {signo : ℕ}
    (reading : s.pcs t = .taken set signo) (u : ι) :
    Kept { s with
      pcs := update s.pcs t .running
      pending := update s.pending t 0
      returned := update s.returned t (s.returned t ++ [(signo, set)]) } u := by
  by_cases same : u = t
  · subst same
    obtain ⟨slot, positive, asked⟩ := (kept u).taken set signo reading
    have here : update s.pcs u .running u = .running := update_self u _ _
    refine ⟨?_, fun answer mem => ?_, fun set pc => ?_, fun set other pc => ?_⟩
    · have before := (kept u).slot
      rw [outstanding, slot, if_neg (by omega)] at before
      simpa [outstanding] using before
    · simp only [update_self] at mem
      rcases List.mem_append.1 mem with earlier | last
      · exact (kept u).returned answer earlier
      · rw [List.mem_singleton] at last
        subst last
        exact ⟨positive, asked⟩
    · cases here.symm.trans pc
    · cases here.symm.trans pc
  · exact (kept u).congr rfl (update_of_ne same _ _) (update_of_ne same _ _)
      (update_of_ne same _ _)

/-- **One step.** -/
theorem Kept.step {s s' : State ι} (kept : ∀ t, Kept s t) {event : Event ι}
    (orderly : Orderly s event) (taken : s.step event = some s') (u : ι) : Kept s' u := by
  unfold State.step at taken
  split at taken
  · cases taken
  · cases event with dsimp only at taken
    | create t =>
      split at taken <;> cases taken
      by_cases same : u = t
      · subst same
        exact ⟨by simp [outstanding], by simp, by simp, by simp⟩
      · exact (kept u).congr (update_of_ne same _ _) (update_of_ne same _ _)
          (update_of_ne same _ _) (update_of_ne same _ _)
    | exit t =>
      split at taken <;> cases taken
      exact Kept.exit kept t u
    | sigprocmask t how set =>
      split at taken <;> cases taken
      cases set with
      | none => exact kept u
      | some set => cases how <;> exact (kept u).congr rfl rfl rfl rfl
    | sigaction signum act =>
      split at taken <;> cases taken <;> exact (kept u).congr rfl rfl rfl rfl
    | kill pid sig =>
      cases taken
      exact (kept u).kill orderly
    | sigwait t set =>
      split at taken <;> cases taken
      refine Kept.goto kept (fun asked pc => ?_) (fun _ _ pc => (by cases pc)) u
      cases pc
      exact orderly
    | look t =>
      split at taken
      next set waiting =>
        split at taken <;> cases taken
        · exact kept u
        next occupied =>
          refine Kept.goto kept (fun _ pc => (by cases pc)) (fun asked signo pc => ?_) u
          cases pc
          exact ⟨rfl, Nat.pos_of_ne_zero occupied, (kept t).waiting set waiting occupied⟩
      · cases taken
    | finish t =>
      split at taken <;> cases taken
      next set signo reading =>
        exact Kept.fetched kept reading u

/-- The runs all of whose steps are orderly. -/
def OrderlyRuns : State ι → Prop :=
  Reachable (· = initial) fun s s' => ∃ event, Orderly s event ∧ s.step event = some s'

theorem OrderlyRuns.kept (run : OrderlyRuns s) : ∀ t, Kept s t :=
  run.invariant (I := fun s => ∀ t, Kept s t) (fun _ initial => initial ▸ kept_initial)
    fun _ _ _ kept ⟨_, orderly, taken⟩ => Kept.step kept orderly taken

/-- **Accepted signals are returned, by calls that asked for them.**  A call of `sigwait`
returns a member of its set; what was accepted for a thread is what its calls returned, in
order, and at most one signal in the slot; and a call that waits while there is one, which
is in its set, returns it. -/
theorem accepted_signals_returned {s : State ι} (run : OrderlyRuns s) (t : ι) :
    (∀ answer ∈ s.returned t, 1 ≤ answer.1 ∧ answer.2.has answer.1 = true) ∧
    s.accepted t = (s.returned t).map Prod.fst ++ s.outstanding t ∧
    ∀ set, s.off = false → s.pcs t = .waiting set → s.pending t ≠ 0 →
      set.has (s.pending t) = true ∧
      ∃ s', [Event.look t, .finish t].foldlM step s = some s' ∧
        s'.returned t = s.returned t ++ [(s.pending t, set)] ∧
        s'.accepted t = (s'.returned t).map Prod.fst := by
  have kept := run.kept t
  refine ⟨kept.returned, kept.slot, fun set on waiting occupied =>
    ⟨kept.waiting set waiting occupied, ?_⟩⟩
  refine ⟨{ s with
    pcs := update (update s.pcs t (.taken set (s.pending t))) t .running
    pending := update s.pending t 0
    returned := update s.returned t (s.returned t ++ [(s.pending t, set)]) }, ?_, ?_, ?_⟩
  · simp [step, on, waiting, occupied]
  · exact update_self t _ _
  · have slot := kept.slot
    rw [outstanding, if_neg occupied] at slot
    simpa using slot

def blockTwo : List (Event ℕ) :=
  [.create 0, .sigaction 10 .handler, .sigaction 12 .handler,
    .sigprocmask 0 .block (some 0xa00)]

/-- A signal that is killed while its thread waits for it is returned. -/
theorem waitedFor_returned :
    ∃ s : State ℕ,
      (blockTwo ++ [Event.sigwait 0 0xa00, .kill 0 10, .look 0, .finish 0]).foldlM step
        initial = some s ∧
      s.accepted 0 = [10] ∧ s.accepted 0 = (s.returned 0).map Prod.fst ++ s.outstanding 0 := by
  refine ⟨_, rfl, rfl, (accepted_signals_returned ?_ 0).2.1⟩
  have first : OrderlyRuns (initial : State ℕ) := .start rfl
  have created := first.next ⟨.create 0, trivial, rfl⟩
  have ten := created.next ⟨.sigaction 10 .handler, trivial, rfl⟩
  have twelve := ten.next ⟨.sigaction 12 .handler, trivial, rfl⟩
  have blocked := twelve.next ⟨.sigprocmask 0 .block (some 0xa00), trivial, rfl⟩
  have waiting := blocked.next ⟨.sigwait 0 0xa00, fun occupied => absurd rfl occupied, rfl⟩
  refine ((waiting.next ⟨.kill 0 10, fun _ t listed => ?_, rfl⟩).next ⟨.look 0, trivial, rfl⟩).next
    ⟨.finish 0, trivial, rfl⟩
  obtain rfl : t = 0 := List.mem_singleton.1 listed
  refine ⟨rfl, fun set pc => ?_⟩
  obtain rfl : (0xa00 : Sigset) = set := Pc.waiting.inj pc
  decide

/-- Signal 10 is accepted and then overwritten by signal 12, which a call that asked only
for 10 returns. -/
theorem overwritten_and_foreign :
    ∃ s : State ℕ,
      Reachable (· = initial) (fun s s' => ∃ event, s.step event = some s') s ∧
      s.accepted 0 = [10, 12] ∧ s.returned 0 = [(12, 0x200)] ∧ s.pending 0 = 0 ∧
      Sigset.has 0x200 10 = true ∧ Sigset.has 0x200 12 = false := by
  have run : (blockTwo ++ [Event.kill 0 10, .kill 0 12, .sigwait 0 0x200, .look 0, .finish 0]).foldlM
      step (initial : State ℕ) = some _ := rfl
  exact ⟨_, Reachable.events (.start rfl) run, rfl, rfl, rfl, by decide, by decide⟩

end MiniOsv.Libc.Signal
