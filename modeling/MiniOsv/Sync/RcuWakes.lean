/-
# Sync.RcuWakes -- no quiescent-state thread sleeps through its wake

A thread that sleeps and was not woken has seen every request made to it, or the requester
is about to wake it; if it waits for a generation, some CPU has not published it, or the
publisher is about to wake it.  It follows that grace periods do not get stuck: where no
thread can take a step, none waits for a generation.
-/
import MiniOsv.Sync.RcuRuns

namespace MiniOsv.Sync.Rcu

set_option linter.unusedSectionVars false

open Theory State List
open Function

variable {ι : Type} [DecidableEq ι] {cqsts : List ι} {size : ℕ}

/-- A thread in a grace period is marked and has asked all others, or is about to. -/
def State.Told (cqsts : List ι) (s : State ι) (i : ι) : Pc ι → Prop
  | .ask g rest | .wakeAsked g _ rest =>
    s.requested i = true ∧ ∀ j ∈ cqsts, j ≠ i → g ≤ s.request j ∨ j ∈ rest
  | .store _ g | .notify _ g | .wait g | .asleep g | .serve g =>
    ∀ h, g = some h → s.requested i = true ∧ ∀ j ∈ cqsts, j ≠ i → h ≤ s.request j
  | _ => True

structure Wakes (cqsts : List ι) (s : State ι) : Prop where
  asked : ∀ j g, s.pcs j = .asleep g → s.woken j = false → s.gen j < s.request j →
    ∃ i h rest, s.pcs i = .wakeAsked h j rest
  told : ∀ i, s.Told cqsts i (s.pcs i)
  notified : ∀ i g, s.pcs i = .asleep (some g) → s.woken i = false →
    (∃ j ∈ cqsts, s.gen j < g) ∨ ∃ j rest h, s.pcs j = .notify rest h ∧ i ∈ rest
  idle : ∀ i, s.pcs i = .asleep none → s.woken i = false → s.waiting i = []

theorem State.Told.mono {s s' : State ι} {i : ι} {pc : Pc ι} (told : s.Told cqsts i pc)
    (requested : s'.requested i = s.requested i) (request : ∀ j, s.request j ≤ s'.request j) :
    s'.Told cqsts i pc := by
  cases pc with
  | ask g rest | wakeAsked g k rest =>
    refine ⟨by rw [requested]; exact told.1, fun j mem ne => ?_⟩
    exact (told.2 j mem ne).imp_left fun le => Nat.le_trans le (request j)
  | store v g | notify rest g | wait g | asleep g | serve g =>
    exact fun h eq => ⟨by rw [requested]; exact (told h eq).1, fun j mem ne =>
      Nat.le_trans ((told h eq).2 j mem ne) (request j)⟩
  | _ => trivial

theorem State.woken_update (s : State ι) {j k : ι} (woken : s.woken k = true) :
    update s.woken j true k = true := by
  by_cases same : k = j
  · rw [same, update_self]
  · rwa [update_of_ne same]

namespace Wakes

variable {s s' : State ι} {i : ι}

section

variable (wakes : Wakes cqsts s)

include wakes

/-- **Thread `i` takes a step.**  The hypotheses are what the step owes to the sleepers:
where it raises a request it goes on to wake, where it publishes it goes on to notify, and
it does not drop a wake that it owes. -/
theorem moves (all : ∀ i, i ∈ cqsts) {old pc : Pc ι}
    (place : s.pcs i = old) (pcs : s'.pcs = update s.pcs i pc) (told : s'.Told cqsts i pc)
    (woken : ∀ j, j ≠ i → s.woken j = true → s'.woken j = true := by exact fun _ _ h => h)
    (wakesAsked : ∀ j h rest, old = .wakeAsked h j rest → s'.woken j = true := by simp)
    (notifies : ∀ j rest h, old = .notify rest h → j ∈ rest → j ≠ i → s.requested j = true →
      s'.woken j = true ∨ ∃ rest' h', pc = .notify rest' h' ∧ j ∈ rest' := by simp)
    (sleeps : ∀ g, pc = .asleep g → ¬s'.gen i < s'.request i ∧
      (∀ h, g = some h → ∃ j ∈ cqsts, s'.gen j < h) ∧ (g = none → s'.waiting i = []) := by simp)
    (publishes : s'.gen i = s.gen i ∨ ∃ h, pc = .notify cqsts h := by exact .inl rfl)
    (request : ∀ j, s.request j ≤ s'.request j := by exact fun _ => Nat.le_refl _)
    (raises : ∀ j, s'.request j ≠ s.request j → ∃ h rest, pc = .wakeAsked h j rest := by
      exact fun _ changed => absurd rfl changed)
    (requested : ∀ j, j ≠ i → s'.requested j = s.requested j := by
      intro _ ne; first | rfl | exact update_of_ne ne _ _)
    (waiting : ∀ j, j ≠ i → s'.waiting j = s.waiting j := by
      intro _ ne; first | rfl | exact update_of_ne ne _ _)
    (gen : ∀ j, j ≠ i → s'.gen j = s.gen j := by
      intro _ ne; first | rfl | exact update_of_ne ne _ _) : Wakes cqsts s' := by
  subst place
  have there : ∀ j, j ≠ i → s'.pcs j = s.pcs j := fun j h => by rw [pcs, update_of_ne h]
  have here : s'.pcs i = pc := by rw [pcs, update_self]
  have unwoken : ∀ j, j ≠ i → s'.woken j = false → s.woken j = false := by
    intro j ne h
    cases old : s.woken j with
    | false => rfl
    | true =>
      rw [woken j ne old] at h
      cases h
  refine ⟨fun j g asleep still behind => ?_, fun j => ?_, fun j g asleep still => ?_,
    fun j asleep still => ?_⟩
  all_goals obtain rfl | h := eq_or_ne j i
  · rw [here] at asleep
    exact absurd behind (sleeps g asleep).1
  · rw [there j h] at asleep
    by_cases raised : s'.request j = s.request j
    · rw [raised, gen j h] at behind
      obtain ⟨k, g', rest, waker⟩ := wakes.asked j g asleep (unwoken j h still) behind
      by_cases mover : k = i
      · subst mover
        rw [wakesAsked j g' rest waker] at still
        cases still
      · exact ⟨k, g', rest, by rw [there k mover]; exact waker⟩
    · obtain ⟨g', rest, waker⟩ := raises j raised
      exact ⟨i, g', rest, by rw [here]; exact waker⟩
  · rw [here]
    exact told
  · rw [there j h]
    exact (wakes.told j).mono (requested j h) request
  · rw [here] at asleep
    exact .inl ((sleeps _ asleep).2.1 g rfl)
  · rw [there j h] at asleep
    have marked : s.requested j = true := by
      have told := wakes.told j
      rw [asleep] at told
      exact (told g rfl).1
    rcases wakes.notified j g asleep (unwoken j h still) with
      ⟨k, mem, less⟩ | ⟨k, rest, g', notify, mem⟩
    · by_cases mover : k = i
      · subst mover
        rcases publishes with same | ⟨g', new⟩
        · exact .inl ⟨k, mem, by rw [same]; exact less⟩
        · exact .inr ⟨k, cqsts, g', by rw [here]; exact new, all j⟩
      · exact .inl ⟨k, mem, by rw [gen k mover]; exact less⟩
    · by_cases mover : k = i
      · subst mover
        rcases notifies j rest g' notify mem h marked with woke | ⟨rest', g'', new, later⟩
        · rw [woke] at still
          cases still
        · exact .inr ⟨k, rest', g'', by rw [here]; exact new, later⟩
      · exact .inr ⟨k, rest, g', by rw [there k mover]; exact notify, mem⟩
  · rw [here] at asleep
    exact (sleeps none asleep).2.2 rfl
  · rw [there j h] at asleep
    rw [waiting j h]
    exact wakes.idle j asleep (unwoken j h still)

theorem plain (all : ∀ i, i ∈ cqsts) {old pc : Pc ι}
    (place : s.pcs i = old) (pcs : s'.pcs = update s.pcs i pc) (told : s'.Told cqsts i pc)
    (awake : ∀ g, pc ≠ .asleep g := by simp)
    (notWaker : ∀ j h rest, old ≠ .wakeAsked h j rest := by simp)
    (notNotifier : ∀ j rest h, old ≠ .notify (j :: rest) h := by simp)
    (request : s'.request = s.request := by rfl) (gen : s'.gen = s.gen := by rfl)
    (requested : ∀ j, j ≠ i → s'.requested j = s.requested j := by
      intro _ ne; first | rfl | exact update_of_ne ne _ _)
    (woken : ∀ j, j ≠ i → s'.woken j = s.woken j := by
      intro _ ne; first | rfl | exact update_of_ne ne _ _)
    (waiting : ∀ j, j ≠ i → s'.waiting j = s.waiting j := by
      intro _ ne; first | rfl | exact update_of_ne ne _ _) :
    Wakes cqsts s' := by
  refine wakes.moves all place pcs told (fun j ne h => by rw [woken j ne, h])
    (fun j h rest here => absurd here (notWaker j h rest)) ?_
    (fun g asleep => absurd asleep (awake g)) (.inl (by rw [gen]))
    (fun j => Nat.le_of_eq (congrFun request j).symm)
    (fun j raised => absurd (by rw [request]) raised) requested waiting fun j _ => by rw [gen]
  intro j rest h here mem
  cases rest with
  | nil => cases mem
  | cons k rest => exact absurd here (notNotifier k rest h)

/-- Callers of `rcu_defer` wake the thread of a CPU where they wait. -/
theorem caller
    (same : s'.pcs = s.pcs ∧ s'.gen = s.gen ∧ s'.request = s.request ∧ s'.requested = s.requested)
    (woken : ∀ j, s'.woken j = false → s.woken j = false ∧ s'.waiting j = s.waiting j) :
    Wakes cqsts s' := by
  obtain ⟨pcs, gen, request, requested⟩ := same
  refine ⟨?_, ?_, ?_, ?_⟩
  · rw [pcs, gen, request]
    exact fun j g asleep still => wakes.asked j g asleep (woken j still).1
  · intro j
    rw [pcs]
    exact (wakes.told j).mono (by rw [requested]) fun k =>
      Nat.le_of_eq (congrFun request k).symm
  · rw [pcs, gen]
    exact fun j g asleep still => wakes.notified j g asleep (woken j still).1
  · rw [pcs]
    intro j asleep still
    rw [(woken j still).2]
    exact wakes.idle j asleep (woken j still).1

theorem thread (all : ∀ i, i ∈ cqsts) (positive : 0 < size)
    (tokens : Tokens size s) (taken : s.thread cqsts i = some s') : Wakes cqsts s' := by
  have told := wakes.told i
  have full := tokens.full i
  rw [State.thread] at taken
  split at taken
  · cases taken
  cases here : s.pcs i <;> simp only [here] at taken told
  case top =>
    cases taken
    refine wakes.plain all here rfl ?_ ?_
    · split
      · trivial
      · intro h eq
        cases eq
    · intro g
      split <;> simp
  case fetch =>
    cases taken
    exact wakes.plain all here rfl trivial
  case mark g =>
    cases taken
    exact wakes.plain all here rfl ⟨update_self _ _ _, fun j mem _ => .inr mem⟩
  case ask g rest =>
    cases rest with
    | nil =>
      cases taken
      refine wakes.plain all here rfl ?_
      intro h eq
      cases eq
      exact ⟨told.1, fun j mem ne => (told.2 j mem ne).resolve_right (not_mem_nil)⟩
    | cons j rest =>
      dsimp only at taken
      split at taken <;> cases taken
      next itself =>
        refine wakes.plain all here rfl ⟨told.1, fun k mem ne =>
          (told.2 k mem ne).imp_right fun later => ?_⟩
        exact (mem_cons.1 later).resolve_left fun eq => ne (eq.trans itself)
      · have raised : ∀ k, s.request k ≤ update s.request j (max (s.request j) g) k := by
          intro k
          by_cases h : k = j
          · subst h
            simp only [update_self]
            omega
          · simp [h]
        refine wakes.moves all here rfl ⟨told.1, fun k mem ne => ?_⟩ (fun _ _ h => h) (by simp)
          (by simp) (by simp) (.inl rfl) raised fun k changed => ?_
        · by_cases h : k = j
          · subst h
            left
            simp only [update_self]
            omega
          · refine (told.2 k mem ne).imp (fun le => Nat.le_trans le (raised k)) fun later => ?_
            exact (mem_cons.1 later).resolve_left h
        · by_cases h : k = j
          · subst h
            exact ⟨g, rest, rfl⟩
          · exact absurd (update_of_ne h _ _) changed
  case wakeAsked g j rest =>
    cases taken
    refine wakes.moves all here rfl told (fun _ _ => s.woken_update) ?_
    intro k h rest' waker
    cases waker
    exact update_self _ _ _
  case store v g =>
    cases taken
    exact wakes.moves all here rfl told (fun _ _ h => h) (by simp) (by simp) (by simp) (.inr ⟨g, rfl⟩)
  case notify rest g =>
    cases rest with
    | nil =>
      cases taken
      cases g with
      | none =>
        exact wakes.plain all here rfl trivial
      | some g =>
        exact wakes.plain all here rfl told
    | cons j rest =>
      dsimp only at taken
      split at taken <;> cases taken
      · refine wakes.moves all here rfl told (fun _ _ => s.woken_update) (by simp) ?_
        intro k rest' h notifier mem ne marked
        cases notifier
        rcases mem_cons.1 mem with rfl | later
        · exact .inl (update_self _ _ _)
        · exact .inr ⟨rest, g, rfl, later⟩
      next skipped =>
        refine wakes.moves all here rfl told (fun _ _ h => h) (by simp) ?_
        intro k rest' h notifier mem ne marked
        cases notifier
        rcases mem_cons.1 mem with rfl | later
        · exact absurd ⟨ne, marked⟩ skipped
        · exact .inr ⟨rest, g, rfl, later⟩
  case wait g =>
    cases taken
    split
    · exact wakes.plain all here rfl told
    next notReady =>
      refine wakes.moves all here rfl told (fun j ne h => (update_of_ne ne _ _).trans h) (by simp)
        (by simp) ?_
      intro g' eq
      cases eq
      refine ⟨fun behind => notReady ?_, fun h eq => ?_, fun eq => ?_⟩
      · cases g <;> simp [ready, behind]
      · subst eq
        have slow : ¬∀ j ∈ cqsts, h ≤ s.gen j := by
          intro reached
          apply notReady
          simp only [ready, Bool.or_eq_true, decide_eq_true_eq, all_eq_true]
          exact .inr reached
        exact Classical.byContradiction fun none => slow fun j mem =>
          Nat.le_of_not_lt fun less => none ⟨j, mem, less⟩
      · subst eq
        apply Classical.byContradiction
        intro some
        have length := full some
        apply notReady
        have nonempty : s.callbacks i (s.buf i) ≠ [] := by
          intro nil
          rw [nil] at length
          exact absurd length (Nat.ne_of_lt positive)
        simp [ready, nonempty]
  case asleep g =>
    split at taken <;> cases taken
    exact wakes.plain all here rfl told
  case serve g =>
    cases taken
    refine wakes.plain all here rfl ?_ ?_
    · split
      · exact told
      · split <;> trivial
    · intro g'
      split
      · simp
      · split <;> simp
  case clean =>
    cases taken
    exact wakes.plain all here rfl trivial
  case run l =>
    cases l <;> cases taken <;> exact wakes.plain all here rfl trivial
  case stuck l =>
    cases taken

/-- A call that finds no room wakes the thread of its CPU. -/
theorem put (n : ℕ) : Wakes cqsts (s.put size i n) := by
  unfold State.put
  split
  · refine wakes.caller ⟨rfl, rfl, rfl, rfl⟩ fun j still => ?_
    by_cases h : j = i
    · subst h
      simp at still
    · simpa [h] using still
  · exact wakes.caller ⟨rfl, rfl, rfl, rfl⟩ fun j still => ⟨still, rfl⟩

theorem step (all : ∀ i, i ∈ cqsts) (positive : 0 < size) (tokens : Tokens size s) {event : Event ι}
    (taken : s.step cqsts size event = some s') : Wakes cqsts s' := by
  have called : Wakes cqsts s.call :=
    wakes.caller ⟨rfl, rfl, rfl, rfl⟩ fun j still => ⟨still, rfl⟩
  cases event with
  | thread i => exact wakes.thread all positive tokens taken
  | defer i =>
    cases taken
    exact called.put _
  | deferInside i =>
    simp only [State.step] at taken
    split at taken <;> cases taken
    rename_i l here
    have place : (s.call.put size i s.tokens).pcs i = .run l := by rw [Inv.put_pcs]; exact here
    refine (called.put s.tokens).plain all place rfl ?_ ?_
    · split <;> trivial
    · intro g
      split <;> simp
  | retry i n =>
    simp only [State.step] at taken
    split at taken <;> cases taken
    have left : Wakes cqsts { s with retry := update s.retry i ((s.retry i).erase n) } :=
      wakes.caller ⟨rfl, rfl, rfl, rfl⟩ fun j still => ⟨still, rfl⟩
    exact left.put n
  | enter i =>
    simp only [State.step] at taken
    split at taken <;> cases taken
    exact wakes.caller ⟨rfl, rfl, rfl, rfl⟩ fun j still => ⟨still, rfl⟩
  | exit i =>
    cases taken
    exact wakes.caller ⟨rfl, rfl, rfl, rfl⟩ fun j still => ⟨still, rfl⟩
  | wake i =>
    cases taken
    refine wakes.caller ⟨rfl, rfl, rfl, rfl⟩ fun j still => ⟨?_, rfl⟩
    by_cases h : j = i
    · subst h
      simp at still
    · simpa [h] using still

end

end Wakes

theorem Runs.wakes {s : State ι} (run : Runs cqsts size s) (all : ∀ i, i ∈ cqsts)
    (positive : 0 < size) : Wakes cqsts s := by
  have both : Inv cqsts size s ∧ Wakes cqsts s := by
    refine run.invariant (I := fun s => Inv cqsts size s ∧ Wakes cqsts s) ?_ ?_
    · rintro _ rfl
      exact ⟨init_inv, by constructor <;> simp [init, Told]⟩
    · rintro s s' _ ⟨inv, wakes⟩ ⟨event, taken⟩
      exact ⟨inv.step all taken, wakes.step all positive inv.tokens taken⟩
  exact both.2

/-! ## The contract -/

/-- All activity has come to rest: no thread can take a step, no section is active, no woken
caller is left and no callback waits for room. -/
structure State.Quiet (cqsts : List ι) (s : State ι) : Prop where
  threads : ∀ i, s.thread cqsts i = none
  sections : ∀ i, s.active i = none
  callers : ∀ i, s.retry i = []
  callbacks : ∀ i l, s.pcs i ≠ .stuck l

namespace State.Quiet

variable {s : State ι}

/-- At rest every thread sleeps and was not woken. -/
theorem asleep (quiet : s.Quiet cqsts) (i : ι) : ∃ g, s.pcs i = .asleep g ∧ s.woken i = false := by
  have stuck := quiet.threads i
  have notStuck := quiet.callbacks i
  rw [thread, if_neg (by simp [quiet.sections i])] at stuck
  cases here : s.pcs i with
  | asleep g =>
    simp only [here] at stuck
    cases woken : s.woken i with
    | false => exact ⟨g, rfl, rfl⟩
    | true => simp [woken] at stuck
  | stuck l => exact absurd here (notStuck l)
  | ask g rest => cases rest <;> simp only [here] at stuck <;> (try split at stuck) <;> cases stuck
  | notify rest g => cases rest <;> simp only [here] at stuck <;> (try split at stuck) <;> cases stuck
  | run l => cases l <;> simp only [here] at stuck <;> cases stuck
  | _ => simp only [here] at stuck; cases stuck

/-- At rest no thread waits for a generation: whoever has not published it would have been
woken. -/
theorem idle (quiet : s.Quiet cqsts) (inv : Inv cqsts size s) (wakes : Wakes cqsts s) (i : ι) :
    s.pcs i = .asleep none ∧ s.woken i = false := by
  obtain ⟨g, here, still⟩ := quiet.asleep i
  cases g with
  | none => exact ⟨here, still⟩
  | some g =>
    exfalso
    rcases wakes.notified i g here still with ⟨j, mem, less⟩ | ⟨j, rest, h, notifier, _⟩
    · have good := inv.grace.good i
      have told := wakes.told i
      rw [here] at good told
      have ne : j ≠ i := by
        rintro rfl
        exact absurd (good g rfl).2 (Nat.not_le_of_lt less)
      obtain ⟨g', there, unwoken⟩ := quiet.asleep j
      have behind : s.gen j < s.request j := Nat.lt_of_lt_of_le less ((told g rfl).2 j mem ne)
      obtain ⟨k, h, rest, waker⟩ := wakes.asked j g' there unwoken behind
      obtain ⟨g'', sleeper, _⟩ := quiet.asleep k
      rw [waker] at sleeper
      cases sleeper
    · obtain ⟨g', sleeper, _⟩ := quiet.asleep j
      rw [notifier] at sleeper
      cases sleeper

end State.Quiet

/-- Callers never touch a batch or exchange buffers. -/
theorem State.step_batches {s s' : State ι} {event : Event ι} (caller : ∀ i, event ≠ .thread i)
    (taken : s.step cqsts size event = some s') (j : ι) :
    s'.buf j = s.buf j ∧ s'.callbacks j (!s.buf j) = s.callbacks j (!s.buf j) := by
  have put : ∀ (r : State ι) (i : ι) (n : ℕ), (r.put size i n).buf j = r.buf j ∧
      (r.put size i n).callbacks j (!r.buf j) = r.callbacks j (!r.buf j) := by
    intro r i n
    unfold put
    split
    · exact ⟨rfl, rfl⟩
    · refine ⟨rfl, ?_⟩
      simp only [setBuffer]
      grind
  cases event with
  | thread i => exact absurd rfl (caller i)
  | defer i =>
    cases taken
    exact put _ _ _
  | deferInside i | retry i n =>
    simp only [step] at taken
    split at taken <;> cases taken
    exact put _ _ _
  | enter i =>
    simp only [step] at taken
    split at taken <;> cases taken
    exact ⟨rfl, rfl⟩
  | exit i | wake i =>
    cases taken
    exact ⟨rfl, rfl⟩

/-- **Deferred callbacks and grace periods.**  In every state of every run:

* a callback runs at most once, and every deferred callback has run or is in exactly one
  place: with a waiting or woken caller, in a buffer, or taken to be run;
* a callback that was taken or has run outlived every read-side section that was active
  when it was deferred;
* the other buffer is empty unless a batch waits there for its grace period, callers of
  `rcu_defer` leave that buffer and the choice of the buffers alone, and no buffer holds
  more than it has room for;
* when all activity has come to rest, every callback has run except those in the current
  buffer of a CPU whose thread sleeps and was not woken.
-/
theorem callbacks_outlive_readers {s : State ι} (run : Runs cqsts size s)
    (all : ∀ i, i ∈ cqsts) (positive : 0 < size) :
    (∀ n, s.ran n ≤ 1) ∧ (∀ n, s.ran n = 1 ↔ s.loc n = .done) ∧
    (∀ n, n < s.tokens ↔ s.loc n ≠ .unborn) ∧
    ((∀ i n, n ∈ s.waiting i ↔ s.loc n = .waiting i) ∧ (∀ i n, n ∈ s.retry i ↔ s.loc n = .retry i) ∧
      (∀ i b n, n ∈ s.callbacks i b ↔ s.loc n = .buffered i b) ∧
      ∀ i n, n ∈ (s.pcs i).batch ↔ s.loc n = .running i) ∧
    (∀ n, s.ran n = 1 ∨ (∃ i, n ∈ (s.pcs i).batch) →
      ∀ j start, s.active j = some start → s.called n < start) ∧
    (∀ i, (s.pcs i).collecting = false → s.callbacks i (!s.buf i) = []) ∧
    (∀ event s', (∀ i, event ≠ .thread i) → s.step cqsts size event = some s' →
      ∀ j, s'.buf j = s.buf j ∧ s'.callbacks j (!s.buf j) = s.callbacks j (!s.buf j)) ∧
    (∀ i b, (s.callbacks i b).length ≤ size) ∧
    (s.Quiet cqsts → ∀ n, n < s.tokens → s.ran n = 1 ∨
      ∃ i, n ∈ s.callbacks i (s.buf i) ∧ s.pcs i = .asleep none ∧ s.woken i = false) := by
  have inv := run.inv all
  have wakes := run.wakes all positive
  have ranDone : ∀ n, s.ran n = 1 ↔ s.loc n = .done := by
    intro n
    rw [inv.tokens.ran n]
    split <;> simp_all
  have born : ∀ n, n < s.tokens ↔ s.loc n ≠ .unborn := by
    intro n
    rw [Ne, inv.tokens.born n, Nat.not_le]
  refine ⟨fun n => ?_, ranDone, born, ⟨inv.tokens.waiting, inv.tokens.retry, inv.tokens.buffered,
    inv.tokens.running⟩, fun n ended => ?_, inv.tokens.other,
    fun _ _ caller taken => step_batches caller taken, inv.tokens.room, fun quiet n bound => ?_⟩
  · rw [inv.tokens.ran n]
    split <;> decide
  · refine inv.grace.settled n ?_
    rcases ended with ran | ⟨i, mem⟩
    · exact .inr ((ranDone n).1 ran)
    · exact .inl ⟨i, (inv.tokens.running i n).1 mem⟩
  · have idle := quiet.idle inv wakes
    cases loc : s.loc n with
    | unborn => exact absurd loc ((born n).1 bound)
    | waiting i =>
      have mem := (inv.tokens.waiting i n).2 loc
      rw [wakes.idle i (idle i).1 (idle i).2] at mem
      cases mem
    | retry i =>
      have mem := (inv.tokens.retry i n).2 loc
      rw [quiet.callers i] at mem
      cases mem
    | buffered i b =>
      have mem := (inv.tokens.buffered i b n).2 loc
      by_cases current : b = s.buf i
      · subst current
        exact .inr ⟨i, mem, idle i⟩
      · have empty := inv.tokens.other i (by rw [(idle i).1]; rfl)
        rw [show b = !s.buf i by cases b <;> cases h : s.buf i <;> simp_all] at mem
        rw [empty] at mem
        cases mem
    | running i =>
      have mem := (inv.tokens.running i n).2 loc
      rw [(idle i).1] at mem
      cases mem
    | done => exact .inl ((ranDone n).2 loc)

/-- One CPU: a callback is deferred while a section is active, the section ends, and the
thread collects and runs the callback. -/
def oneGrace : Option (State Unit) :=
  [.enter (), .defer (), .exit (), .thread (), .thread (), .thread (), .thread (), .thread (),
    .thread (), .thread (), .thread (), .thread (), .thread (), .thread (), .thread ()].foldlM
    (step [()] deferQueueSize) init

theorem oneGrace_runs {s : State Unit} (run : oneGrace = some s) : Runs [()] deferQueueSize s :=
  Reachable.events (.start rfl) run

theorem oneGrace_callback_ran : ∃ s : State Unit, oneGrace = some s ∧ s.ran 0 = 1 ∧
    ∀ j start, s.active j = some start → s.called 0 < start := by
  refine ⟨_, rfl, rfl, ?_⟩
  have contract := callbacks_outlive_readers (oneGrace_runs rfl) (by simp) (by decide)
  exact contract.2.2.2.2.1 0 (.inl rfl)

/-- One CPU whose thread has gone to sleep when the callback is deferred. -/
def deferredLate : Option (State Unit) :=
  [.thread (), .thread (), .defer ()].foldlM (step [()] deferQueueSize) init

theorem deferredLate_runs {s : State Unit} (run : deferredLate = some s) : Runs [()] deferQueueSize s :=
  Reachable.events (.start rfl) run

/-- Nothing wakes the thread, so the callback does not run. -/
theorem deferredLate_never_runs : ∃ s : State Unit, Runs [()] deferQueueSize s ∧ s.tokens = 1 ∧
    s.ran 0 = 0 ∧ s.Quiet [()] := by
  refine ⟨_, deferredLate_runs rfl, rfl, rfl, ?_⟩
  exact ⟨fun _ => rfl, fun _ => rfl, fun _ => rfl, nofun⟩

end MiniOsv.Sync.Rcu
