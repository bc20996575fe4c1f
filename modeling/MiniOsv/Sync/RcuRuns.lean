/-
# Sync.RcuRuns -- what every run of the deferred callbacks keeps

Each step of a thread and of a caller of `rcu_defer` keeps both invariants.  The contract
is read off them; that a callback runs at all depends on a wake of its CPU's thread, which
`rcu_defer` gives only when the buffer is full.
-/
import MiniOsv.Sync.RcuInvariant

namespace MiniOsv.Sync.Rcu

open State
open Function

variable {ι : Type} [DecidableEq ι] {cqsts : List ι} {size : ℕ}

namespace Inv

variable {s s' : State ι} {i : ι}

section

variable (inv : Inv cqsts size s)

include inv

theorem moves {pc : Pc ι} {request : ι → ℕ} {requested woken : ι → Bool}
    (batch : pc.batch = (s.pcs i).batch)
    (other : pc.collecting = false → s.callbacks i (!s.buf i) = [])
    (raised : ∀ j, s.request j ≤ request j ∧ request j ≤ s.next)
    (good : Good cqsts { s with request := request } i pc) :
    Inv cqsts size { s with request := request, requested := requested, woken := woken
                            pcs := update s.pcs i pc } :=
  ⟨inv.tokens.moves batch other, inv.grace.moves raised good⟩

theorem goto {pc : Pc ι} {requested woken : ι → Bool} {old : Pc ι} (place : s.pcs i = old)
    (good : s.Good cqsts i pc) (other : pc.collecting = false → s.callbacks i (!s.buf i) = [] := by
      simp [Pc.collecting, Pc.target])
    (batch : pc.batch = old.batch := by rfl) :
    Inv cqsts size { s with requested := requested, woken := woken
                            pcs := update s.pcs i pc } :=
  inv.moves (by rw [batch, place]) other (fun j => ⟨Nat.le_refl _, (inv.grace.known j).2⟩) good

theorem thread (all : ∀ i, i ∈ cqsts) (taken : s.thread cqsts i = some s') : Inv cqsts size s' := by
  have good := inv.grace.good i
  have other := inv.tokens.other i
  rw [State.thread] at taken
  split at taken
  · cases taken
  rename_i running
  have running : s.active i = none := by simpa using running
  cases here : s.pcs i <;> simp only [here] at taken good other
  case top =>
    cases taken
    exact ⟨inv.tokens.exchange here, inv.grace.exchange inv.tokens⟩
  case fetch =>
    cases taken
    exact ⟨inv.tokens.moves (by rw [here]; rfl) (by simp [Pc.collecting, Pc.target]),
      inv.grace.fetch inv.tokens⟩
  case mark g =>
    cases taken
    exact inv.goto here good
  case ask g rest =>
    cases rest with
    | nil =>
      cases taken
      refine inv.goto here ⟨good.2, good.1.2.1, fun h eq => ?_⟩
      cases eq
      exact ⟨Nat.le_refl _, good.1⟩
    | cons j rest =>
      dsimp only at taken
      split at taken <;> cases taken
      · exact inv.goto here good
      · refine inv.moves (by rw [here]; rfl) (by simp [Pc.collecting, Pc.target]) (fun k => ?_) good
        have known := (inv.grace.known k).2
        have bound := good.1.2.1
        by_cases h : k = j
        · subst h
          simp only [update_self]
          omega
        · simp only [update_of_ne h]
          omega
  case wakeAsked g j rest =>
    cases taken
    exact inv.goto here good
  case store v g =>
    cases taken
    exact ⟨inv.tokens.moves (by rw [here]; rfl) other, inv.grace.store here running⟩
  case notify rest g =>
    cases rest with
    | nil =>
      cases taken
      cases g with
      | none => exact inv.goto here trivial fun _ => other rfl
      | some g => exact inv.goto here good
    | cons j rest =>
      dsimp only at taken
      split at taken <;> cases taken <;> exact inv.goto here good other
  case wait g =>
    cases taken
    split
    next ready =>
      refine inv.goto here (fun h eq => ⟨good h eq, ?_⟩) other
      cases eq
      simpa [State.ready] using ready
    · exact inv.goto here good other
  case asleep g =>
    split at taken <;> cases taken
    exact inv.goto here good other
  case serve g =>
    cases taken
    split
    next behind =>
      refine inv.goto here ⟨Nat.le_of_lt behind, (inv.grace.known i).2, ?_⟩ other
      intro h eq
      obtain ⟨⟨batch, own⟩, _⟩ := good h eq
      exact ⟨Nat.le_trans own (Nat.le_of_lt behind), batch⟩
    next upToDate =>
      cases g with
      | none => exact inv.goto here trivial fun _ => other rfl
      | some g =>
        obtain ⟨⟨batch, _⟩, reason⟩ := good g rfl
        refine inv.goto here fun n mem => ?_
        exact inv.grace.settled_of_all all batch (reason.resolve_left upToDate) mem
  case clean =>
    cases taken
    exact ⟨inv.tokens.take here, inv.grace.take here⟩
  case run l =>
    cases l with cases taken
    | nil =>
      exact inv.goto here trivial other
    | cons n l =>
      exact ⟨inv.tokens.run here, inv.grace.run inv.tokens here⟩
  case stuck l =>
    cases taken

/-! ## The callers -/

theorem defer : Inv cqsts size (s.call.put size i s.tokens) := by
  refine ⟨inv.tokens.defer, inv.grace.caller inv.tokens ?_ ?_ ?_ ?_ ?_ ?_⟩
  · unfold put call
    split <;> exact ⟨rfl, rfl, rfl, rfl, rfl, rfl, rfl⟩
  · intro j
    unfold put call
    split
    · rfl
    · simp [setBuffer]
      grind
  · unfold put call
    split <;> exact Nat.le_succ _
  · intro n bound
    have old : update s.called s.tokens s.now n = s.called n :=
      update_of_ne (Nat.ne_of_lt bound) _ _
    unfold put call
    split <;> exact old
  · intro n bound
    have new : n < s.tokens + 1 → update s.called s.tokens s.now n < s.now + 1 := by
      intro bound
      by_cases last : n = s.tokens
      · subst last
        simp
      · rw [update_of_ne last]
        exact Nat.lt_succ_of_lt (inv.grace.called n (by omega))
    unfold put call at bound ⊢
    split at bound <;> simp [*]
  · intro n
    unfold put call
    split <;> grind

theorem retried {n : ℕ} (mem : n ∈ s.retry i) :
    Inv cqsts size (put size
      { s with retry := update s.retry i ((s.retry i).erase n) } i n) := by
  refine ⟨inv.tokens.retried mem, inv.grace.caller inv.tokens ?_ ?_ ?_ ?_ ?_ ?_⟩
  · unfold put
    split <;> exact ⟨rfl, rfl, rfl, rfl, rfl, rfl, rfl⟩
  · intro j
    unfold put
    split
    · rfl
    · simp [setBuffer]
      grind
  · unfold put
    split <;> exact Nat.le_refl _
  · intro m bound
    unfold put
    split <;> rfl
  · unfold put
    split <;> exact inv.grace.called
  · intro m
    unfold put
    split <;> grind

theorem enter :
    Inv cqsts size { s with active := update s.active i (some s.now), now := s.now + 1 } := by
  refine ⟨{ inv.tokens with }, inv.grace.sections inv.tokens (Nat.le_succ _) fun j start act => ?_⟩
  by_cases h : j = i
  · subst h
    simp only [update_self, Option.some.injEq] at act
    exact .inr ⟨act.symm, Nat.lt_succ_self _⟩
  · rw [update_of_ne h] at act
    exact .inl act

theorem exit : Inv cqsts size { s with active := update s.active i none } := by
  refine ⟨{ inv.tokens with }, inv.grace.sections inv.tokens (Nat.le_refl _) fun j start act => ?_⟩
  by_cases h : j = i
  · subst h
    simp at act
  · rw [update_of_ne h] at act
    exact .inl act

end

/-- `rcu_defer` moves no thread. -/
theorem put_pcs (s : State ι) (j : ι) (n : ℕ) : (s.put size j n).pcs = s.pcs := by
  unfold put
  split <;> rfl

theorem step (inv : Inv cqsts size s) (all : ∀ i, i ∈ cqsts) {event : Event ι}
    (taken : s.step cqsts size event = some s') : Inv cqsts size s' := by
  cases event with
  | thread i => exact inv.thread all taken
  | defer i =>
    cases taken
    exact inv.defer
  | deferInside i =>
    simp only [State.step] at taken
    split at taken <;> cases taken
    rename_i l here
    have deferred : Inv cqsts size (s.call.put size i s.tokens) := inv.defer
    have place : (s.call.put size i s.tokens).pcs i = .run l := by rw [put_pcs]; exact here
    have other := deferred.tokens.other i (by rw [place]; rfl)
    split <;> exact deferred.goto place trivial fun _ => other
  | retry i n =>
    simp only [State.step] at taken
    split at taken <;> cases taken
    exact inv.retried (by assumption)
  | enter i =>
    simp only [State.step] at taken
    split at taken <;> cases taken
    exact inv.enter
  | exit i =>
    cases taken
    exact inv.exit
  | wake i =>
    cases taken
    exact ⟨{ inv.tokens with }, { inv.grace with
      good := fun j => Frame.good ⟨Nat.le_refl _, rfl, Nat.le_refl _, fun _ => Nat.le_refl _, rfl,
        fun _ _ => rfl, fun _ _ => rfl, fun _ _ h => h⟩ (inv.grace.good j) }⟩

end Inv

theorem Runs.inv {s : State ι} (run : Runs cqsts size s) (all : ∀ i, i ∈ cqsts) :
    Inv cqsts size s := by
  refine run.invariant (I := Inv cqsts size) ?_ fun _ _ _ inv ⟨_, taken⟩ => inv.step all taken
  rintro _ rfl
  exact init_inv

end MiniOsv.Sync.Rcu
