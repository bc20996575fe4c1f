/-
# Sync.CondvarWakeAll -- `wake_all` gives every record away once

After `wake_all` has detached the list and released `_m`, its two loops run over records that it
unlinks and gives away as it goes, in an order that depends on the CPUs of the waiters.  The other
threads run in between: waiters whose record was given away return and reuse it, and the user mutex
links such records in its own queue.  The result of each comparison of CPUs is arbitrary.
-/
import MiniOsv.Sync.CondvarRuns

namespace MiniOsv.Sync.Condvar

open Theory List State Option
open Function (update_self update_of_ne)

variable {ι : Type} [DecidableEq ι]

/-- `wake_all` from the detached list on. -/
def Pc.regroups : Pc ι → Bool
  | .allUnlock _ | .allHead _ | .allSend _ _ | .allInner _ _ _ | .allInnerSend _ _ _ _
  | .allRelink _ _ _ _ => true
  | _ => false

/-- The record that the next step of a wake gives to the user mutex. -/
def Pc.gives : Pc ι → List ι
  | .oneSend r | .allSend r _ | .allInnerSend _ _ r _ => [r]
  | _ => []

/-- A run from the point where `t` has detached the list, to its return at most, with the records
that `t` has given away so far and the number of its steps. -/
inductive Regroup (t : ι) (s₀ : State ι) : List ι → ℕ → State ι → Prop where
  | start {wr : Option ι} : s₀.pcs t = .allUnlock wr → Regroup t s₀ [] 0 s₀
  | own {log : List ι} {n : ℕ} {s s' : State ι} (same : Bool) : Regroup t s₀ log n s →
      (s.pcs t).regroups = true → s.go t same = some s' →
      Regroup t s₀ (log ++ (s.pcs t).gives) (n + 1) s'
  | other {log : List ι} {n : ℕ} {s s' : State ι} {event : Event ι} : Regroup t s₀ log n s →
      (s.pcs t).regroups = true → (∀ same, event ≠ .go t same) → s.step event = some s' →
      Regroup t s₀ log n s'

/-! ## The steps that are left -/

/-- What the outer loop costs for `n` records, with an inner loop over the others each time. -/
def work : ℕ → ℕ
  | 0 => 0
  | n + 1 => work n + 3 * (n + 1)

/-- The length of the part of the list that starts at a pointer. -/
def ahead (l : List ι) : Option ι → ℕ
  | none => 0
  | some a => l.length - l.idxOf a

/-- A bound for the steps of a wake that holds the records `l`. -/
def Pc.left (l : List ι) : Pc ι → ℕ
  | .allUnlock _ => work l.length + 2
  | .allHead _ => work l.length + 1
  | .allSend _ _ => work l.length
  | .allInner _ _ r => work l.length + 3 * ahead l r + 2
  | .allInnerSend _ _ r _ => work l.length + 3 * ahead l (some r) + 1
  | .allRelink _ _ _ nextr => work l.length + 3 * ahead l nextr + 3
  | _ => 0

theorem ahead_eq {next : ι → Option ι} {p : Option ι} {kept rest : List ι}
    (nodup : (kept ++ rest).Nodup) (walk : Segment next p rest none) :
    ahead (kept ++ rest) p = rest.length := by
  cases rest with
  | nil =>
    rw [show p = none from walk]
    rfl
  | cons a rest =>
    have fresh : a ∉ kept := fun mem =>
      (nodup_append.1 nodup).2.2 a mem a mem_cons_self rfl
    rw [walk.head, ahead, idxOf_append_of_notMem fresh, idxOf_cons_self, length_append]
    omega

/-! ## Steps -/

/-- A step of the wake goes on: what it has given away and what it holds stay the same records, and
fewer steps are left. -/
structure Goes (t : ι) (s s' : State ι) : Prop where
  perm : ((s.pcs t).gives ++ s'.held t).Perm (s.held t)
  fewer : (s'.pcs t).left (s'.held t) < (s.pcs t).left (s.held t)
  place : (s'.pcs t).regroups = true ∨ s'.pcs t = .idle

variable {s s' : State ι} {t : ι}

theorem Goes.goto {old pc : Pc ι} (here : s.pcs t = old) (moved : s'.pcs t = pc ∧ s'.held t = s.held t)
    (nothing : old.gives = []) (fewer : pc.left (s.held t) < old.left (s.held t))
    (place : pc.regroups = true ∨ pc = .idle) : Goes t s s' := by
  obtain ⟨rfl, held⟩ := moved
  subst here
  refine ⟨?_, ?_, place⟩
  · rw [nothing, held]
    exact .refl _
  · rwa [held]

theorem Goes.send {r : ι} {pc : Pc ι} (gives : (s.pcs t).gives = [r]) (mem : r ∈ s.held t)
    (fewer : pc.left ((s.held t).erase r) < (s.pcs t).left (s.held t))
    (place : pc.regroups = true) : Goes t s (s.send t r pc) := by
  have at_t : (s.send t r pc).pcs t = pc := update_self ..
  have held : (s.send t r pc).held t = (s.held t).erase r := update_self ..
  refine ⟨?_, ?_, .inl (by rwa [at_t])⟩
  · rw [gives, held]
    exact (perm_cons_erase mem).symm
  · rwa [at_t, held]

/-- The wake is never blocked. -/
theorem Inv.regroups_go (inv : Inv s) (regroups : (s.pcs t).regroups = true) (same : Bool) :
    ∃ s', s.go t same = some s' ∧ Goes t s s' := by
  have holds := inv.holds t
  have nodup := inv.heldNodup t
  have goto (pc : Pc ι) : (s.goto t pc).pcs t = pc ∧ (s.goto t pc).held t = s.held t :=
    ⟨update_self .., rfl⟩
  cases here : s.pcs t <;> rw [here] at holds regroups <;> try cases regroups
  case allUnlock wr =>
    exact ⟨s.unlockM t (.allHead wr), by simp only [State.go, here],
      .goto here ⟨update_self .., rfl⟩ rfl (Nat.lt_succ_self _) (.inl rfl)⟩
  case allHead wr =>
    cases wr with
    | none =>
      exact ⟨s.goto t .idle, by simp only [State.go, here],
        .goto here (goto _) rfl (Nat.succ_pos _) (.inr rfl)⟩
    | some r =>
      exact ⟨s.goto t (.allSend r (s.next r)), by simp only [State.go, here],
        .goto here (goto _) rfl (Nat.lt_succ_self _) (.inl rfl)⟩
  case allSend r nextWr =>
    obtain ⟨rest, mine, walk⟩ := holds
    rw [mine] at nodup
    have scan : ahead ([] ++ rest) nextWr = rest.length := ahead_eq nodup.of_cons walk
    refine ⟨s.send t r (.allInner nextWr none nextWr), by simp only [State.go, here],
      .send (by rw [here]; rfl) (by rw [mine]; exact mem_cons_self) ?_ rfl⟩
    rw [here, mine, erase_cons_head]
    simp only [Pc.left, length_cons, work, nil_append] at scan ⊢
    omega
  case allInner nextWr prevr r =>
    cases r with
    | none =>
      exact ⟨s.goto t (.allHead nextWr), by simp only [State.go, here],
        .goto here (goto _) rfl (Nat.lt_succ_self _) (.inl rfl)⟩
    | some r =>
      cases same with
      | true =>
        exact ⟨s.goto t (.allInnerSend nextWr prevr r (s.next r)), by simp [State.go, here],
          .goto here (goto _) rfl (Nat.lt_succ_self _) (.inl rfl)⟩
      | false =>
        refine ⟨s.goto t (.allInner nextWr (some r) (s.next r)), by simp [State.go, here],
          .goto here (goto _) rfl ?_ (.inl rfl)⟩
        -- The pointer moves past `r`.
        obtain ⟨kept, rest, mine, -, -, after⟩ := holds
        obtain ⟨rest, rfl, beyond⟩ := after.exists_cons
        rw [mine] at nodup
        have before := ahead_eq nodup after
        rw [append_cons] at nodup
        have now := ahead_eq nodup beyond
        rw [mine]
        simp only [Pc.left, length_cons, append_assoc, singleton_append] at before now ⊢
        omega
  case allInnerSend nextWr prevr r nextr =>
    obtain ⟨kept, rest, mine, -, -, after⟩ := holds
    rw [mine] at nodup
    have fresh : r ∉ kept := fun mem =>
      (nodup_append.1 nodup).2.2 r mem r mem_cons_self rfl
    have erased : (s.held t).erase r = kept ++ rest := by
      rw [mine, erase_append_right _ fresh, erase_cons_head]
    have before : ahead (kept ++ r :: rest) (some r) = rest.length + 1 := by
      rw [ahead, idxOf_append_of_notMem fresh, idxOf_cons_self, length_append, length_cons]
      omega
    have now := ahead_eq (nodup.sublist ((sublist_cons_self r rest).append_left kept)) after
    refine ⟨s.send t r (.allRelink nextWr prevr r nextr), by simp only [State.go, here],
      .send (by rw [here]; rfl) (inv.inner_send here).1 ?_ rfl⟩
    rw [here, erased, mine]
    simp only [Pc.left, before, now, length_append, length_cons, ← Nat.add_assoc, work]
    omega
  case allRelink nextWr prevr r nextr =>
    have enabled := inv.not_null same (.inr (.inr (.inr ⟨nextWr, prevr, r, nextr, here⟩)))
    obtain ⟨s', taken⟩ := ne_none_iff_exists'.1 enabled
    refine ⟨s', taken, ?_⟩
    simp only [State.go, here] at taken
    split at taken
    · cases taken
      exact .goto here (goto _) rfl (Nat.lt_succ_self _) (.inl rfl)
    · split at taken <;> cases taken
      exact .goto here ⟨update_self .., rfl⟩ rfl (Nat.lt_succ_self _) (.inl rfl)

/-- Nobody else changes where the wake is and what it holds. -/
theorem State.go_other {u : ι} {same : Bool} (ne : t ≠ u) (taken : s.go u same = some s') :
    s'.pcs t = s.pcs t ∧ s'.held t = s.held t := by
  simp only [go, lockM, append] at taken
  split at taken
  all_goals try split at taken
  all_goals try split at taken
  all_goals cases taken
  all_goals refine ⟨update_of_ne ne _ _, ?_⟩
  all_goals first
    | rfl
    | exact update_of_ne ne _ _

theorem State.step_other (regroups : (s.pcs t).regroups = true) {event : Event ι}
    (other : ∀ same, event ≠ .go t same) (taken : s.step event = some s') :
    s'.pcs t = s.pcs t ∧ s'.held t = s.held t := by
  have elsewhere {u : ι} {pc : Pc ι} (at_u : s.pcs u = pc) (free : pc.regroups = false) : t ≠ u := by
    rintro rfl
    rw [at_u, free] at regroups
    cases regroups
  cases event
  case go u same => exact go_other (fun eq => other same (by rw [eq])) taken
  case grant u =>
    simp only [step, grant] at taken
    split at taken
    · split at taken
      · cases taken
        exact ⟨rfl, rfl⟩
      · split at taken <;> cases taken
        next at_u => exact ⟨update_of_ne (elsewhere at_u rfl) _ _, rfl⟩
        next at_u => exact ⟨update_of_ne (elsewhere at_u rfl) _ _, rfl⟩
    · cases taken
  case enqueue u p | unlock u =>
    obtain ⟨-, taken⟩ := ite_none_right_eq_some.1 taken
    cases taken
    exact ⟨rfl, rfl⟩
  case expire u | wakeOne u | wakeAll u =>
    obtain ⟨at_u, taken⟩ := ite_none_right_eq_some.1 taken
    cases taken
    exact ⟨update_of_ne (elsewhere at_u rfl) _ _, rfl⟩
  case lock u | wait u =>
    obtain ⟨at_u, taken⟩ := ite_none_right_eq_some.1 taken
    cases taken
    exact ⟨update_of_ne (elsewhere at_u.1 rfl) _ _, rfl⟩

/-! ## Runs -/

theorem Regroup.detached {s₀ : State ι} {log : List ι} {n : ℕ} (regroup : Regroup t s₀ log n s) :
    ∃ wr, s₀.pcs t = .allUnlock wr := by
  induction regroup with
  | start here => exact ⟨_, here⟩
  | own _ _ _ _ ih => exact ih
  | other _ _ _ _ ih => exact ih

/-- What holds along the run. -/
structure Regrouped (t : ι) (s₀ : State ι) (log : List ι) (n : ℕ) (s : State ι) : Prop where
  runs : Runs s
  perm : (log ++ s.held t).Perm (s₀.held t)
  steps : n + (s.pcs t).left (s.held t) ≤ work (s₀.held t).length + 2
  place : (s.pcs t).regroups = true ∨ s.pcs t = .idle

theorem Regroup.regrouped {s₀ : State ι} {log : List ι} {n : ℕ} (run : Runs s₀)
    (regroup : Regroup t s₀ log n s) : Regrouped t s₀ log n s := by
  induction regroup with
  | start here =>
    refine ⟨run, .refl _, ?_, .inl (by rw [here]; rfl)⟩
    simp only [here, Pc.left]
    omega
  | own same _ busy taken ih =>
    obtain ⟨_, went, goes⟩ := ih.runs.inv.regroups_go busy same
    cases went.symm.trans taken
    refine ⟨ih.runs.next ⟨.go t same, taken⟩, ?_, ?_, goes.place⟩
    · rw [append_assoc]
      exact (goes.perm.append_left _).trans ih.perm
    · have := goes.fewer
      have := ih.steps
      omega
  | other _ busy notMine taken ih =>
    obtain ⟨pc, held⟩ := step_other busy notMine taken
    refine ⟨ih.runs.next ⟨_, taken⟩, ?_, ?_, ?_⟩
    · rw [held]
      exact ih.perm
    · rw [pc, held]
      exact ih.steps
    · rw [pc]
      exact ih.place

/-- **`wake_all` gives every record of the detached list away exactly once, follows no pointer to a
record that it gave away, and ends**, whatever the comparisons of CPUs say and whatever the other
threads do meanwhile.  It is never blocked, and the number of its steps has a bound in the length
of the list. -/
theorem wakeAll_regroups {s₀ : State ι} {log : List ι} {n : ℕ} (run : Runs s₀)
    (regroup : Regroup t s₀ log n s) :
    (∃ wr, s₀.pcs t = .allUnlock wr ∧ Segment s₀.next wr (s₀.held t) none) ∧
      (s₀.held t).Nodup ∧ log.Nodup ∧ (∀ r ∈ log, r ∈ s₀.held t) ∧
      (∀ r ∈ (s.pcs t).touches, r ∉ log) ∧ n ≤ work (s₀.held t).length + 2 ∧
      (s.pcs t = .idle ∧ log.Perm (s₀.held t) ∨
        (s.pcs t).regroups = true ∧ ∀ same, ∃ s', s.go t same = some s') := by
  have regrouped := regroup.regrouped run
  have inv := regrouped.runs.inv
  have nodup := regrouped.perm.nodup_iff.2 (run.inv.heldNodup t)
  refine ⟨?_, run.inv.heldNodup t, nodup.of_append_left, fun r mem => ?_, fun r touched given => ?_,
    Nat.le_trans (Nat.le_add_right _ _) regrouped.steps, ?_⟩
  · obtain ⟨wr, here⟩ := regroup.detached
    have holds := run.inv.holds t
    rw [here] at holds
    exact ⟨wr, here, holds⟩
  · exact regrouped.perm.subset (mem_append_left _ mem)
  · exact (nodup_append.1 nodup).2.2 r given r (inv.touches_held touched) rfl
  · rcases regrouped.place with busy | idle
    · exact .inr ⟨busy, fun same => (inv.regroups_go busy same).imp fun _ went => went.1⟩
    · have nothing : s.held t = [] := by simpa [idle, Holds] using inv.holds t
      have perm := regrouped.perm
      rw [nothing, append_nil] at perm
      exact .inl ⟨idle, perm⟩

/-- A thread takes the user mutex and waits. -/
def waits (t : ℕ) : List (Event ℕ) :=
  [.lock t, .grant t, .wait t, .go t false, .go t false, .go t false, .go t false]

/-- Four waiters, and a wake up to the detached list. -/
def fourDetached : Option (State ℕ) :=
  (waits 1 ++ waits 2 ++ waits 3 ++ waits 4 ++
    [Event.wakeAll 0, .go 0 false, .go 0 false]).foldlM step init

/-- The thread 3 is on the CPU of 1, so that its record is unlinked behind that of 2; 4 is on the
CPU of 2, where it is the head of what is left. -/
theorem fourWaiters_regroup : ∃ s₀ s : State ℕ, fourDetached = some s₀ ∧
    Regroup 0 s₀ [1, 3, 2, 4] 16 s ∧ s.pcs 0 = .idle ∧ [1, 3, 2, 4].Perm (s₀.held 0) := by
  have start : Regroup 0 (fourDetached.get rfl) [] 0 _ := .start rfl
  have first := ((start.own false rfl rfl).own false rfl rfl).own false rfl rfl
  have third := (((first.own false rfl rfl).own true rfl rfl).own false rfl rfl).own false rfl rfl
  have second := (((third.own false rfl rfl).own false rfl rfl).own false rfl rfl).own false rfl rfl
  have fourth := ((second.own true rfl rfl).own false rfl rfl).own false rfl rfl
  have last := (fourth.own false rfl rfl).own false rfl rfl
  refine ⟨_, _, rfl, last, rfl, ?_⟩
  have run : Runs (fourDetached.get rfl) := Reachable.events (.start rfl) (some_get rfl).symm
  have all := (wakeAll_regroups run last).2.2.2.2.2.2
  rcases all with ⟨-, perm⟩ | ⟨busy, -⟩
  · exact perm
  · cases busy

end MiniOsv.Sync.Condvar
