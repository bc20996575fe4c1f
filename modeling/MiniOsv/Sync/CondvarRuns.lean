/-
# Sync.CondvarRuns -- every step of a condition variable keeps its lists

The steps are gone through one by one: the removal of a timed out waiter, the walk of
`wake_all` over the records it has taken, and the moves that change no list.  The contract
at the end is read off the invariant.
-/
import MiniOsv.Sync.CondvarInvariant

namespace MiniOsv.Sync.Condvar

open Theory List State Segment
open Function

variable {ι : Type} [DecidableEq ι]

attribute [local grind =] update_apply

namespace Inv

variable {s s' : State ι} {t : ι}

/-! ## A timeout -/

theorem unlink_first (inv : Inv s) (here : s.pcs t = .timeoutFirst) (first : s.oldest = some t) :
    Inv (s.unlink t (s.next t) (if s.next t = none then none else s.newest) s.next) := by
  have list := inv.list
  rw [first] at list
  obtain ⟨rest, queue, walk⟩ := list.exists_cons
  have erased : s.queue.erase t = rest := by rw [queue, erase_cons_head]
  refine inv.unlink (by rw [here]; rfl) (inv.holdsAt here) (by simp [queue])
    (fun _ _ => rfl) (by rwa [erased]) ?_
  rw [erased, inv.newest, queue]
  cases rest with
  | nil => simp [nil.1 walk]
  | cons a rest => simp [walk.head]

theorem unlink_next (inv : Inv s) {p : ι} (here : s.pcs t = .timeoutSearch (some p))
    (found : s.next p = some t) :
    Inv (s.unlink t s.oldest (if s.next t = none then some p else s.newest)
      (update s.next p (s.next t))) := by
  obtain ⟨passed, ahead, queue, before, after, missed, other⟩ := inv.search t _ here
  obtain ⟨ahead, rfl, toT⟩ := after.exists_cons
  rw [found] at toT
  obtain ⟨rest, rfl, beyond⟩ := toT.exists_cons
  have nodup := inv.queueNodup
  rw [queue] at nodup
  have ne : t ≠ p := fun h => other (by rw [h])
  have erased : s.queue.erase t = (passed ++ [p]) ++ rest := by
    rw [queue, erase_append_right _ missed, erase_cons_tail (by simpa using ne.symm),
      erase_cons_head, append_assoc, singleton_append]
  have fresh : p ∉ passed ∧ p ∉ rest := by
    simp only [nodup_append, nodup_cons, mem_cons] at nodup
    exact ⟨fun h => nodup.2.2 p h p (.inl rfl) rfl, fun h => nodup.2.1.1 (.inr h)⟩
  refine inv.unlink (by rw [here]; rfl) (inv.holdsAt here) (by simp [queue])
    (fun a outside => ?_) ?_ ?_
  · apply update_of_ne
    rintro rfl
    exact outside (by simp [queue])
  · rw [erased, Segment.append]
    have walk : Segment s.next s.oldest (passed ++ [p]) (some t) := Segment.concat.2 ⟨before, found⟩
    exact ⟨s.next t, walk.redirect fresh.1, beyond.update fresh.2⟩
  · rw [erased, inv.newest, queue]
    cases rest with
    | nil => simp [Segment.nil.1 beyond]
    | cons a rest => simp [beyond.head]

/-- The search goes on to the next record of the list. -/
theorem search_next (inv : Inv s) {p : ι} (here : s.pcs t = .timeoutSearch (some p))
    (missed : s.next p ≠ some t) : Searching s.next s.oldest s.queue t (s.next p) := by
  obtain ⟨passed, ahead, queue, before, after, away, other⟩ := inv.search t _ here
  obtain ⟨ahead, rfl, beyond⟩ := after.exists_cons
  have ne : t ≠ p := fun h => other (by rw [h])
  refine ⟨passed ++ [p], ahead, by simp [queue], concat.2 ⟨before, rfl⟩, beyond, ?_, missed⟩
  simp [away, ne]

/-- A record that the search does not find was chosen by a wake. -/
theorem chosen_of_not_found (inv : Inv s) (here : s.pcs t = .timeoutSearch none) :
    (s.place t).Chosen := by
  obtain ⟨passed, ahead, queue, before, after, missed, other⟩ := inv.search t _ here
  have nil : ahead = [] := after.eq_nil_iff.2 rfl
  have notQueued : s.place t ≠ .queued := by
    rw [Ne, ← inv.queued t, queue, nil]
    simpa using missed
  have fits := inv.fits t
  rw [here] at fits
  exact Or.resolve_left fits notQueued

/-! ## The walk of `wake_all` -/

variable {nextWr prevr nextr : Option ι}

section

variable (inv : Inv s)

include inv

theorem relink {r p : ι}
    (here : s.pcs t = .allRelink nextWr prevr r nextr) (prev : prevr = some p) :
    Inv { s with next := update s.next p nextr
                 pcs := update s.pcs t (.allInner nextWr prevr nextr) } := by
  have holds := inv.holds t
  rw [here] at holds
  obtain ⟨gone, kept, rest, all, before, last, after⟩ := holds
  obtain ⟨l, rfl⟩ : ∃ l, kept = l ++ [p] := List.getLast?_eq_some_iff.1 (last.symm.trans prev)
  have mem : p ∈ s.held t := by simp [all]
  have place : s.place p = .held t := (inv.isHeld t p).1 mem
  have nodup := inv.heldNodup t
  rw [all, nodup_append, nodup_append] at nodup
  have fresh : p ∉ l ∧ p ∉ rest :=
    ⟨fun h => nodup.1.2.2 p h p (by simp) rfl, fun h => nodup.2.2 p (by simp) p h rfl⟩
  have absent : s.place t = .absent := inv.fitsAt here
  have outside : ∀ l : List ι, p ∉ l → ∀ a ∈ l, update s.next p nextr a = s.next a :=
    fun l h a mem => update_of_ne (ne_of_mem_of_not_mem mem h) _ _
  have notQueued : p ∉ s.queue := fun h => by simpa [place] using (inv.queued p).1 h
  refine { inv with
    locked := fun u => ?_, fits := fun u => ?_, owns := fun u => ?_, fresh := fun u => ?_,
    list := inv.list.congr (outside _ notQueued), holds := fun w => ?_,
    search := fun u q searching => ?_, mutex := fun unset => ⟨(inv.mutex unset).1, fun u q => ?_⟩ }
  · have := inv.locked u
    have := inv.locked t
    grind [Pc.inM]
  · have := inv.fits u
    grind [Pc.Fits]
  · have := inv.owns u
    grind [Pc.mustOwn]
  · by_cases h : u = t
    · subst h
      simp [Pc.fresh]
    · simp only [update_of_ne h]
      intro new
      rw [update_of_ne, inv.fresh u new]
      rintro rfl
      rw [(inv.fits u).absent_of_fresh new] at place
      cases place
  · by_cases h : w = t
    · subst h
      simp only [update_self]
      exact ⟨l ++ [p], rest, all, before.redirect fresh.1, last, after.update fresh.2⟩
    · simp only [update_of_ne h]
      refine (inv.holds w).congr (outside _ fun theirs => ?_)
      have place' := (inv.isHeld w p).1 theirs
      rw [place] at place'
      cases place'
      exact h rfl
  · have old : s.pcs u = .timeoutSearch q := by grind
    exact (inv.search u q old).congr (outside _ notQueued)
  · have := (inv.mutex unset).2 u q
    grind

/-- `wake_one` forgets the user mutex if it took the last waiter. -/
theorem clear (here : s.pcs t = .oneClear) :
    Inv { s with userMutex := if s.oldest = none then false else s.userMutex
                 pcs := update s.pcs t .oneUnlock } := by
  have moved : Inv (s.goto t .oneUnlock) :=
    inv.goto here (inv.fitsAt here :) (inv.holdsAt here :)
  refine { moved with mutex := fun unset => ?_ }
  have alone : ∀ u, u ≠ t → (s.pcs u).inM = false := fun u => inv.only (by rw [here]; rfl)
  have sending : ∀ u r, update s.pcs t .oneUnlock u ≠ .oneSend r := by
    intro u r
    have := alone u
    grind [Pc.inM]
  by_cases empty : s.oldest = none
  · exact ⟨empty, sending⟩
  · simp only [empty, if_false] at unset
    exact ⟨(inv.mutex unset).1, sending⟩

/-- The inner loop has read the record behind `r`. -/
theorem inner_holds {nextWr prevr : Option ι} {r : ι}
    (here : s.pcs t = .allInner nextWr prevr (some r)) :
    Holds s.next (.allInnerSend nextWr prevr r (s.next r)) (s.held t) ∧
    Holds s.next (.allInner nextWr (some r) (s.next r)) (s.held t) := by
  have holds := inv.holds t
  rw [here] at holds
  obtain ⟨kept, rest, all, before, last, after⟩ := holds
  obtain ⟨rest, rfl, beyond⟩ := after.exists_cons
  refine ⟨⟨kept, rest, all, before, last, beyond⟩, kept ++ [r], rest, by simp [all], ?_, by simp,
    beyond⟩
  exact concat.2 ⟨before, rfl⟩

/-- The inner loop gives `r` away. -/
theorem inner_send {r : ι} (here : s.pcs t = .allInnerSend nextWr prevr r nextr) :
    r ∈ s.held t ∧ Holds s.next (.allRelink nextWr prevr r nextr) ((s.held t).erase r) := by
  have holds := inv.holds t
  have nodup := inv.heldNodup t
  rw [here] at holds
  obtain ⟨kept, rest, all, before, last, after⟩ := holds
  rw [all] at nodup ⊢
  have fresh : r ∉ kept := fun h => (nodup_append.1 nodup).2.2 r h r (by simp) rfl
  refine ⟨by simp, ?_, kept, rest, ?_, before, last, after⟩
  · exact fun mem => (nodup.mem_erase_iff.1 mem).1 rfl
  · rw [erase_append_right _ fresh, erase_cons_head]

/-- The record that was given away was the first one left. -/
theorem relink_first {r : ι} (here : s.pcs t = .allRelink nextWr prevr r nextr)
    (first : nextWr = some r) : Holds s.next (.allInner nextr prevr nextr) (s.held t) := by
  have holds := inv.holds t
  rw [here] at holds
  obtain ⟨gone, kept, rest, all, before, last, after⟩ := holds
  cases kept with
  | nil => exact ⟨[], rest, all, rfl, last, after⟩
  | cons a kept =>
    have head := before.head
    rw [first] at head
    cases head
    exact absurd (by simp [all]) gone

/-! ## Every step -/

theorem go {same : Bool} (taken : s.go t same = some s') : Inv s' := by
  have fits := inv.fits t
  have holds := inv.holds t
  have owns := inv.owns t
  rw [State.go] at taken
  cases here : s.pcs t <;> simp only [here] at taken fits holds owns
  case idle => cases taken
  case lockUser => cases taken
  case relock timedOut => cases taken
  case waitLock =>
    exact inv.lockM taken fits holds (fun _ => owns rfl) fun _ => inv.fresh t (by rw [here]; rfl)
  case waitAppend =>
    exact inv.append here taken
  case waitUnlockUser =>
    cases taken
    refine inv.moves (by simpa [here, Pc.inM] using inv.locked t) fits holds ?_
      fun u other held => ?_
    · intro woken
      rw [show s.place t = .queued from fits] at woken
      cases woken
    · rw [(owns rfl).1] at held
      cases held
      exact absurd rfl other
  case waitUnlock =>
    cases taken
    exact inv.unlockM here (.inl fits) holds
  case waiting =>
    split at taken <;> cases taken
    exact inv.goto here fits holds
  case check =>
    cases taken
    split
    · exact inv.goto here (by assumption) holds
    · exact inv.goto here fits holds
  case timeoutLock =>
    exact inv.lockM taken fits holds
  case timeoutFirst =>
    split at taken <;> cases taken
    · exact inv.unlink_first here (by assumption)
    · refine inv.goto here fits holds fun p h => ?_
      cases h
      exact ⟨[], s.queue, rfl, rfl, inv.list, by simp, by assumption⟩
  case timeoutSearch p =>
    cases p with
    | none =>
      cases taken
      exact inv.goto here (inv.chosen_of_not_found here) holds
    | some p =>
      dsimp only at taken
      split at taken <;> cases taken
      · exact inv.unlink_next here (by assumption)
      · refine inv.goto here fits holds fun q h => ?_
        cases h
        exact inv.search_next here (by assumption)
  case timeoutUnlock timedOut =>
    cases taken
    cases timedOut <;> exact inv.unlockM here fits holds
  case rewait =>
    split at taken <;> cases taken
    exact inv.goto here (by assumption) holds
  case final timedOut =>
    split at taken <;> cases taken
    next woken =>
      have held := inv.woken t woken
      refine inv.moves (by simpa [here, Pc.inM] using inv.locked t) ?_ holds (inv.woken t)
        (fun u other theirs => ?_) fun _ => ⟨held, rfl⟩
      · cases timedOut with
        | false => exact fits
        | true =>
          rw [woken] at fits
          cases fits
      · rw [held] at theirs
        cases theirs
        exact absurd rfl other
    · refine inv.goto here ?_ holds
      cases timedOut with
      | false => exact absurd fits (by assumption)
      | true => exact fits
  case returned timedOut =>
    cases taken
    exact inv.leave here
  case oneLock =>
    exact inv.lockM taken fits holds
  case onePop =>
    split at taken <;> cases taken
    · exact inv.goto here fits holds
    · exact inv.pop here (by assumption)
  case oneSend r =>
    split at taken <;> cases taken
    have mine : s.held t = [r] := holds
    exact inv.send here (by simp [mine]) fits (by simp [mine, Holds])
  case oneClear =>
    cases taken
    exact inv.clear here
  case oneUnlock =>
    cases taken
    exact inv.unlockM here fits holds
  case allLock =>
    exact inv.lockM taken fits holds
  case allDetach =>
    split at taken <;> cases taken
    exact inv.detach here
  case allUnlock wr =>
    cases taken
    exact inv.unlockM here fits holds
  case allHead wr =>
    cases wr with cases taken
    | none =>
      exact inv.goto here fits (eq_nil_iff holds |>.2 rfl)
    | some r =>
      exact inv.goto here fits (exists_cons holds)
  case allSend r nextWr =>
    cases taken
    obtain ⟨rest, mine, walk⟩ := holds
    refine inv.send here (by simp [mine]) fits ?_
    rw [mine, erase_cons_head]
    exact ⟨[], rest, rfl, rfl, rfl, walk⟩
  case allInner nextWr prevr r =>
    cases r with
    | none =>
      cases taken
      obtain ⟨kept, rest, mine, before, last, after⟩ := holds
      refine inv.goto here fits ?_
      rw [mine, after.eq_nil_iff.2 rfl, append_nil]
      exact before
    | some r =>
      dsimp only at taken
      split at taken <;> cases taken
      · exact inv.goto here fits (inv.inner_holds here).1
      · exact inv.goto here fits (inv.inner_holds here).2
  case allInnerSend nextWr prevr r nextr =>
    cases taken
    exact inv.send here (inv.inner_send here).1 fits (inv.inner_send here).2
  case allRelink nextWr prevr r nextr =>
    split at taken
    · cases taken
      exact inv.goto here fits (inv.relink_first here (by assumption))
    · split at taken <;> cases taken
      exact inv.relink here rfl

theorem grant (taken : s.grant t = some s') : Inv s' := by
  rw [State.grant] at taken
  split at taken
  next free =>
    split at taken
    · cases taken
      exact inv.wake free (by assumption)
    · have fits := inv.fits t
      have holds := inv.holds t
      have nobody : ∀ u, u ≠ t → s.holder = some u → some t = some u ∧ 1 = s.depth := by
        intro u _ held
        rw [free] at held
        cases held
      have unlocked := inv.locked t
      split at taken
      next here =>
        simp only [here] at fits holds unlocked
        cases taken
        exact inv.moves unlocked fits holds (fun _ => rfl) nobody
      next timedOut here =>
        simp only [here] at fits holds unlocked
        cases taken
        refine inv.moves unlocked ?_ holds (fun _ => rfl) nobody fun _ => ⟨rfl, rfl⟩
        cases timedOut with
        | false => exact absurd fits id
        | true => exact fits
      · cases taken
  · cases taken

theorem step {event : Event ι} (taken : s.step event = some s') : Inv s' := by
  cases event with simp only [State.step] at taken
  | lock t =>
    split at taken <;> cases taken
    rename_i called
    exact inv.goto called.1 (inv.fitsAt called.1 :) (inv.holdsAt called.1 :)
  | unlock t =>
    split at taken <;> cases taken
    rename_i called
    have fits := inv.fits t
    have holds := inv.holds t
    have unlocked := inv.locked t
    simp only [called.1] at fits holds unlocked
    have moved : Inv { s with holder := none, depth := 0
                              pcs := update s.pcs t .idle } := by
      refine inv.moves unlocked fits holds ?_ fun u other held => ?_
      · intro woken
        rw [show s.place t = .absent from fits] at woken
        cases woken
      · rw [called.2.1] at held
        cases held
        exact absurd rfl other
    rwa [← called.1, update_eq_self] at moved
  | wait t =>
    split at taken <;> cases taken
    rename_i called
    have absent : s.place t = .absent := inv.fitsAt called.1
    have made : Inv { s with next := update s.next t none } :=
      inv.write (by simp [absent]) (by simp [absent]) fun _ => rfl
    exact made.goto called.1 absent (inv.holdsAt called.1) (by simp) (fun _ => called.2) fun _ => update_self _ _ _
  | wakeOne t | wakeAll t =>
    split at taken <;> cases taken
    rename_i here
    split <;> exact inv.goto here (inv.fitsAt here :) (inv.holdsAt here :)
  | go t same => exact inv.go taken
  | expire t =>
    split at taken <;> cases taken
    rename_i here
    exact inv.goto here (inv.fitsAt here :) (inv.holdsAt here :)
  | grant t => exact inv.grant taken
  | enqueue t p =>
    split at taken <;> cases taken
    rename_i sent
    refine inv.write (by simp [sent]) (by simp [sent]) fun fresh => ?_
    rw [(inv.fits t).absent_of_fresh fresh] at sent
    cases sent

end

end Inv

theorem Runs.inv {s : State ι} (run : Runs s) : Inv s := by
  refine run.invariant (I := Inv) ?_ fun _ _ _ inv ⟨_, taken⟩ => inv.step taken
  rintro _ rfl
  exact init_inv

/-! ## The contract -/

/-- A waiter between the append of its record and its return. -/
def Pc.inWait : Pc ι → Bool
  | .waitUnlockUser | .waitUnlock | .waiting | .check | .timeoutLock | .timeoutFirst
  | .timeoutSearch _ | .timeoutUnlock _ | .rewait | .final _ | .relock _ | .returned _ => true
  | _ => false

/-- The records that a wake may still follow a pointer to. -/
def Pc.touches : Pc ι → List ι
  | .oneSend r => [r]
  | .allUnlock wr | .allHead wr => wr.toList
  | .allSend r nextWr => r :: nextWr.toList
  | .allInner nextWr prevr r => nextWr.toList ++ prevr.toList ++ r.toList
  | .allInnerSend nextWr prevr r nextr => nextWr.toList ++ prevr.toList ++ r :: nextr.toList
  | .allRelink nextWr prevr r nextr =>
    (if nextWr = some r then [] else nextWr.toList) ++ prevr.toList ++ nextr.toList
  | _ => []

/-- New waiters come last and the others keep their order. -/
theorem State.step_queue {s s' : State ι} {event : Event ι} (taken : s.step event = some s') :
    s'.queue.Sublist s.queue ∨
    ∃ t same, event = .go t same ∧ s.pcs t = .waitAppend ∧ s'.queue = s.queue ++ [t] := by
  cases event with
  | go t same =>
    simp only [step, go, lockM] at taken
    split at taken
    case h_4 here =>
      refine .inr ⟨t, same, rfl, here, ?_⟩
      rw [append] at taken
      split at taken <;> cases taken <;> rfl
    all_goals left
    all_goals try split at taken
    all_goals try split at taken
    all_goals cases taken
    all_goals first
      | exact .refl _
      | exact erase_sublist
      | exact tail_sublist _
      | exact nil_sublist _
  | grant t =>
    left
    simp only [step, grant] at taken
    split at taken
    all_goals try split at taken
    all_goals try split at taken
    all_goals cases taken
    all_goals exact .refl _
  | _ =>
    left
    simp only [step] at taken
    split at taken <;> cases taken
    exact .refl _

namespace Inv

variable {s s' : State ι} {t : ι}

section

variable (inv : Inv s)

include inv

theorem oldest_eq_head : s.oldest = s.queue.head? := by
  have list := inv.list
  cases queue : s.queue with rw [queue] at list
  | nil =>
    exact list
  | cons r rest =>
    exact list.head

theorem mem_queue_iff :
    t ∈ s.queue ↔ (s.pcs t).inWait = true ∧ ¬(s.place t).Chosen ∧ s.place t ≠ .removed := by
  have fits := inv.fits t
  rw [inv.queued t]
  unfold Pc.Fits at fits
  cases place : s.place t <;> split at fits <;> simp_all [Pc.inWait, Place.Chosen]

/-- A pointer of a wake leads to a record that it holds. -/
theorem touches_held {r : ι} (touches : r ∈ (s.pcs t).touches) : r ∈ s.held t := by
  have holds := inv.holds t
  cases here : s.pcs t <;> rw [here] at touches holds
  case oneSend a =>
    rw [show s.held t = [a] from holds]
    exact touches
  case allUnlock wr | allHead wr =>
    simpa using mem_of_start holds touches
  case allSend a nextWr =>
    obtain ⟨rest, mine, walk⟩ := holds
    rw [mine]
    rcases mem_cons.1 touches with rfl | later
    · exact mem_cons_self
    · exact mem_cons_of_mem _ (by simpa using walk.mem_of_start later)
  case allInner nextWr prevr a =>
    obtain ⟨kept, rest, mine, before, last, after⟩ := holds
    have further : r ∈ a.toList → r ∈ rest := fun h => by simpa using after.mem_of_start h
    rw [mine, mem_append]
    simp only [Pc.touches, mem_append] at touches
    rcases touches with (first | prev) | this
    · exact (before.mem_of_start first).imp_right further
    · rw [last] at prev
      exact .inl (mem_of_getLast? (by simpa using prev))
    · exact .inr (further this)
  case allInnerSend nextWr prevr a nextr =>
    obtain ⟨kept, rest, mine, before, last, after⟩ := holds
    rw [mine, mem_append, mem_cons]
    simp only [Pc.touches, mem_append, mem_cons] at touches
    rcases touches with (first | prev) | this | later
    · exact (before.mem_of_start first).imp_right fun h => .inl (by simpa [eq_comm] using h)
    · rw [last] at prev
      exact .inl (mem_of_getLast? (by simpa using prev))
    · exact .inr (.inl this)
    · exact .inr (.inr (by simpa using after.mem_of_start later))
  case allRelink nextWr prevr a nextr =>
    obtain ⟨gone, kept, rest, mine, before, last, after⟩ := holds
    rw [mine, mem_append]
    simp only [Pc.touches, mem_append] at touches
    rcases touches with (first | prev) | later
    · split at first
      · simp at first
      next ne =>
        refine .inl ((before.mem_of_start first).resolve_right fun h => ne ?_)
        rw [Option.mem_toList] at first h
        exact first.trans h.symm
    · rw [last] at prev
      exact .inl (mem_of_getLast? (by simpa using prev))
    · exact .inr (by simpa using after.mem_of_start later)
  all_goals
    simp [Pc.touches] at touches

/-- Where `wait` returns, its value tells whether a wake chose the record. -/
theorem returned_iff {timedOut : Bool} (here : s.pcs t = .returned timedOut) :
    (timedOut = false ↔ s.place t = .woken) ∧ (timedOut = true ↔ s.place t = .removed) := by
  have fits := inv.fits t
  rw [here] at fits
  cases timedOut with
  | false => simp [show s.place t = .woken from fits]
  | true => simp [show s.place t = .removed from fits]

/-- No null pointer is followed. -/
theorem not_null (same : Bool)
    (here : s.pcs t = .waitAppend ∨ (∃ r, s.pcs t = .oneSend r) ∨ s.pcs t = .allDetach ∨
      ∃ nextWr prevr r nextr, s.pcs t = .allRelink nextWr prevr r nextr) :
    s.go t same ≠ none := by
  rcases here with here | ⟨r, here⟩ | here | ⟨nextWr, prevr, r, nextr, here⟩
  · simp only [State.go, here, State.append]
    split
    · simp
    · simp
    next o oldest newest =>
      have nil : s.queue = [] := List.getLast?_eq_none_iff.1 (inv.newest.symm.trans newest)
      rw [inv.list.eq_nil_iff.1 nil] at oldest
      cases oldest
  · have set : s.userMutex = true := by
      apply Classical.byContradiction
      intro unset
      exact (inv.mutex (by simpa using unset)).2 t r here
    simp [State.go, here, set]
  · have fine : s.oldest = none ∨ s.userMutex = true := by
      cases set : s.userMutex with
      | true => exact .inr rfl
      | false => exact .inl (inv.mutex set).1
    simp [State.go, here, fine]
  · have holds := inv.holds t
    rw [here] at holds
    obtain ⟨gone, kept, rest, mine, before, last, after⟩ := holds
    simp only [State.go, here]
    split
    · simp
    next ne =>
      split
      · have nil : kept = [] := List.getLast?_eq_none_iff.1 last.symm
        rw [nil] at before
        exact absurd before ne
      · simp

end

end Inv

/-- **The queue discipline of a condition variable.**  In every state of every run:

* the pointers form the list of the waiters that no wake has chosen and no timeout has
  removed, in the order of their arrival, and `newest` is its last record;
* `wake_one` takes the first waiter of the list;
* a record is in the hand of at most one wake and is given to the user mutex at most once,
  and a wake that is over has given away what it chose;
* where `wait` returns it returns 0 exactly if its record was chosen and `ETIMEDOUT`
  exactly if its timeout removed it; no list, no wake and not the user mutex has its
  record; and the thread owns the user mutex once.
-/
theorem queue_discipline {s : State ι} (run : Runs s) :
    (Segment s.next s.oldest s.queue none ∧ s.newest = s.queue.getLast? ∧ s.queue.Nodup) ∧
    (∀ t, t ∈ s.queue ↔ (s.pcs t).inWait = true ∧ ¬(s.place t).Chosen ∧ s.place t ≠ .removed) ∧
    (∀ event s', s.step event = some s' → s'.queue.Sublist s.queue ∨
      ∃ t same, event = .go t same ∧ s.pcs t = .waitAppend ∧ s'.queue = s.queue ++ [t]) ∧
    (∀ t same r rest, s.pcs t = .onePop → s.queue = r :: rest →
      ∃ s', s.go t same = some s' ∧ s'.queue = rest ∧ s'.pcs t = .oneSend r ∧
        s'.place r = .held t) ∧
    (∀ w r, r ∈ (s.pcs w).touches → s.place r = .held w) ∧
    (∀ r, s.sends r ≤ 1 ∧ ∀ w, s.place r = .held w → s.sends r = 0) ∧
    (∀ w r, s.pcs w = .idle → s.place r ≠ .held w) ∧
    (∀ t timedOut, s.pcs t = .returned timedOut →
      (timedOut = false ↔ (s.place t).Chosen) ∧ (timedOut = true ↔ s.place t = .removed) ∧
      s.place t ≠ .queued ∧ (∀ w, s.place t ≠ .held w) ∧ s.place t ≠ .sent ∧
      s.holder = some t ∧ s.depth = 1) ∧
    (∀ t same, s.pcs t = .waitAppend ∨ (∃ r, s.pcs t = .oneSend r) ∨ s.pcs t = .allDetach ∨
      (∃ nextWr prevr r nextr, s.pcs t = .allRelink nextWr prevr r nextr) →
      s.go t same ≠ none) := by
  have inv := run.inv
  refine ⟨⟨inv.list, inv.newest, inv.queueNodup⟩, fun t => inv.mem_queue_iff,
    fun _ _ => step_queue, fun t same r rest here queue => ?_,
    fun w r touches => (inv.isHeld w r).1 (inv.touches_held touches), fun r => ⟨?_, fun w held => ?_⟩,
    fun w r idle held => ?_, fun t timedOut here => ?_, fun t same => inv.not_null same⟩
  · have first : s.oldest = some r := by rw [inv.oldest_eq_head, queue, List.head?_cons]
    refine ⟨s.pop t r, ?_, ?_, ?_, ?_⟩
    · simp [State.go, here, first]
    · simp [State.pop, queue]
    · simp [State.pop]
    · simp [State.pop]
  · rw [inv.sends r]
    split <;> decide
  · rw [inv.sends r, held]
    simp
  · have holds := inv.holds w
    rw [idle] at holds
    have mem := (inv.isHeld w r).2 held
    rw [show s.held w = [] from holds] at mem
    cases mem
  · obtain ⟨zero, expired⟩ := inv.returned_iff here
    have own := inv.owns t (by rw [here]; rfl)
    cases timedOut with
    | false =>
      have place := zero.1 rfl
      simp [place, Place.Chosen, own]
    | true =>
      have place := expired.1 rfl
      simp [place, Place.Chosen, own]

/-- Thread `true` waits, its timer expires, and before it can remove its record thread
`false` wakes it. -/
def expiredAndChosen : Option (State Bool) :=
  [.lock true, .grant true, .wait true, .go true false, .go true false, .go true false,
    .go true false, .wakeOne false, .go false false, .expire true, .go true false, .go false false,
    .go false false, .grant true, .go false false, .go false false, .go true false, .go true false,
    .go true false, .go true false, .go true false, .go true false].foldlM step init

theorem expiredAndChosen_runs {s : State Bool} (run : expiredAndChosen = some s) : Runs s :=
  Reachable.events (.start rfl) run

theorem expiredAndChosen_returns_zero : ∃ s : State Bool, expiredAndChosen = some s ∧
    s.pcs true = .returned false ∧ (s.place true).Chosen ∧ s.holder = some true := by
  refine ⟨_, rfl, rfl, ?_⟩
  have discipline := queue_discipline (expiredAndChosen_runs rfl)
  have atReturn := discipline.2.2.2.2.2.2.2.1 true false rfl
  exact ⟨atReturn.1.1 rfl, rfl⟩

end MiniOsv.Sync.Condvar
