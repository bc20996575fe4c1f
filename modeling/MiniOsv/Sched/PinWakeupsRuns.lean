/-
# Sched.PinWakeupsRuns -- when moving a thread keeps the wake-up queues sound

Where the helper does not move a thread that somebody else is waking, its steps keep the claims on
the thread too, so a pushed thread is never linked already and the links of each queue stay those
of its contents (`reachedAllowed_linked`).

The helper does not make sure of that: a thread that it finds `waking` it moves and wakes again,
and the second push takes the node on which the first queue ends (`pinned_twice_linked`).
-/
import MiniOsv.Sched.PinWakeupsSteps

namespace MiniOsv.Sched.PinWakeups

open Theory Helper List Status
open Theory.SpareQueue (Represents)
open Function
open Option (ite_none_right_eq_some)

set_option linter.unusedSectionVars false

section Runs

variable {ι κ ω ν : Type} [DecidableEq ι] [DecidableEq κ] [DecidableEq ω] [DecidableEq ν]
variable [Fintype ι] [Fintype ω] {s s' : State ι κ ω ν}

/-! ## Helpers -/

variable {a : ι}

/-- A claim that the next helper makes as the one before it did counts as often. -/
theorem tally_claims {next : Option (Helper ι κ)} {claim : Claim} {t : κ}
    (same : claims claim t next = claims claim t (s.helper a)) :
    tally (claims claim t) (s.setHelper a next).helper =
      tally (claims claim t) s.helper := by
  have change := tally_update (claims claim t) s.helper a next
  simp only [State.setHelper]
  omega

theorem Inv.setHelper (inv : Inv s) {next : Option (Helper ι κ)}
    (claims : ∀ claim t, claim ≠ .nothing →
      claims claim t next = claims claim t (s.helper a))
    (ok : ∀ h, next = some h → h.Ok s a) : Inv (s.setHelper a next) := by
  refine { inv with
    wakings := fun t => by rw [tally_claims (claims .marked t (by simp))]; exact inv.wakings t
    queueds := fun t => by rw [tally_claims (claims .taken t (by simp))]; exact inv.queueds t
    helping := fun b h helper => ?_ }
  simp only [State.setHelper, update_apply] at helper
  split at helper
  case isTrue same =>
    subst same
    exact (ok h helper).same rfl rfl rfl
  case isFalse => exact (inv.helping b h helper).same rfl rfl rfl

variable {h : Helper ι κ}

section

variable (inv : Inv s)

include inv

theorem Inv.setPlace (helper : s.helper a = some h)
    (place : Place) (ok : { h with place := place }.Ok s a) :
    Inv (s.setHelper a (some { h with place := place })) := by
  refine inv.setHelper (fun claim t _ => by rw [helper]; rfl) fun h' same => ?_
  rw [← Option.some.inj same]
  exact ok

theorem Inv.endHelper (helper : s.helper a = some h)
    (free : h.claim = .nothing) : Inv (s.setHelper a none) := by
  refine inv.setHelper (fun claim t some => ?_) (by simp)
  rw [helper]
  simp [claims, free, Ne.symm some]

theorem Inv.pin {a target : ι} {t : κ} (free : s.helper a = none) (cpu : s.cpu t = a)
    (away : s.current a ≠ t) : Inv (s.setHelper a (some ⟨t, target, .test, .nothing⟩)) := by
  refine inv.setHelper (fun claim u some => ?_) fun h same => ?_
  · rw [free]
    simp [claims, Ne.symm some]
  · rw [← Option.some.inj same]
    exact ⟨fun _ => ⟨cpu, away⟩, by simp, by simp, by simp, by simp⟩

section

variable (helper : s.helper a = some h)

include helper

omit inv in
theorem tally_made (free : h.claim = .nothing) {place : Place} {made claim : Claim} {u : κ}
    (counts : .nothing ≠ claim) :
    tally (claims claim u) (update s.helper a (some { h with place := place, claim := made })) =
      tally (claims claim u) s.helper + if h.thread = u ∧ made = claim then 1 else 0 := by
  have change := tally_update (claims claim u) s.helper a
    (some { h with place := place, claim := made })
  simp only [helper, claims, free, counts, and_false, if_false] at change
  omega

theorem Inv.markWaking (place : h.place = .mark) (waiting : s.status h.thread = .waiting) :
    Inv ((s.setStatus h.thread .waking).setHelper a
      (some { h with place := .look, claim := .marked })) := by
  have own := inv.helping a h helper
  have free : h.claim = .nothing := own.unclaimed (.inr (.inl place))
  refine ⟨fun u => ?_, fun u => ?_, inv.destined, inv.linked, inv.ready, inv.here,
    fun b h' other => ?_, inv.noticed, inv.represents, fun u woken => ?_⟩
  · have before := inv.wakings u
    simp only [State.setHelper, State.setStatus, tally_made helper free, ne_eq,
      reduceCtorEq, not_false_eq_true, and_true]
    by_cases same : u = h.thread
    · subst same
      rw [is_of_ne (by simp [waiting])] at before
      rw [update_self, is_self, if_pos rfl]
      omega
    · rw [update_of_ne same, if_neg (Ne.symm same)]
      omega
  · have before := inv.queueds u
    rw [← is_update_status (t := h.thread) (by simp [waiting]) (show Status.waking ≠ _ by simp)] at before
    simpa [State.setHelper, State.setStatus, tally_made helper free] using before
  · simp only [State.setHelper, State.setStatus, update_apply] at other
    split at other
    case isTrue same =>
      subst same
      rw [← Option.some.inj other]
      exact ⟨fun _ => own.early (by rw [place]; rfl), by simp, by simp, by simp, by simp⟩
    case isFalse =>
      exact (inv.helping_status h.thread .waking (fun _ _ _ _ _ => rfl) b h' other).same rfl rfl rfl
  · simp only [State.setHelper, State.setStatus, update_apply] at woken ⊢
    split_ifs with same
    · exact .inl rfl
    · exact inv.kept u woken

/-- The CPU of a thread changes while nothing of it is queued anywhere. -/
theorem Inv.changeCpu (early : h.place.early = true) (place : Place)
    (idle : ¬ s.Underway h.thread) (unready : ∀ b, h.thread ∉ s.runqueue b)
    (ok : { h with place := place }.Ok (s.setCpu h.thread h.target) a) :
    Inv ((s.setCpu h.thread h.target).setHelper a (some { h with place := place })) := by
  have same : ∀ claim u, claims claim u (some { h with place := place }) =
      claims claim u (s.helper a) := fun claim u => by rw [helper]; rfl
  refine ⟨fun u => ?_, fun u => ?_, fun w c u tcpu pushing => ?_, fun q u mem => ?_,
    fun b u mem => ?_, fun b => ?_, fun b h' other => ?_, inv.noticed, inv.represents,
    inv.kept⟩
  · rw [tally_claims (s := s.setCpu h.thread h.target) (same .marked u)]
    exact inv.wakings u
  · rw [tally_claims (s := s.setCpu h.thread h.target) (same .taken u)]
    exact inv.queueds u
  · have other : u ≠ h.thread := by
      rintro rfl
      exact idle (.inl ⟨w, c, .inr ⟨tcpu, pushing⟩⟩)
    exact (update_of_ne other _ _).trans (inv.destined w c u tcpu pushing)
  · have other : u ≠ h.thread := by
      rintro rfl
      exact idle (.inr ⟨q, mem⟩)
    exact (update_of_ne other _ _).trans (inv.linked q u mem)
  · have other : u ≠ h.thread := by
      rintro rfl
      exact unready b mem
    exact (update_of_ne other _ _).trans (inv.ready b u mem)
  · have other : s.current b ≠ h.thread := inv.not_current helper early
    exact (update_of_ne other _ _).trans (inv.here b)
  · simp only [State.setHelper, State.setCpu, update_apply] at other
    split at other
    case isTrue same =>
      subst same
      rw [← Option.some.inj other]
      exact ok.same rfl rfl rfl
    case isFalse away =>
      obtain ⟨early', movable, moved, taken, marked⟩ := inv.helping b h' other
      refine ⟨fun place => ?_, movable, moved, taken, marked⟩
      -- two helpers that are early are on the CPU of their thread
      have apart : h'.thread ≠ h.thread := fun same => away <| by
        rw [← (early' place).1, same, ((inv.helping a h helper).early early).1]
      exact ⟨(update_of_ne apart _ _).trans (early' place).1, (early' place).2⟩

theorem Inv.takeReady (place : h.place = .erase) (mem : h.thread ∈ s.runqueue a) :
    Inv ((s.setRunqueue a ((s.runqueue a).erase h.thread)).setHelper a
      (some { h with place := .moveQueued, claim := .taken })) := by
  have own := inv.helping a h helper
  have free : h.claim = .nothing := own.unclaimed (.inr (.inr place))
  refine ⟨fun u => ?_, fun u => ?_, inv.destined, inv.linked, fun b u ready => ?_, inv.here,
    fun b h' other => ?_, inv.noticed, inv.represents, inv.kept⟩
  · simpa [State.setHelper, State.setRunqueue, tally_made helper free] using inv.wakings u
  · have gone := tally_update (List.count u) s.runqueue a ((s.runqueue a).erase h.thread)
    have before := inv.queueds u
    simp only [State.setHelper, State.setRunqueue, tally_made helper free, ne_eq,
      reduceCtorEq, not_false_eq_true, and_true]
    by_cases same : u = h.thread
    · subst same
      have := count_pos_iff.2 mem
      rw [count_erase_self] at gone
      rw [if_pos rfl]
      omega
    · rw [count_erase_of_ne same] at gone
      rw [if_neg (Ne.symm same)]
      omega
  · simp only [State.setHelper, State.setRunqueue, update_apply] at ready
    split at ready
    case isTrue same => exact same ▸ inv.ready a u (mem_of_mem_erase ready)
    case isFalse => exact inv.ready b u ready
  · simp only [State.setHelper, State.setRunqueue, update_apply] at other
    split at other
    case isTrue same =>
      subst same
      rw [← Option.some.inj other]
      exact ⟨fun _ => own.early (by rw [place]; rfl), by simp, by simp, by simp, by simp⟩
    case isFalse => exact (inv.helping b h' other).same rfl rfl rfl

/-- The helper stores `waiting` and calls `wake`. -/
theorem Inv.release (claimed : h.claim ≠ .nothing) {w : ω} (idle : s.wakers w = .idle) :
    Inv (((s.setStatus h.thread .waiting).setWaker w (.cas a h.thread false)).setHelper a none) := by
  refine ⟨fun u => ?_, fun u => ?_, fun v c u tcpu pushing => ?_, inv.linked, inv.ready, inv.here,
    fun b h' other => ?_, fun b c filled => ?_, inv.represents, fun u woken => ?_⟩
  · have calls := tally_update (Wake.pend u) s.wakers w (.cas a h.thread false)
    have gone := tally_update (claims .marked u) s.helper a none
    have before := inv.wakings u
    simp only [State.setHelper, State.setWaker, State.setStatus]
    simp only [idle, Wake.pend] at calls
    simp only [helper, claims] at gone
    by_cases same : u = h.thread
    · subst same
      rw [update_self, is_of_ne (by simp)]
      cases claim : h.claim with
      | nothing => exact absurd claim claimed
      | marked =>
        rw [inv.status_of_marked helper claim, is_self] at before
        simp only [claim, and_self, if_true] at gone
        omega
      | taken =>
        rw [inv.status_of_taken helper claim, is_of_ne (by simp)] at before
        simp only [claim, reduceCtorEq, and_false, if_false] at gone
        omega
    · rw [update_of_ne same]
      simp only [Ne.symm same, false_and, if_false] at gone
      omega
  · have gone := tally_update (claims .taken u) s.helper a none
    have before := inv.queueds u
    simp only [State.setHelper, State.setWaker, State.setStatus]
    simp only [helper, claims] at gone
    by_cases same : u = h.thread
    · subst same
      rw [update_self, is_of_ne (by simp)]
      cases claim : h.claim with
      | nothing => exact absurd claim claimed
      | marked =>
        rw [inv.status_of_marked helper claim, is_of_ne (by simp)] at before
        simp only [claim, reduceCtorEq, and_false, if_false] at gone
        omega
      | taken =>
        rw [inv.status_of_taken helper claim, is_self] at before
        simp only [claim, and_self, if_true] at gone
        omega
    · rw [update_of_ne same]
      simp only [Ne.symm same, false_and, if_false] at gone
      omega
  · simp only [State.setHelper, State.setWaker, State.setStatus, update_apply] at pushing
    split at pushing
    · cases pushing
    · exact inv.destined v c u tcpu pushing
  · simp only [State.setHelper, State.setWaker, State.setStatus, update_apply] at other
    split at other
    · cases other
    · exact (inv.helping_status h.thread .waiting (fun _ _ _ _ _ => rfl) b h'
        other).same rfl rfl rfl
  · exact inv.noticed_waker (.cas a h.thread false) (by simp [idle]) filled
  · by_cases same : u = h.thread
    · subst same
      exact .inr (.inr ⟨update_self .., w, a, false, update_self ..⟩)
    · have status : (((s.setStatus h.thread .waiting).setWaker w (.cas a h.thread false)).setHelper a
          none).status u = s.status u := update_of_ne same _ _
      rw [status]
      exact inv.kept_waker (.cas a h.thread false) woken (by simp [idle])

end

/-! ## Every step -/

theorem Inv.stepWaker {w : ω} (stepped : s.stepWaker w = some s') : Inv s' := by
  unfold State.stepWaker at stepped
  cases place : s.wakers w with
  | idle => simp [place] at stepped
  | cas c t fromMutex =>
    simp only [place] at stepped
    split at stepped
    case isTrue asleep => cases stepped; exact inv.casDone place (asleep.imp_right And.right)
    case isFalse awake => cases stepped; exact inv.casFailed place fun waiting => awake (.inl waiting)
  | load c t => simp only [place] at stepped; cases stepped; exact inv.load place
  | push c t tcpu => simp only [place] at stepped; cases stepped; exact inv.push place
  | mark c tcpu => simp only [place] at stepped; cases stepped; exact inv.mark place

section

variable (helper : s.helper a = some h)

include helper

/-- A helper that has marked its thread, or taken it, finds it so. -/
theorem Inv.unclaimed_of_status (waking : s.status h.thread ≠ .waking)
    (queued : s.status h.thread ≠ .queued) : h.claim = .nothing := by
  cases claim : h.claim with
  | nothing => rfl
  | marked => exact absurd (inv.status_of_marked helper claim) waking
  | taken => exact absurd (inv.status_of_taken helper claim) queued

theorem Inv.stepLook
    (place : h.place = .look) {w : ω} (stepped : s.stepHelper a w = some s') : Inv s' := by
  have own := inv.helping a h helper
  have early := own.early (by rw [place]; rfl)
  have untaken : h.claim ≠ .taken := fun taken => by simpa [place] using own.taken taken
  simp only [State.stepHelper, helper, place] at stepped
  have move : (s.status h.thread).movable = true →
      Inv (s.setHelper a (some { h with place := .move })) := fun movable =>
    inv.setPlace helper .move ⟨fun _ => early, fun _ => movable, by simp,
      fun taken => absurd taken untaken, fun _ => .inr (.inl rfl)⟩
  have leave : s.status h.thread ≠ .waking → s.status h.thread ≠ .queued →
      Inv (s.setHelper a none) := fun waking queued =>
    inv.endHelper helper (inv.unclaimed_of_status helper waking queued)
  cases status : s.status h.thread <;> simp only [status] at stepped
  case prestarted | sendingLock | waking => cases stepped; exact move (by rw [status]; rfl)
  case queued =>
    cases stepped
    have unmarked : h.claim ≠ .marked := fun marked => by
      simpa [status] using inv.status_of_marked helper marked
    exact inv.setPlace helper .erase ⟨fun _ => early, by simp, by simp,
      fun taken => absurd taken untaken, fun marked => absurd marked unmarked⟩
  case unstarted | waiting | running | terminated =>
    cases stepped
    exact leave (by simp [status]) (by simp [status])

theorem Inv.moveMarked (place : h.place = .move) (idle : ¬ s.Underway h.thread) :
    Inv ((s.setCpu h.thread h.target).setHelper a (some { h with place := .relook })) := by
  have own := inv.helping a h helper
  have movable := own.moving place
  refine inv.changeCpu helper (by rw [place]; rfl) .relook idle (fun b ready => ?_)
    ⟨by simp [Place.early], by simp, by simp, fun taken => ?_, fun _ => .inr (.inr (.inl rfl))⟩
  · rw [inv.status_of_ready ready] at movable
    cases movable
  · simpa [place] using own.taken taken

theorem Inv.moveTaken (place : h.place = .moveQueued) :
    Inv ((s.setCpu h.thread h.target).setHelper a (some { h with place := .release })) := by
  have taken := (inv.helping a h helper).moved place
  have queued := inv.status_of_taken helper taken
  have unlinked := inv.unclaimed (t := h.thread) (by simp [queued])
  refine inv.changeCpu helper (by rw [place]; rfl) .release ?_ (fun b ready => ?_)
    ⟨by simp [Place.early], by simp, by simp, fun _ => .inr rfl, fun marked => ?_⟩
  · rintro (⟨w, c, waker⟩ | ⟨q, mem⟩)
    · have none := unlinked.1 w
      obtain loading | ⟨tcpu, pushing⟩ := waker
      · simp [loading, Wake.pend] at none
      · simp [pushing, Wake.pend] at none
    · exact unlinked.2.1 q mem
  · -- the one claim on a queued thread is the helper's
    have total := inv.queueds h.thread
    rw [queued, is_self] at total
    have mine := le_tally (claims .taken h.thread) s.helper a
    simp only [helper, claims, taken, and_self, if_true] at mine
    have listed := le_tally (List.count h.thread) s.runqueue b
    have := count_pos_iff.2 ready
    omega
  · exact absurd (taken.symm.trans marked) (by simp)

end

theorem Inv.stepHelper {w : ω} (allowed : s.Allowed (.helper a w))
    (stepped : s.stepHelper a w = some s') : Inv s' := by
  cases helper : s.helper a with
  | none => simp [State.stepHelper, helper] at stepped
  | some h =>
    have own := inv.helping a h helper
    have condition := allowed h helper
    simp only [State.stepHelper, helper] at stepped
    cases place : h.place <;> simp only [place] at condition stepped
    case test =>
      cases stepped
      have untaken : h.claim ≠ .taken := fun taken => by simpa [place] using own.taken taken
      have unmarked : h.claim ≠ .marked := fun marked => by simpa [place] using own.marked marked
      have early := own.early (by rw [place]; rfl)
      split
      · exact inv.setPlace helper .mark ⟨fun _ => early, by simp, by simp,
          fun taken => absurd taken untaken, fun marked => absurd marked unmarked⟩
      · exact inv.setPlace helper .look ⟨fun _ => early, by simp, by simp,
          fun taken => absurd taken untaken, fun _ => .inl rfl⟩
    case mark =>
      cases stepped
      exact inv.markWaking helper place condition
    case look =>
      exact inv.stepLook (w := w) helper place (by simpa only [State.stepHelper, helper, place])
    case move =>
      cases stepped
      exact inv.moveMarked helper place condition
    case relook =>
      split at stepped
      case isTrue =>
        cases stepped
        exact inv.setPlace helper .release ⟨by simp [Place.early], by simp, by simp,
          fun _ => .inr rfl, fun _ => .inr (.inr (.inr rfl))⟩
      case isFalse unwaking =>
        cases stepped
        refine inv.endHelper helper ?_
        cases claim : h.claim with
        | nothing => rfl
        | marked => exact absurd (inv.status_of_marked helper claim) unwaking
        | taken => simpa [place] using own.taken claim
    case erase =>
      cases stepped
      exact inv.takeReady helper place condition
    case moveQueued =>
      cases stepped
      exact inv.moveTaken helper place
    case release =>
      split at stepped
      case isTrue idle =>
        cases stepped
        exact inv.release helper condition idle
      case isFalse => cases stepped

theorem Inv.step {event : Event ι κ ω} (allowed : s.Allowed event)
    (stepped : s.step event = some s') : Inv s' := by
  cases event
  case waker w => exact inv.stepWaker stepped
  case helper a w => exact inv.stepHelper allowed stepped
  all_goals obtain ⟨can, ⟨⟩⟩ := ite_none_right_eq_some.1 stepped
  case wake w c t fromMutex =>
    exact inv.setWaker (fun _ => by rw [can]; rfl) (by simp) (by simp [can]) (by simp [can])
  case sweep a => exact inv.sweep can.2
  case pop a c => exact inv.stepPop can.1
  case switch a n => exact inv.stepSwitch can.1 can.2.1 can.2.2
  case sleep a => exact inv.sleep can.2
  case stay a => exact inv.stay can.2
  case finish a => exact inv.finish can.2
  case send t => exact inv.send can
  case pin a t target => exact inv.pin can.1 can.2.1 can.2.2.1

end

theorem Inv.initial (start : s.Initial) : Inv s where
  wakings := fun t => by
    have pends : tally (Wake.pend t) s.wakers = 0 :=
      tally_eq_zero.2 fun w => by rw [start.wakers w]; rfl
    have counts : tally (List.count t) s.contents = 0 :=
      tally_eq_zero.2 fun q => by rw [start.contents]; rfl
    have claims : tally (claims .marked t) s.helper = 0 :=
      tally_eq_zero.2 fun a => by rw [start.helper a]; rfl
    rw [pends, counts, claims, is_of_ne (start.waking t)]
  queueds := fun t => by
    have claims : tally (claims .taken t) s.helper = 0 :=
      tally_eq_zero.2 fun a => by rw [start.helper a]; rfl
    rw [start.queued t, claims, Nat.add_zero]
  destined := fun w c t tcpu pushing => by simp [start.wakers w] at pushing
  linked := fun q t mem => by simp [start.contents] at mem
  ready := start.ready
  here := start.here
  helping := fun a h helper => by simp [start.helper a] at helper
  noticed := fun a c filled => by simp [start.contents] at filled
  represents := start.represents
  kept := fun t woken => by simp [start.woken t] at woken

theorem State.ReachedAllowed.inv (reached : s.ReachedAllowed) : Inv s :=
  Reachable.invariant (I := Inv) (fun _ start => Inv.initial start)
    (fun _ _ _ inv ⟨_, allowed, stepped⟩ => inv.step allowed stepped) reached

theorem Inv.onItsWay (inv : Inv s) {t : κ} (waking : s.status t = .waking) : s.OnItsWay t := by
  have total := inv.wakings t
  rw [waking, is_self] at total
  by_cases pend : 0 < tally (Wake.pend t) s.wakers
  · obtain ⟨w, pos⟩ := exists_of_tally_pos pend
    refine .inl ⟨w, ?_⟩
    cases place : s.wakers w with
    | load c u =>
      have same : u = t := by
        by_contra ne
        simp [place, Wake.pend, ne] at pos
      exact ⟨c, .inl (by rw [same])⟩
    | push c u tcpu =>
      have same : u = t := by
        by_contra ne
        simp [place, Wake.pend, ne] at pos
      exact ⟨c, .inr (by rw [← inv.destined w c u tcpu place, same])⟩
    | idle => simp [place, Wake.pend] at pos
    | cas c u fromMutex => simp [place, Wake.pend] at pos
    | mark c tcpu => simp [place, Wake.pend] at pos
  · by_cases linked : 0 < tally (List.count t) s.contents
    · obtain ⟨⟨a, c⟩, pos⟩ := exists_of_tally_pos linked
      have mem := count_pos_iff.1 pos
      obtain rfl : s.cpu t = a := inv.linked _ t mem
      exact .inr (.inl ⟨c, mem, inv.noticed _ c (ne_nil_of_mem mem)⟩)
    · have marked : 0 < tally (claims .marked t) s.helper := by omega
      obtain ⟨a, pos⟩ := exists_of_tally_pos marked
      cases helper : s.helper a with
      | none => simp [helper, claims] at pos
      | some h =>
        have own : h.thread = t ∧ h.claim = .marked := by
          by_contra ne
          simp [helper, claims, ne] at pos
        exact .inr (.inr ⟨a, h, helper, own⟩)

/-- **The queues stay sound while threads are moved.**  In every run in which the helpers keep off
the wake-ups of others, the links of each queue are those of the threads pushed and not yet popped,
no thread is twice in the queues or in a queue and a run queue, a thread in status `waking` will be
pushed into or popped from a queue of its CPU, and a thread that was woken is in that status, or is
about to be woken, or the mutex will wake it. -/
theorem reachedAllowed_linked (s : State ι κ ω ν) (reached : s.ReachedAllowed) :
    Represents s.links s.contents ∧ (∀ q, (s.contents q).Nodup) ∧
      (∀ t p q, t ∈ s.contents p → t ∈ s.contents q → p = q) ∧
      (∀ t q a, t ∈ s.contents q → t ∉ s.runqueue a) ∧
      (∀ t, s.status t = .waking → s.OnItsWay t) ∧
      ∀ t, s.woken t = true → s.OnItsWay t ∨ s.status t = .sendingLock ∨
        s.status t = .waiting ∧ ∃ w c fromMutex, s.wakers w = .cas c t fromMutex := by
  have inv := reached.inv
  have once : ∀ t, tally (List.count t) s.contents ≤ 1 := fun t => by
    have total := inv.wakings t
    have : (s.status t).is .waking ≤ 1 := by unfold is; split <;> omega
    omega
  refine ⟨inv.represents, fun q => ?_, fun t p q first second => ?_, fun t q a linked ready => ?_,
    fun t => inv.onItsWay, fun t woken => (inv.kept t woken).imp_left inv.onItsWay⟩
  · exact nodup_iff_count_le_one.2 fun t =>
      (le_tally (List.count t) s.contents q).trans (once t)
  · by_contra ne
    have both := add_le_tally (List.count t) s.contents ne
    have := once t
    have := count_pos_iff.2 first
    have := count_pos_iff.2 second
    omega
  · have waking := inv.status_of_linked linked
    rw [inv.status_of_ready ready] at waking
    cases waking

end Runs

/-! ## Two CPUs -/

/-- The thread `none` sleeps on CPU `false`; each CPU runs a thread of its own. -/
def asleep : State Bool (Option Bool) Bool ((Bool × Bool) ⊕ Option Bool) where
  status
    | none => .waiting
    | some _ => .running
  cpu
    | none => false
    | some a => a
  current := some
  runqueue := fun _ => []
  links := ⟨.inl, .inl, fun _ => none, .inr, .inr⟩
  mask := fun _ _ => false
  sweep := fun _ _ => false
  wakers := fun _ => .idle
  helper := fun _ => none
  contents := fun _ => []
  woken := fun _ => false

theorem asleep_initial : asleep.Initial where
  waking := by decide
  queued := by decide
  ready := by simp [asleep]
  here := fun _ => rfl
  contents := rfl
  represents := ⟨⟨Sum.inr_injective, Sum.inl_injective, fun _ _ => Sum.inr_ne_inl⟩,
    fun _ => ⟨rfl, rfl⟩⟩
  wakers := fun _ => rfl
  helper := fun _ => rfl
  woken := fun _ => rfl

/-- The sleeping thread is moved to CPU `true` and woken there. -/
theorem asleep_moved_linked : ∃ s : State Bool (Option Bool) Bool ((Bool × Bool) ⊕ Option Bool),
    s.ReachedAllowed ∧ s.contents (true, false) = [none] ∧ s.links.front (true, false) = some none := by
  have start : asleep.ReachedAllowed := .start asleep_initial
  have begun := start.next ⟨.pin false none true, trivial, rfl⟩
  have tested := begun.next ⟨.helper false false, fun h same => by cases same; trivial, rfl⟩
  have marked := tested.next ⟨.helper false false, fun h same => by cases same; rfl, rfl⟩
  have looked := marked.next ⟨.helper false false, fun h same => by cases same; trivial, rfl⟩
  have moved := looked.next ⟨.helper false false, fun h same => by cases same; decide, rfl⟩
  have again := moved.next ⟨.helper false false, fun h same => by cases same; trivial, rfl⟩
  have released := again.next ⟨.helper false false, fun h same => by cases same; simp, rfl⟩
  have woken := released.next ⟨.waker false, trivial, rfl⟩
  have loaded := woken.next ⟨.waker false, trivial, rfl⟩
  have pushed : State.ReachedAllowed _ := loaded.next ⟨.waker false, trivial, rfl⟩
  exact ⟨_, pushed, rfl, (reachedAllowed_linked _ pushed).1.front (true, false)⟩

/-- The thread is woken from CPU `true` and pushed; then a helper moves it and wakes it again. -/
def wokenThenMoved : List (Event Bool (Option Bool) Bool) :=
  [.wake true true none false, .waker true, .waker true, .waker true, .waker true,
    .pin false none true, .helper false false, .helper false false, .helper false false,
    .helper false false, .helper false false, .waker false, .waker false, .waker false]

/-- **A thread in two queues.**  It is in a queue of either CPU, and the links of the first one are
broken: that queue looks empty. -/
theorem pinned_twice_linked : asleep.Initial ∧
    ∃ s, wokenThenMoved.foldlM State.step asleep = some s ∧
      s.contents (false, true) = [none] ∧ s.contents (true, false) = [none] ∧
      s.links.front (false, true) = none ∧ ¬ Represents s.links s.contents := by
  refine ⟨asleep_initial, _, rfl, rfl, rfl, rfl, fun represents => ?_⟩
  have front := represents.front (false, true)
  cases front

end MiniOsv.Sched.PinWakeups
