/-
# Sync.CondvarInvariant -- who may touch which record

Every record that is linked anywhere is in exactly one of three hands: the list, a running
wake that has chosen it, or the user mutex.  The pointers of the code follow the ghost
lists: `oldest`, `newest` and `next` represent `queue`, and the local pointers of a wake
represent what it holds (`Holds`).  A write to a record concerns the one list it is on, so
each step is proved once for the list it changes and once for all the others.
-/
import MiniOsv.Sync.Condvar

namespace MiniOsv.Sync.Condvar

set_option linter.unusedSectionVars false

open Theory List
open Function (update update_of_ne)

variable {ι : Type} [DecidableEq ι]

attribute [local grind =] Function.update_apply

/-! ## What each place of the code relies on -/

def Pc.inM : Pc ι → Bool
  | .waitAppend | .waitUnlockUser | .waitUnlock | .timeoutFirst | .timeoutSearch _
  | .timeoutUnlock _ | .onePop | .oneSend _ | .oneClear | .oneUnlock | .allDetach
  | .allUnlock _ => true
  | _ => false

/-- The thread owns the user mutex, once. -/
def Pc.mustOwn : Pc ι → Bool
  | .waitLock | .waitAppend | .waitUnlockUser | .returned _ => true
  | _ => false

/-- The record was made and is not on the list yet. -/
def Pc.fresh : Pc ι → Bool
  | .waitLock | .waitAppend => true
  | _ => false

def Pc.searching : Pc ι → Bool
  | .timeoutSearch _ => true
  | _ => false

/-- The thread is `wake_one` with a record to give away. -/
def Pc.sending : Pc ι → Bool
  | .oneSend _ => true
  | _ => false

theorem Pc.ne_timeoutSearch {pc : Pc ι} (other : pc.searching = false) (p : Option ι) :
    pc ≠ .timeoutSearch p := by
  rintro rfl
  cases other

theorem Pc.ne_oneSend {pc : Pc ι} (other : pc.sending = false) (r : ι) : pc ≠ .oneSend r := by
  rintro rfl
  cases other

/-- A wake has chosen the record. -/
def Place.Chosen (p : Place ι) : Prop :=
  (∃ w, p = .held w) ∨ p = .sent ∨ p = .woken

/-- Where the record of a thread at this place can be. -/
def Pc.Fits : Pc ι → Place ι → Prop
  | .waitUnlockUser, p | .waitUnlock, p => p = .queued
  | .waiting, p | .check, p | .timeoutLock, p | .timeoutFirst, p | .timeoutSearch _, p =>
    p = .queued ∨ p.Chosen
  | .timeoutUnlock false, p | .rewait, p => p.Chosen
  | .timeoutUnlock true, p | .final true, p | .relock true, p | .returned true, p => p = .removed
  | .final false, p | .returned false, p => p = .woken
  | .relock false, _ => False
  | _, p => p = .absent

/-- The local pointers of a wake run through the records it has chosen and not given away. -/
def Holds (next : ι → Option ι) : Pc ι → List ι → Prop
  | .oneSend r, l => l = [r]
  | .allUnlock wr, l | .allHead wr, l => Segment next wr l none
  | .allSend r nextWr, l => ∃ rest, l = r :: rest ∧ Segment next nextWr rest none
  | .allInner nextWr prevr r, l => ∃ kept rest, l = kept ++ rest ∧
      Segment next nextWr kept r ∧ prevr = kept.getLast? ∧ Segment next r rest none
  | .allInnerSend nextWr prevr r nextr, l => ∃ kept rest, l = kept ++ r :: rest ∧
      Segment next nextWr kept (some r) ∧ prevr = kept.getLast? ∧ Segment next nextr rest none
  | .allRelink nextWr prevr r nextr, l => r ∉ l ∧ ∃ kept rest, l = kept ++ rest ∧
      Segment next nextWr kept (some r) ∧ prevr = kept.getLast? ∧ Segment next nextr rest none
  | _, l => l = []

/-- The search of a timed out thread has passed a part of the list without its record. -/
def Searching (next : ι → Option ι) (oldest : Option ι) (queue : List ι) (t : ι)
    (p : Option ι) : Prop :=
  ∃ passed ahead, queue = passed ++ ahead ∧ Segment next oldest passed p ∧
    Segment next p ahead none ∧ t ∉ passed ∧ p ≠ some t

structure Inv (s : State ι) : Prop where
  locked : ∀ t, (s.pcs t).inM = true ↔ s.m = some t
  fits : ∀ t, (s.pcs t).Fits (s.place t)
  owns : ∀ t, (s.pcs t).mustOwn = true → s.holder = some t ∧ s.depth = 1
  woken : ∀ t, s.place t = .woken → s.holder = some t
  fresh : ∀ t, (s.pcs t).fresh = true → s.next t = none
  list : Segment s.next s.oldest s.queue none
  newest : s.newest = s.queue.getLast?
  queueNodup : s.queue.Nodup
  queued : ∀ t, t ∈ s.queue ↔ s.place t = .queued
  holds : ∀ w, Holds s.next (s.pcs w) (s.held w)
  heldNodup : ∀ w, (s.held w).Nodup
  isHeld : ∀ w t, t ∈ s.held w ↔ s.place t = .held w
  search : ∀ t p, s.pcs t = .timeoutSearch p → Searching s.next s.oldest s.queue t p
  mutex : s.userMutex = false → s.oldest = none ∧ ∀ t r, s.pcs t ≠ .oneSend r
  sends : ∀ t, s.sends t = if s.place t = .sent ∨ s.place t = .woken then 1 else 0

attribute [local simp] Pc.Fits

theorem init_inv : Inv (State.init : State ι) := by
  constructor <;> simp [State.init, Pc.inM, Pc.mustOwn, Holds]

/-! ## Records change hands -/

namespace Pc.Fits

variable {pc : Pc ι} {w : ι}

/-- A wake chooses a queued record while nobody else is under `_m`. -/
theorem choose (fits : pc.Fits .queued) (outside : pc.inM = false) : pc.Fits (.held w) := by
  unfold Pc.Fits at fits ⊢
  split at fits <;> simp_all [Place.Chosen, Pc.inM]

theorem send (fits : pc.Fits (.held w)) : pc.Fits .sent := by
  unfold Pc.Fits at fits ⊢
  split at fits <;> simp_all [Place.Chosen]

theorem wake (fits : pc.Fits .sent) : pc.Fits .woken := by
  unfold Pc.Fits at fits ⊢
  split at fits <;> simp_all [Place.Chosen]

/-- A record that was not linked yet is in no hand. -/
theorem absent_of_fresh {p : Place ι} (fits : pc.Fits p) (fresh : pc.fresh = true) :
    p = .absent := by
  unfold Pc.Fits at fits
  split at fits <;> simp_all [Pc.fresh]

end Pc.Fits

/-! ## Frames -/

theorem Holds.congr {next next' : ι → Option ι} {pc : Pc ι} {l : List ι}
    (same : ∀ a ∈ l, next' a = next a) (holds : Holds next pc l) : Holds next' pc l := by
  cases pc with
  | allUnlock wr | allHead wr => exact Segment.congr same holds
  | allSend r nextWr =>
    obtain ⟨rest, rfl, walk⟩ := holds
    exact ⟨rest, rfl, walk.congr fun a h => same a (mem_cons_of_mem _ h)⟩
  | allInner nextWr prevr r =>
    obtain ⟨kept, rest, rfl, before, last, after⟩ := holds
    exact ⟨kept, rest, rfl, before.congr fun a h => same a (mem_append_left _ h), last,
      after.congr fun a h => same a (mem_append_right _ h)⟩
  | allInnerSend nextWr prevr r nextr =>
    obtain ⟨kept, rest, rfl, before, last, after⟩ := holds
    exact ⟨kept, rest, rfl, before.congr fun a h => same a (mem_append_left _ h), last,
      after.congr fun a h => same a (mem_append_right _ (mem_cons_of_mem _ h))⟩
  | allRelink nextWr prevr r nextr =>
    obtain ⟨gone, kept, rest, rfl, before, last, after⟩ := holds
    exact ⟨gone, kept, rest, rfl, before.congr fun a h => same a (mem_append_left _ h), last,
      after.congr fun a h => same a (mem_append_right _ h)⟩
  | _ => exact holds

theorem Searching.congr {next next' : ι → Option ι} {oldest p : Option ι} {queue : List ι} {t : ι}
    (same : ∀ a ∈ queue, next' a = next a) (searching : Searching next oldest queue t p) :
    Searching next' oldest queue t p := by
  obtain ⟨passed, ahead, rfl, before, after, missed, other⟩ := searching
  exact ⟨passed, ahead, rfl, before.congr fun a h => same a (mem_append_left _ h),
    after.congr fun a h => same a (mem_append_right _ h), missed, other⟩

namespace Inv

variable {s : State ι} {t : ι} {old pc : Pc ι}

section

variable (inv : Inv s)

include inv

theorem fitsAt (here : s.pcs t = pc) : pc.Fits (s.place t) := here ▸ inv.fits t

theorem holdsAt (here : s.pcs t = pc) : Holds s.next pc (s.held t) :=
  here ▸ inv.holds t

/-- **Thread `t` moves on.**  Lists and records stay as they are; it may take or release a
mutex. -/
theorem moves {m holder : Option ι} {depth : ℕ}
    (mine : pc.inM = true ↔ m = some t) (fits : pc.Fits (s.place t))
    (holds : Holds s.next pc (s.held t)) (woken : s.place t = .woken → holder = some t)
    (theirs : ∀ u, u ≠ t → s.holder = some u → holder = some u ∧ depth = s.depth)
    (owns : pc.mustOwn = true → holder = some t ∧ depth = 1 := by simp [Pc.mustOwn])
    (others : ∀ u, u ≠ t → (m = some u ↔ s.m = some u) := by exact fun _ _ => Iff.rfl)
    (fresh : pc.fresh = true → s.next t = none := by simp [Pc.fresh])
    (search : ∀ p, pc = .timeoutSearch p → Searching s.next s.oldest s.queue t p := by simp)
    (noSend : pc.sending = false := by rfl) :
    Inv { s with m := m, holder := holder, depth := depth
                 pcs := update s.pcs t pc } := by
  refine { inv with
    locked := fun u => ?_, fits := fun u => ?_, owns := fun u => ?_, woken := fun u => ?_,
    fresh := fun u => ?_, holds := fun u => ?_, search := fun u => ?_,
    mutex := fun unset => ⟨(inv.mutex unset).1, fun u => ?_⟩ }
  -- The thread that moves, and then another one.
  all_goals obtain rfl | h := eq_or_ne u t
  · simpa using mine
  · simpa [h, others u h] using inv.locked u
  · simpa using fits
  · simpa [h] using inv.fits u
  · simpa using owns
  · intro must
    have old := inv.owns u (by simpa [h] using must)
    have now := theirs u h old.1
    exact ⟨now.1, now.2.trans old.2⟩
  · exact woken
  · exact fun w => (theirs u h (inv.woken u w)).1
  · simpa using fresh
  · simpa [h] using inv.fresh u
  · simpa using holds
  · simpa [h] using inv.holds u
  · simpa using search
  · simpa [h] using inv.search u
  · simpa using Pc.ne_oneSend noSend
  · simpa [h] using (inv.mutex unset).2 u

theorem goto (here : s.pcs t = old) (fits : pc.Fits (s.place t))
    (holds : Holds s.next pc (s.held t))
    (search : ∀ p, pc = .timeoutSearch p → Searching s.next s.oldest s.queue t p := by simp)
    (owns : pc.mustOwn = true → s.holder = some t ∧ s.depth = 1 := by simp [Pc.mustOwn])
    (fresh : pc.fresh = true → s.next t = none := by simp [Pc.fresh])
    (mine : pc.inM = old.inM := by rfl) (noSend : pc.sending = false := by rfl) :
    Inv (s.goto t pc) :=
  inv.moves (by rw [mine, ← here]; exact inv.locked t) fits holds (inv.woken t)
    (fun _ _ h => ⟨h, rfl⟩) owns (fun _ _ => Iff.rfl) fresh search noSend

theorem lockM {s' : State ι} (taken : s.lockM t pc = some s')
    (fits : pc.Fits (s.place t)) (holds : Holds s.next pc (s.held t))
    (owns : pc.mustOwn = true → s.holder = some t ∧ s.depth = 1 := by simp [Pc.mustOwn])
    (fresh : pc.fresh = true → s.next t = none := by simp [Pc.fresh])
    (mine : pc.inM = true := by rfl) (search : pc.searching = false := by rfl)
    (noSend : pc.sending = false := by rfl) : Inv s' := by
  rw [State.lockM] at taken
  split at taken <;> cases taken
  rename_i free
  refine inv.moves (by simp [mine]) fits holds (inv.woken t) (fun _ _ h => ⟨h, rfl⟩) owns
    (fun u h => ?_) fresh (fun p h => absurd h (Pc.ne_timeoutSearch search p)) noSend
  simp [free, Ne.symm h]

theorem unlockM (here : s.pcs t = old) (fits : pc.Fits (s.place t))
    (holds : Holds s.next pc (s.held t)) (held : old.inM = true := by rfl)
    (mine : pc.inM = false := by rfl) (owns : pc.mustOwn = false := by rfl)
    (fresh : pc.fresh = false := by rfl) (search : pc.searching = false := by rfl)
    (noSend : pc.sending = false := by rfl) : Inv (s.unlockM t pc) := by
  refine inv.moves (by simp [mine]) fits holds (inv.woken t) (fun _ _ h => ⟨h, rfl⟩)
    (by simp [owns]) (fun u h => ?_) (by simp [fresh])
    (fun p h => absurd h (Pc.ne_timeoutSearch search p)) noSend
  rw [(inv.locked t).1 (by rw [here, held])]
  simp [Ne.symm h]

/-- A write to the `next` of a record that is on no list. -/
theorem write {a : ι} {p : Option ι} (notQueued : s.place a ≠ .queued)
    (notHeld : ∀ w, s.place a ≠ .held w) (fresh : (s.pcs a).fresh = true → p = none) :
    Inv { s with next := update s.next a p } := by
  have outside : ∀ b ∈ s.queue, update s.next a p b = s.next b := by
    intro b mem
    apply update_of_ne
    rintro rfl
    exact notQueued ((inv.queued _).1 mem)
  refine { inv with
    fresh := fun b here => ?_, list := inv.list.congr outside, holds := fun w => (inv.holds w).congr ?_,
    search := fun u q here => (inv.search u q here).congr outside }
  · by_cases h : b = a
    · subst h
      simpa using fresh here
    · simpa [h] using inv.fresh b here
  · intro b mem
    apply update_of_ne
    rintro rfl
    exact notHeld w ((inv.isHeld w _).1 mem)

/-- Nobody but the holder of `_m` is in a search or has a record to send under `_m`. -/
theorem only (held : (s.pcs t).inM = true) {u : ι} (other : u ≠ t) : (s.pcs u).inM = false := by
  apply Classical.byContradiction
  intro h
  have mine := (inv.locked t).1 held
  have theirs := (inv.locked u).1 (by simpa using h)
  exact other (Option.some.inj (theirs.symm.trans mine))

/-! ## The list -/

/-- **The holder of `_m` rearranges the records.**  It moves on under `_m`; what it holds
may change, and the list with the pointers of the records that were on it. -/
theorem rearrange {oldest newest : Option ι} {next : ι → Option ι}
    {userMutex : Bool} {place : ι → Place ι} {queue : List ι} {held : ι → List ι}
    (under : (s.pcs t).inM = true) (mine : pc.inM = true)
    (fits : pc.Fits (place t)) (theirs : ∀ u, u ≠ t → (s.pcs u).Fits (place u))
    (owns : pc.mustOwn = true → s.holder = some t ∧ s.depth = 1)
    (fresh : pc.fresh = false) (search : pc.searching = false)
    (given : ∀ u, (place u = .sent ↔ s.place u = .sent) ∧ (place u = .woken ↔ s.place u = .woken))
    (same : ∀ a, a ∉ s.queue → next a = s.next a)
    (list : Segment next oldest queue none) (last : newest = queue.getLast?) (nodup : queue.Nodup)
    (queued : ∀ u, u ∈ queue ↔ place u = .queued)
    (holds : Holds next pc (held t)) (heldNodup : (held t).Nodup)
    (others : ∀ w, w ≠ t → held w = s.held w)
    (isHeld : ∀ w u, u ∈ held w ↔ place u = .held w)
    (mutex : userMutex = false → oldest = none ∧ pc.sending = false) :
    Inv { s with
          oldest := oldest, newest := newest, next := next, userMutex := userMutex
          place := place, pcs := update s.pcs t pc, queue := queue, held := held } := by
  have alone : ∀ u, u ≠ t → (s.pcs u).inM = false := fun u => inv.only under
  refine {
    list := list, newest := last, queueNodup := nodup, queued := queued, isHeld := isHeld
    woken := fun u isWoken => inv.woken u ((given u).2.1 isWoken)
    sends := fun u => by
      simp only [given u]
      exact inv.sends u
    locked := fun u => ?_, fits := fun u => ?_, owns := fun u => ?_, fresh := fun u => ?_
    holds := fun u => ?_, heldNodup := fun u => ?_, search := fun u p searching => ?_
    mutex := fun unset => ⟨(mutex unset).1, fun u r sending => ?_⟩ }
  all_goals obtain rfl | h := eq_or_ne u t
  · simp [mine, (inv.locked u).1 under]
  · simpa [h] using inv.locked u
  · simpa using fits
  · simpa [h] using theirs u h
  · simpa using owns
  · simpa [h] using inv.owns u
  · simp [fresh]
  · simp only [update_of_ne h]
    intro new
    rw [same u fun mem => ?_, inv.fresh u new]
    have place := (inv.queued u).1 mem
    rw [(inv.fits u).absent_of_fresh new] at place
    cases place
  · simpa using holds
  · simp only [update_of_ne h, others u h]
    refine (inv.holds u).congr fun a mem => same a fun queued => ?_
    have held := (inv.isHeld u a).1 mem
    rw [(inv.queued a).1 queued] at held
    cases held
  · exact heldNodup
  · simpa only [others u h] using inv.heldNodup u
  · exact absurd searching (by simpa using Pc.ne_timeoutSearch search p)
  · -- A search runs under `_m`.
    have outside := alone u h
    simp only [update_of_ne h] at searching
    rw [searching] at outside
    cases outside
  · exact absurd sending (by simpa using Pc.ne_oneSend (mutex unset).2 r)
  · have outside := alone u h
    simp only [update_of_ne h] at sending
    rw [sending] at outside
    cases outside

theorem append {s' : State ι} (here : s.pcs t = .waitAppend)
    (taken : s.append t = some s') : Inv s' := by
  have absent : s.place t = .absent := inv.fitsAt here
  have outside : t ∉ s.queue := fun h => by simpa [absent] using (inv.queued t).1 h
  have last : s.next t = none := inv.fresh t (by rw [here]; rfl)
  have empty : s.held t = [] := inv.holdsAt here
  -- What holds of both branches, whatever the pointers of the list become.
  have general : ∀ oldest next, Segment next oldest (s.queue ++ [t]) none →
      (∀ a, a ∉ s.queue → next a = s.next a) →
      Inv { s with
            oldest := oldest, newest := some t, next := next, userMutex := true
            place := update s.place t .queued
            pcs := update s.pcs t .waitUnlockUser, queue := s.queue ++ [t] } := by
    intro oldest next list same
    refine inv.rearrange (by rw [here]; rfl) rfl (by simp)
      (fun u h => by simpa [h] using inv.fits u)
      (fun _ => inv.owns t (by rw [here]; rfl)) rfl rfl (fun u => ?_) same list (by simp)
      (inv.queueNodup.append (nodup_singleton t) (by simpa using outside)) (fun u => ?_)
      empty (inv.heldNodup t) (fun _ _ => rfl) (fun w u => ?_) (by simp)
    all_goals obtain rfl | h := eq_or_ne u t
    · simp [absent]
    · simp [h]
    · simp
    · simpa [h] using inv.queued u
    · simp [inv.isHeld, absent]
    · simpa [h] using inv.isHeld w u
  rw [State.append] at taken
  split at taken <;> cases taken
  next oldest =>
    have nil := inv.list.eq_nil_iff.2 oldest
    refine general _ _ ?_ fun _ _ => rfl
    simp [nil, last]
  next o n oldest newest =>
    obtain ⟨l, queue⟩ : ∃ l, s.queue = l ++ [n] :=
      List.getLast?_eq_some_iff.1 (inv.newest.symm.trans newest)
    refine general _ _ ?_ fun a outside => ?_
    · have list := inv.list
      rw [queue] at list
      rw [queue, Segment.concat, ← oldest]
      have fresh : n ∉ l := by
        have nodup := inv.queueNodup
        rw [queue, nodup_append] at nodup
        exact fun mem => nodup.2.2 n mem n (by simp) rfl
      refine ⟨list.redirect fresh, ?_⟩
      rw [update_of_ne, last]
      rintro rfl
      exact outside (by simp [queue])
    · apply update_of_ne
      rintro rfl
      exact outside (by simp [queue])

/-- A timed out record is taken off the list, however the pointers around it are mended. -/
theorem unlink {oldest newest : Option ι} {next : ι → Option ι} (held : (s.pcs t).inM = true)
    (empty : s.held t = []) (mem : t ∈ s.queue) (same : ∀ a, a ∉ s.queue → next a = s.next a)
    (list : Segment next oldest (s.queue.erase t) none)
    (last : newest = (s.queue.erase t).getLast?) : Inv (s.unlink t oldest newest next) := by
  have queued := (inv.queued t).1 mem
  rw [State.unlink]
  refine inv.rearrange held rfl (by simp) (fun u h => ?_) nofun rfl rfl
    (fun u => ?_) same list last (inv.queueNodup.erase t) (fun u => ?_) empty (inv.heldNodup t)
    (fun _ _ => rfl) (fun w u => ?_) fun unset => ?_
  · simpa [h] using inv.fits u
  · by_cases h : u = t
    · subst h
      simp [queued]
    · simp [h]
  · rw [inv.queueNodup.mem_erase_iff]
    by_cases h : u = t
    · subst h
      simp
    · simpa [h] using inv.queued u
  · by_cases h : u = t
    · subst h
      simp [inv.isHeld, queued]
    · simpa [h] using inv.isHeld w u
  · have nil := inv.list.eq_nil_iff.2 (inv.mutex unset).1
    simp [nil] at mem

/-- `wake_one` chooses the oldest waiter. -/
theorem pop {r : ι} (here : s.pcs t = .onePop) (first : s.oldest = some r) : Inv (s.pop t r) := by
  have list := inv.list
  rw [first] at list
  obtain ⟨rest, queue, walk⟩ := list.exists_cons
  have nodup := inv.queueNodup
  rw [queue, nodup_cons] at nodup
  have place : s.place r = .queued := (inv.queued r).1 (by simp [queue])
  have absent : s.place t = .absent := inv.fitsAt here
  have other : r ≠ t := by
    rintro rfl
    simp [place] at absent
  have empty : s.held t = [] := inv.holdsAt here
  have under : (s.pcs t).inM = true := by rw [here]; rfl
  rw [State.pop]
  refine inv.rearrange under rfl ?_ (fun u h => ?_) nofun rfl rfl
    (fun u => ?_) (fun _ _ => rfl) (by simpa [queue] using walk) ?_ (by simpa [queue] using nodup.2)
    (fun u => ?_) (by simp [Holds]) (by simp) (fun w h => by simp [h]) (fun w u => ?_) fun unset => ?_
  · simpa [Ne.symm other] using absent
  · by_cases chosen : u = r
    · subst chosen
      have fits := inv.fits u
      rw [place] at fits
      simpa using fits.choose (inv.only under other)
    · simpa [chosen] using inv.fits u
  · by_cases h : u = r
    · subst h
      simp [place]
    · simp [h]
  · simp only [queue, tail_cons, inv.newest]
    cases rest with
    | nil => simp [Segment.nil.1 walk]
    | cons a rest => simp [walk.head]
  · by_cases h : u = r
    · subst h
      simpa [queue] using nodup.1
    · simpa [queue, h] using inv.queued u
  · have old := inv.isHeld w u
    grind
  · rw [(inv.mutex unset).1] at first
    cases first

/-- `wake_all` chooses every waiter. -/
theorem detach (here : s.pcs t = .allDetach) : Inv (s.detach t) := by
  have absent : s.place t = .absent := inv.fitsAt here
  have outside : t ∉ s.queue := fun h => by simpa [absent] using (inv.queued t).1 h
  have empty : s.held t = [] := inv.holdsAt here
  have under : (s.pcs t).inM = true := by rw [here]; rfl
  rw [State.detach]
  refine inv.rearrange under rfl ?_ (fun u h => ?_) nofun rfl rfl
    (fun u => ?_) (fun _ _ => rfl) (by simp) (by simp) (by simp) (fun u => ?_)
    (by simpa [Holds] using inv.list) (by simpa using inv.queueNodup) (fun w h => by simp [h])
    (fun w u => ?_) fun _ => ⟨rfl, rfl⟩
  · simpa [outside] using absent
  · by_cases mem : u ∈ s.queue
    · have fits := inv.fits u
      rw [(inv.queued u).1 mem] at fits
      simpa [mem] using fits.choose (inv.only under h)
    · simpa [mem] using inv.fits u
  · by_cases mem : u ∈ s.queue
    · simp [mem, (inv.queued u).1 mem]
    · simp [mem]
  · by_cases mem : u ∈ s.queue
    · simp [mem]
    · simpa [mem] using (inv.queued u).not.1 mem
  · have old := inv.isHeld w u
    have queued := inv.queued u
    grind

/-! ## The user mutex -/

theorem send {r : ι} (here : s.pcs t = old) (mem : r ∈ s.held t) (waker : s.place t = .absent)
    (holds : Holds s.next pc ((s.held t).erase r)) (mine : pc.inM = old.inM := by rfl)
    (fits : pc.Fits .absent := by exact rfl) (owns : pc.mustOwn = false := by rfl)
    (fresh : pc.fresh = false := by rfl) (search : pc.searching = false := by rfl)
    (noSend : pc.sending = false := by rfl) : Inv (s.send t r pc) := by
  subst here
  have place : s.place r = .held t := (inv.isHeld t r).1 mem
  have other : r ≠ t := by
    rintro rfl
    simp [place] at waker
  rw [State.send]
  constructor
  · intro u
    have := inv.locked u
    grind
  · intro u
    by_cases h : u = r
    · subst h
      have fits := inv.fits u
      rw [place] at fits
      simpa [other] using fits.send
    · have := inv.fits u
      grind
  · intro u
    have := inv.owns u
    grind
  · intro u
    have := inv.woken u
    grind
  · intro u
    have := inv.fresh u
    grind
  · exact inv.list
  · exact inv.newest
  · exact inv.queueNodup
  · intro u
    have := inv.queued u
    grind
  · intro w
    by_cases h : w = t
    · subst h
      simpa using holds
    · simpa [h] using inv.holds w
  · intro w
    by_cases h : w = t
    · subst h
      simpa using (inv.heldNodup w).erase r
    · simpa [h] using inv.heldNodup w
  · intro w u
    have := inv.isHeld w u
    have := (inv.heldNodup t).mem_erase_iff (a := u) (b := r)
    grind
  · intro u p searching
    have := inv.search u p
    have := Pc.ne_timeoutSearch search p
    grind
  · intro unset
    refine ⟨(inv.mutex unset).1, fun u q => ?_⟩
    have := (inv.mutex unset).2 u q
    have := Pc.ne_oneSend noSend q
    grind
  · intro u
    have := inv.sends u
    grind

theorem wake (free : s.holder = none) (sent : s.place t = .sent) :
    Inv { s with holder := some t, place := update s.place t .woken } := by
  refine { inv with
    fits := fun u => ?_, owns := fun u must => ?_, woken := fun u => ?_, queued := fun u => ?_,
    isHeld := fun w u => ?_, sends := fun u => ?_ }
  · by_cases h : u = t
    · subst h
      have fits := inv.fits u
      rw [sent] at fits
      simpa using fits.wake
    · simpa [h] using inv.fits u
  · have owned := (inv.owns u must).1
    rw [free] at owned
    cases owned
  · have := inv.woken u
    grind
  · have := inv.queued u
    grind
  · have := inv.isHeld w u
    grind
  · have := inv.sends u
    grind

/-- `wait` returns to its caller, and its record is gone. -/
theorem leave {timedOut : Bool} (here : s.pcs t = .returned timedOut) :
    Inv { s with
          place := update s.place t .absent
          pcs := update s.pcs t .idle
          sends := update s.sends t 0 } := by
  have ended : s.place t = .woken ∨ s.place t = .removed := by
    have fits := inv.fits t
    rw [here] at fits
    cases timedOut with
    | false => exact .inl fits
    | true => exact .inr fits
  have empty : s.held t = [] := inv.holdsAt here
  constructor
  · intro u
    have := inv.locked u
    grind [Pc.inM]
  · intro u
    have := inv.fits u
    grind [Pc.Fits]
  · intro u
    have := inv.owns u
    grind [Pc.mustOwn]
  · intro u
    have := inv.woken u
    grind
  · intro u
    have := inv.fresh u
    grind [Pc.fresh]
  · exact inv.list
  · exact inv.newest
  · exact inv.queueNodup
  · intro u
    have := inv.queued u
    grind
  · intro w
    by_cases h : w = t
    · subst h
      simpa [Holds] using empty
    · simpa [h] using inv.holds w
  · exact inv.heldNodup
  · intro w u
    have := inv.isHeld w u
    grind
  · intro u p
    have := inv.search u p
    grind
  · intro unset
    refine ⟨(inv.mutex unset).1, fun u q => ?_⟩
    have := (inv.mutex unset).2 u q
    grind
  · intro u
    have := inv.sends u
    grind

end

end Inv

end MiniOsv.Sync.Condvar
