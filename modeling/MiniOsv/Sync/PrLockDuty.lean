/-
# Sync.PrLockDuty -- who answers for the parked threads, and the lost wake

`Duty` says that somebody answers for the parked threads.  Each step that meets the
condition `Clear` passes it on (`Duty.go`); with the invariant it gives the obligation of
the lock.  The run at the end breaks the condition and leaves a thread parked for ever.
-/
import MiniOsv.Sync.PrLockInvariant

namespace MiniOsv.Sync.PrLock

open Theory
open Function

variable {ι : Type} [DecidableEq ι]

/-- Somebody answers for the parked threads. -/
def Duty (s : State ι) : Prop :=
  s.queue ≠ [] → (s.count ≠ 0 ∧ s.count ≠ 1) ∨ (∃ t, (s.pcs t).retries = true) ∨
    ∃ t, (s.pcs t).willWake = true

section Steps

variable {id : ι → ℕ} {s s' : State ι} {t : ι} {pc pc' : Pc}

/-- A step of `t` that keeps the queue passes the duty on if the word still answers for
the waiters, `t` takes the duty over, or `t` did not have it and the word is one that did
not answer before. -/
theorem Duty.move (duty : Duty s) (here : s.pcs t = pc)
    (pcs : s'.pcs = update s.pcs t pc') (queue : s'.queue = s.queue)
    (passes : s.queue ≠ [] → (s'.count ≠ 0 ∧ s'.count ≠ 1) ∨ pc'.retries = true ∨
      pc'.willWake = true ∨ pc.retries = false ∧ pc.willWake = false ∧ (s.count = 0 ∨ s.count = 1)) :
    Duty s' := by
  intro waiting
  rw [queue] at waiting
  have self : s'.pcs t = pc' := by rw [pcs, update_self]
  rcases passes waiting with busy | retries | wakes | ⟨notRetries, notWakes, value⟩
  · exact .inl busy
  · exact .inr (.inl ⟨t, self ▸ retries⟩)
  · exact .inr (.inr ⟨t, self ▸ wakes⟩)
  · have free : ¬(s.count ≠ 0 ∧ s.count ≠ 1) := fun busy => by
      rcases value with zero | one
      · exact busy.1 zero
      · exact busy.2 one
    rcases (duty waiting).resolve_left free with ⟨u, retries⟩ | ⟨u, wakes⟩
    · have ne : u ≠ t := fun same => by
        rw [same, here, notRetries] at retries
        cases retries
      exact .inr (.inl ⟨u, by rw [pcs, update_of_ne ne, retries]⟩)
    · have ne : u ≠ t := fun same => by
        rw [same, here, notWakes] at wakes
        cases wakes
      exact .inr (.inr ⟨u, by rw [pcs, update_of_ne ne, wakes]⟩)

/-- A step that keeps the word, by a thread that has no duty. -/
theorem Duty.stay (duty : Duty s) (here : s.pcs t = pc)
    (pcs : s'.pcs = update s.pcs t pc') (queue : s'.queue = s.queue)
    (count : s'.count = s.count) (free : pc.retries = false ∧ pc.willWake = false) : Duty s' := by
  refine duty.move here pcs queue fun _ => ?_
  rw [count]
  by_cases busy : s.count ≠ 0 ∧ s.count ≠ 1
  · exact .inl busy
  · refine .inr (.inr (.inr ⟨free.1, free.2, ?_⟩))
    rwa [not_and_or, not_ne_iff, not_ne_iff] at busy

theorem ne_of_popcount {word : BitVec 32} (busy : popcount (word &&& ~~~3) ≠ 0) :
    word ≠ 0 ∧ word ≠ 1 := by
  refine ⟨fun zero => ?_, fun one => ?_⟩
  · exact busy (zero ▸ popcount_low.1)
  · exact busy (one ▸ popcount_low.2)

/-- Parking under a value that answers for the waiters. -/
theorem Duty.wait {expected : BitVec 32} (busy : expected ≠ 0 ∧ expected ≠ 1) :
    Duty (s.wait t expected) := by
  rw [State.wait]
  split
  next equal =>
    exact fun _ => .inl ⟨equal ▸ busy.1, equal ▸ busy.2⟩
  · refine fun _ => .inr (.inl ⟨t, ?_⟩)
    change (update s.pcs t .head t).retries = true
    rw [update_self]
    rfl

/-- The owner that goes without a wake leaves a subscriber behind. -/
theorem Duty.release (duty : Duty s) (inv : Inv id s) {preempted : Bool}
    (here : s.pcs t = .unlocking preempted)
    (which : pc' = if s.count = 1 then .idle
      else if preempted ∨ s.count = modeTwo ∨ s.count = 2 ||| s.nodeMask t then .readKey
      else .idle) : Duty { s.setPc t pc' with count := 0 } := by
  by_cases one : s.count = 1
  · exact duty.move here rfl rfl fun _ => .inr (.inr (.inr ⟨rfl, rfl, .inr one⟩))
  · rw [if_neg one] at which
    split at which
    · exact duty.move here rfl rfl fun _ => .inr (.inr (.inl (by rw [which]; rfl)))
    next noWake =>
      rw [not_or, not_or] at noWake
      have owner : (s.pcs t).owns = true := by rw [here]; rfl
      rcases inv.subscribed (inv.locked t owner) one noWake.2.1 with ⟨u, owns, value⟩ | ⟨u, retries, -⟩
      · rw [inv.unique u t owns owner] at value
        exact absurd value (not_or.2 noWake.2)
      · have ne : u ≠ t := fun same => by
          rw [same, here] at retries
          cases retries
        exact fun _ => .inr (.inl ⟨u, (congrArg Pc.retries (update_of_ne ne _ _)).trans retries⟩)

/-- The wake itself: with key 0 it takes somebody out, with another key the waker had no
duty any more. -/
theorem Duty.wake (duty : Duty s) (inv : Inv id s) {key : BitVec 64} (here : s.pcs t = .wake key) :
    Duty { s with queue := s.queue.left key (BitVec.allOnes 32) 1
                  pcs := resume (update s.pcs t .idle)
                    (s.queue.woken key (BitVec.allOnes 32) 1) } := by
  by_cases nobody : s.queue.woken key (BitVec.allOnes 32) 1 = []
  · have same : resume (update s.pcs t .idle) (s.queue.woken key (BitVec.allOnes 32) 1) =
        update s.pcs t .idle := by
      funext u
      rw [resume, nobody, if_neg List.not_mem_nil]
    have miss := FutexQueue.woken_eq_nil Nat.one_pos nobody
    have stays : s.queue.left key (BitVec.allOnes 32) 1 = s.queue := dropMatches_of_none miss
    by_cases zero : key = 0
    · -- under key 0 everybody matches, so nobody is parked
      have empty : s.queue = [] := List.eq_nil_iff_forall_not_mem.2 fun w mem => by
        have := miss w mem
        rw [inv.labels w mem, zero] at this
        exact absurd this (by decide)
      intro waiting
      exact absurd (stays.trans empty) waiting
    · have noDuty : (Pc.wake key).willWake = false := by simpa [Pc.willWake] using zero
      exact duty.stay here same stays rfl ⟨rfl, noDuty⟩
  · obtain ⟨u, woken⟩ := List.exists_mem_of_ne_nil _ nobody
    exact fun _ => .inr (.inl ⟨u, congrArg Pc.retries (if_pos woken)⟩)

/-- **The duty along a step** that meets the condition. -/
theorem Duty.go (duty : Duty s) (inv : Inv id s) (clear : Clear s t) {spurious : Bool}
    (taken : s.go id t spurious = some s') : Duty s' := by
  rw [State.go] at taken
  cases here : s.pcs t <;> simp only [here] at taken
  case idle | parked =>
    cases taken
  case fast =>
    split at taken <;> cases taken
    next free =>
      exact duty.move here rfl rfl fun _ => .inr (.inr (.inr ⟨rfl, rfl, .inl free.1⟩))
    · exact duty.move here rfl rfl fun _ => .inr (.inl rfl)
  case head =>
    cases taken
    exact duty.move here rfl rfl fun _ => .inr (.inl rfl)
  case loaded curPreempted =>
    cases taken
    refine duty.move here rfl rfl fun _ => ?_
    rcases branch_spec curPreempted s.count (s.nodeMask t) with retries | ⟨-, busy, -⟩
    · exact .inr (.inl retries)
    · exact .inl (ne_of_popcount busy)
  case exchangeTwo =>
    cases taken
    have two : modeTwo ≠ 0 ∧ modeTwo ≠ 1 := by decide
    exact duty.move here rfl rfl fun _ => .inl two
  case waitTwo =>
    cases taken
    exact Duty.wait ⟨by decide, by decide⟩
  case spin =>
    cases taken
    have mark := mark_ne (id t)
    refine duty.move here rfl rfl fun _ => .inl ?_
    change 2 ||| s.nodeMask t ≠ 0 ∧ 2 ||| s.nodeMask t ≠ 1
    rw [inv.masks t (by rw [here]; rfl)]
    exact ⟨mark.1, mark.2.1⟩
  case waitOn curCount =>
    cases taken
    exact Duty.wait (ne_of_popcount (inv.waits t curCount here))
  case acquired =>
    cases taken
    exact duty.stay here rfl rfl rfl ⟨rfl, rfl⟩
  case held bit running =>
    split at taken <;> cases taken
    exact duty.stay here rfl rfl rfl ⟨rfl, rfl⟩
  case unlocking preempted =>
    cases taken
    exact duty.release inv here rfl
  case readKey =>
    cases taken
    by_cases one : s.count = 1
    · rcases clear here one with empty | ⟨u, retries⟩ | ⟨u, ne, wakes⟩
      · exact fun waiting => absurd empty waiting
      · have ne : u ≠ t := fun same => by
          rw [same, here] at retries
          cases retries
        exact fun _ => .inr (.inl ⟨u, (congrArg Pc.retries (update_of_ne ne _ _)).trans retries⟩)
      · exact fun _ => .inr (.inr ⟨u, (congrArg Pc.willWake (update_of_ne ne _ _)).trans wakes⟩)
    · refine duty.move here rfl rfl fun _ => ?_
      by_cases zero : s.count = 0
      · refine .inr (.inr (.inl ?_))
        rw [zero]
        decide
      · exact .inl ⟨zero, one⟩
  case wake key =>
    cases taken
    exact duty.wake inv here

theorem Duty.step (duty : Duty s) (inv : Inv id s) {event : Event ι}
    (clear : ∀ t spurious, event = .go t spurious → Clear s t)
    (taken : s.step id event = some s') : Duty s' := by
  cases event with rw [State.step] at taken
  | wlock t garbage =>
    split at taken <;> cases taken
    rename_i here
    exact duty.stay here rfl rfl rfl ⟨rfl, rfl⟩
  | go t spurious => exact duty.go inv (clear t spurious rfl) taken
  | switchOut t | switchIn t =>
    split at taken <;> cases taken
    rename_i here
    exact duty.stay here rfl rfl rfl ⟨rfl, rfl⟩

theorem ClearRuns.duty (reached : ClearRuns id s) : Duty s :=
  reached.invariant (I := Duty) (fun _ boot waiting => absurd boot.queue waiting)
    fun _ _ reached duty ⟨_, taken, clear⟩ => duty.step (ClearRuns.runs reached).inv clear taken

end Steps

/-- Whoever answers for the waiters is in the lock and awake. -/
theorem Pc.present {pc : Pc} (answers : pc.owns = true ∨ pc.willWake = true ∨ pc.retries = true) :
    pc ≠ .idle ∧ pc ≠ .parked := by
  constructor <;> rintro rfl
  · rcases answers with no | no | no <;> cases no
  · rcases answers with no | no | no <;> cases no

/-- Whoever gets the lock in the loop has made the word answer for the waiters. -/
theorem wakesOnUnlock_of_retry {id : ι → ℕ} {s s' : State ι} {t : ι} {spurious : Bool}
    (taken : s.go id t spurious = some s') (retries : (s.pcs t).retries = true)
    (owns : (s'.pcs t).owns = true) : s'.WakesOnUnlock t := by
  rw [State.go] at taken
  cases here : s.pcs t <;> simp only [here] at taken
  case head =>
    cases taken
    simp [State.setPc, Pc.owns] at owns
  case loaded curPreempted =>
    cases taken
    simp [State.setPc, (branch_slow curPreempted s.count (s.nodeMask t)).1] at owns
  case exchangeTwo =>
    cases taken
    exact ⟨owns, .inl rfl⟩
  case spin =>
    cases taken
    exact ⟨owns, .inr rfl⟩
  case idle | fast | waitTwo | waitOn | parked | acquired | held | unlocking | readKey | wake =>
    rw [here] at retries
    cases retries

/-- **`PrLock`.**  At most one thread owns the lock in every run.  In every run whose steps
meet the condition, a parked thread implies an owner that would wake somebody if it
unlocked, an unlocker whose wake will take somebody out, or a thread with its exchange
still to do; so not every other thread has left the lock.  A thread that gets the lock by
such an exchange would wake somebody if it unlocked. -/
theorem exclusive_and_duty_when_clear (id : ι → ℕ) :
    (∀ s, Runs id s → ∀ t u, (s.pcs t).owns = true → (s.pcs u).owns = true → t = u) ∧
    (∀ s s' : State ι, Runs id s → ∀ t spurious, s.go id t spurious = some s' →
      (s.pcs t).retries = true → (s'.pcs t).owns = true → s'.WakesOnUnlock t) ∧
    ∀ s, ClearRuns id s → (∃ t, s.pcs t = .parked) →
      ((∃ u, s.WakesOnUnlock u) ∨ (∃ u, (s.pcs u).willWake = true) ∨
        ∃ u, (s.pcs u).retries = true) ∧
      ∃ u, s.pcs u ≠ .idle ∧ s.pcs u ≠ .parked := by
  refine ⟨fun s reached => reached.inv.unique,
    fun s s' _ t spurious taken retries owns => wakesOnUnlock_of_retry taken retries owns,
    fun s reached => ?_⟩
  · rintro ⟨t, parked⟩
    have inv := reached.runs.inv
    have waiting : s.queue ≠ [] := fun empty => by
      have mem := (inv.parks.mem t).1 parked
      rw [empty] at mem
      cases mem
    have answer : (∃ u, s.WakesOnUnlock u) ∨ (∃ u, (s.pcs u).willWake = true) ∨
        ∃ u, (s.pcs u).retries = true := by
      rcases reached.duty waiting with ⟨nonzero, notFast⟩ | retries | wakes
      · by_cases two : s.count = modeTwo
        · obtain ⟨u, owns⟩ := inv.owned nonzero
          exact .inl ⟨u, owns, .inl two⟩
        · rcases inv.subscribed nonzero notFast two with owner | ⟨u, retries, -⟩
          · exact .inl owner
          · exact .inr (.inr ⟨u, retries⟩)
      · exact .inr (.inr retries)
      · exact .inr (.inl wakes)
    refine ⟨answer, ?_⟩
    rcases answer with ⟨u, owns, -⟩ | ⟨u, wakes⟩ | ⟨u, retries⟩
    · exact ⟨u, Pc.present (.inl owns)⟩
    · exact ⟨u, Pc.present (.inr (.inl wakes))⟩
    · exact ⟨u, Pc.present (.inr (.inr retries))⟩

/-! ## The lost wake -/

def unused : State (Option Bool) := ⟨0, 0, [], fun _ => 0, fun _ => .idle⟩

/-- The first thread takes the lock and is switched out, the second one parks, the first
one comes back and exchanges the word with 0. -/
def ownerLeaves : List (Event (Option Bool)) :=
  [.wlock none 0, .go none false, .go none false, .switchOut none,
    .wlock (some false) 0, .go (some false) false, .go (some false) false, .go (some false) false,
    .go (some false) false, .go (some false) false, .switchIn none, .go none false, .go none false]

/-- Before the owner reads its key, the third thread takes the lock on the fast path. -/
def fastOwner : List (Event (Option Bool)) :=
  [.wlock (some true) 0, .go (some true) false, .go none false, .go none false,
    .go (some true) false, .go (some true) false, .go (some true) false]

def number : Option Bool → ℕ
  | none => 0
  | some false => 1
  | some true => 2

def leftBehind : Option (State (Option Bool)) :=
  (ownerLeaves ++ fastOwner).foldlM (State.step number) unused

theorem leftBehind_runs {s : State (Option Bool)} (run : leftBehind = some s) : Runs number s :=
  Reachable.events (.start ⟨rfl, rfl, rfl, fun _ => rfl⟩) run

/-- The lock is free, both other threads have left it, and one thread is parked. -/
theorem parked_thread_left_behind :
    ∃ s, leftBehind = some s ∧ Runs number s ∧ s.count = 0 ∧ s.pcs (some false) = .parked ∧
      s.pcs none = .idle ∧ s.pcs (some true) = .idle := by
  refine ⟨_, rfl, leftBehind_runs rfl, ?_⟩
  decide

/-- A step that reads no key; it meets the condition. -/
def calmStep (s : State (Option Bool)) : Event (Option Bool) → Option (State (Option Bool))
  | .go t spurious => if s.pcs t = .readKey then none else s.step number (.go t spurious)
  | event => s.step number event

theorem clearRuns_of_calm {s : State (Option Bool)}
    (reached : Reachable Boot (fun s s' => ∃ event, calmStep s event = some s') s) :
    ClearRuns number s := by
  refine reached.mono fun s s' ⟨event, taken⟩ => ⟨event, ?_⟩
  cases event with
  | go t spurious =>
    rw [calmStep] at taken
    split at taken
    · cases taken
    next notReading =>
      refine ⟨taken, fun u _ same here => ?_⟩
      cases same
      exact absurd here notReading
  | wlock | switchOut | switchIn => exact ⟨taken, nofun⟩

def ownerLeft : Option (State (Option Bool)) := ownerLeaves.foldlM calmStep unused

theorem ownerLeft_runs {s : State (Option Bool)} (run : ownerLeft = some s) : ClearRuns number s :=
  clearRuns_of_calm (Reachable.events (.start ⟨rfl, rfl, rfl, fun _ => rfl⟩) run)

/-- With the owner before its wake somebody is parked and somebody answers for it. -/
theorem ownerLeft_duty :
    ∃ s, ownerLeft = some s ∧ s.pcs (some false) = .parked ∧ s.count = 0 ∧
      ∃ u, s.pcs u ≠ .idle ∧ s.pcs u ≠ .parked :=
  ⟨_, rfl, by decide, by decide,
    ((exclusive_and_duty_when_clear number).2.2 _ (ownerLeft_runs rfl) ⟨some false, by decide⟩).2⟩

end MiniOsv.Sync.PrLock
