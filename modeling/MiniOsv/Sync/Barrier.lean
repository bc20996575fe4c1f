/-
# Sync.Barrier -- the rounds of `pthread_barrier_wait`

One signed counter serves two purposes: it counts arrivals upwards from 0 and, once the
last of `count` calls has come, departures upwards from `-count + 1`.  New calls are held
back while it is negative.

The mutex of the barrier makes a step of each part between two sleeps.  The state records
in addition how many calls have entered and which number each of them got, so that rounds
need not be read off the code: call `n` belongs to round `n / count`.  A thread that sleeps
on the waitqueue `cv` goes on only after a `wake_all`.
-/
import MiniOsv.Theory.Tally
import MiniOsv.Theory.Transition

namespace MiniOsv.Sync.Barrier

open Theory Nat
open Function

def intMax : ℕ := 2147483647

/-- `-barrier->count + 1`, computed in `unsigned` and stored to an `int`. -/
def negated (count : ℕ) : ℤ := (-(BitVec.ofNat 32 count) + 1).toInt

/-- `(int)barrier->count`. -/
def signed (count : ℕ) : ℤ := (BitVec.ofNat 32 count).toInt

/-- Where a thread is. -/
inductive Pc where
  | idle
  /-- Asleep in the first loop: the previous round has not ended. -/
  | blocked
  /-- Asleep in the second loop, as call number `n`. -/
  | inside (n : ℕ)
  deriving DecidableEq

structure State (ι : Type) where
  state : ℤ
  pcs : ι → Pc
  /-- The threads in the waitqueue `cv`. -/
  cv : ι → Bool
  /-- How many calls have passed the first loop. -/
  entered : ℕ
  /-- What call number `n` has returned: `PTHREAD_BARRIER_SERIAL_THREAD` or 0. -/
  result : ℕ → Option Bool

/-- `pthread_barrier_init`; `none` is `EINVAL`. -/
def init {ι : Type} (count : ℕ) : Option (State ι) :=
  if count = 0 ∨ intMax ≤ count then none
  else some ⟨0, fun _ => .idle, fun _ => false, 0, fun _ => none⟩

/-- A thread calls `pthread_barrier_wait`, or was woken and looks at its condition. -/
inductive Event (ι : Type) where
  | call (t : ι)
  | look (t : ι)

variable {ι : Type} [DecidableEq ι]

/-- The first loop and what follows up to the next sleep or the return. -/
def State.enter (count : ℕ) (s : State ι) (t : ι) : State ι :=
  if s.state < 0 then { s with pcs := update s.pcs t .blocked, cv := update s.cv t true }
  else if s.state + 1 = signed count then
    { state := negated count
      pcs := update s.pcs t .idle
      -- `wake_all`
      cv := fun _ => false
      entered := s.entered + 1
      result := update s.result s.entered (some true) }
  else
    { state := s.state + 1
      pcs := update s.pcs t (.inside s.entered)
      cv := update s.cv t true
      entered := s.entered + 1
      result := s.result }

def State.step (count : ℕ) (s : State ι) : Event ι → Option (State ι)
  | .call t => if s.pcs t = .idle then some (s.enter count t) else none
  | .look t =>
    if s.cv t then none
    else
      match s.pcs t with
      | .idle => none
      | .blocked => some (s.enter count t)
      | .inside n =>
        if 0 < s.state then some { s with cv := update s.cv t true }
        else
          some { s with
                 state := s.state + 1
                 pcs := update s.pcs t .idle
                 cv := if s.state + 1 = 0 then fun _ => false else s.cv
                 result := update s.result n (some false) }

def Runs (count : ℕ) : State ι → Prop :=
  Reachable (fun s => init count = some s) fun s s' => ∃ event, s.step count event = some s'

/-! ## Who sleeps -/

def Pc.present : Pc → ℕ
  | .inside _ => 1
  | _ => 0

/-- Nobody sleeps whose condition holds, and nobody vanishes. -/
structure Awake (s : State ι) : Prop where
  asleep : ∀ t, s.cv t = true →
    s.pcs t = .blocked ∧ s.state < 0 ∨ (s.pcs t).present = 1 ∧ 0 < s.state
  somewhere : ∀ n < s.entered, s.result n = none → ∃ t, s.pcs t = .inside n

section Sleepers

variable {count : ℕ} {s s' : State ι} {t : ι} (awake : Awake s)

include awake

theorem Awake.stays (outside : (s.pcs t).present = 0) {pc : Pc} {n : ℕ} (less : n < s.entered)
    (open' : s.result n = none) : ∃ u, update s.pcs t pc u = .inside n := by
  obtain ⟨u, there⟩ := awake.somewhere n less open'
  have other : u ≠ t := by
    rintro rfl
    rw [there] at outside
    cases outside
  exact ⟨u, by rw [update_of_ne other, there]⟩

theorem Awake.enter (outside : (s.pcs t).present = 0) : Awake (s.enter count t) := by
  rw [State.enter]
  split
  next down =>
    refine ⟨fun u sleeps => ?_, fun n less open' => awake.stays outside less open'⟩
    by_cases same : u = t
    · subst same
      exact .inl ⟨update_self .., down⟩
    · simp only [update_of_ne same] at sleeps ⊢
      exact awake.asleep u sleeps
  next up =>
    split
    · refine ⟨fun u sleeps => (by cases sleeps), fun n less open' => ?_⟩
      simp only at less open'
      by_cases same : n = s.entered
      · rw [same, update_self] at open'
        cases open'
      · rw [update_of_ne same] at open'
        exact awake.stays outside (by omega) open'
    · refine ⟨fun u sleeps => .inr ?_, fun n less open' => ?_⟩
      · by_cases same : u = t
        · subst same
          simp only [update_self]
          exact ⟨rfl, by omega⟩
        · simp only [update_of_ne same] at sleeps ⊢
          obtain ⟨-, down⟩ | ⟨present, positive⟩ := awake.asleep u sleeps
          · exact absurd down up
          · exact ⟨present, by omega⟩
      · by_cases same : n = s.entered
        · exact ⟨t, by simp only [same, update_self]⟩
        · exact awake.stays outside (by simp only at less; omega) open'

/-- **Every step keeps the sleepers asleep for a reason.** -/
theorem Awake.step {event : Event ι} (taken : s.step count event = some s') : Awake s' := by
  cases event with rw [State.step] at taken
  | call t =>
    split at taken <;> cases taken
    rename_i here
    exact awake.enter (by rw [here]; rfl)
  | look t =>
    split at taken
    · cases taken
    · cases here : s.pcs t with simp only [here] at taken
      | idle =>
        cases taken
      | blocked =>
        cases taken
        exact awake.enter (by rw [here]; rfl)
      | inside n =>
        split at taken <;> cases taken
        next positive =>
          refine ⟨fun u sleeps => ?_, awake.somewhere⟩
          by_cases same : u = t
          · subst same
            exact .inr ⟨by rw [here]; rfl, positive⟩
          · simp only [update_of_ne same] at sleeps
            exact awake.asleep u sleeps
        next released =>
          refine ⟨fun u sleeps => .inl ?_, fun m less open' => ?_⟩
          · -- the last one to leave has woken those who are held back
            simp only at sleeps
            split at sleeps
            · cases sleeps
            · obtain ⟨blocked, down⟩ | ⟨-, positive⟩ := awake.asleep u sleeps
              · have other : u ≠ t := by
                  rintro rfl
                  rw [here] at blocked
                  cases blocked
                exact ⟨by simp only [update_of_ne other, blocked], by simp only; omega⟩
              · exact absurd positive released
          · by_cases same : m = n
            · simp only [same, update_self] at open'
              cases open'
            · simp only [update_of_ne same] at open'
              obtain ⟨u, there⟩ := awake.somewhere m less open'
              have other : u ≠ t := by
                rintro rfl
                rw [here] at there
                cases there
                exact same rfl
              exact ⟨u, by simp only [update_of_ne other, there]⟩

end Sleepers

/-! ## The invariant -/

variable [Fintype ι]

/-- The round that is arriving or leaving: while the counter is negative the calls of the
last round are still there. -/
structure Inv (count : ℕ) (s : State ι) : Prop where
  /-- Arrivals are those of the current round. -/
  arriving : 0 ≤ s.state → s.state = (s.entered % count : ℕ) ∧
    s.state = (tally Pc.present s.pcs : ℕ) ∧ ∀ t n, s.pcs t = .inside n → n / count = s.entered / count
  /-- Departures are those of the round before. -/
  leaving : s.state < 0 → s.entered % count = 0 ∧ -s.state = (tally Pc.present s.pcs : ℕ) ∧
    ∀ t n, s.pcs t = .inside n → n / count + 1 = s.entered / count
  inside : ∀ t n, s.pcs t = .inside n → n < s.entered ∧ n % count + 1 ≠ count ∧ s.result n = none
  distinct : ∀ t u n, s.pcs t = .inside n → s.pcs u = .inside n → t = u
  returned : ∀ n result, s.result n = some result →
    (n / count + 1) * count ≤ s.entered ∧ (result = true ↔ n % count + 1 = count)
  serial : ∀ n, n < s.entered → n % count + 1 = count → s.result n = some true

section Steps

variable {count : ℕ} {s s' : State ι} {t : ι} {cv : ι → Bool}

omit [DecidableEq ι] [Fintype ι] in
theorem signed_eq (small : count < intMax) : signed count = count := by
  unfold intMax at small
  rw [signed, BitVec.toInt_eq_toNat_cond, BitVec.toNat_ofNat, mod_eq_of_lt (by omega)]
  split <;> omega

theorem negated_eq (positive : 0 < count) (small : count < intMax) : negated count = 1 - count := by
  unfold intMax at small
  have plain : (BitVec.ofNat 32 count).toNat = count := by
    rw [BitVec.toNat_ofNat, mod_eq_of_lt]
    omega
  have value : (-(BitVec.ofNat 32 count) + 1).toNat = (4294967296 - count + 1) % 4294967296 := by
    rw [BitVec.toNat_add, BitVec.toNat_neg, plain, show (1 : BitVec 32).toNat = 1 from rfl]
    omega
  rw [negated, BitVec.toInt_eq_toNat_cond, value]
  split <;> omega

theorem next_same {e : ℕ} (before : e % count + 1 < count) :
    (e + 1) / count = e / count ∧ (e + 1) % count = e % count + 1 := by
  have parts : e + 1 = count * (e / count) + (e % count + 1) := by
    rw [← add_assoc, div_add_mod]
  rw [parts, mul_add_div (by omega), mul_add_mod, div_eq_of_lt before,
    mod_eq_of_lt before]
  exact ⟨rfl, rfl⟩

theorem next_round {e : ℕ} (last : e % count + 1 = count) :
    (e + 1) / count = e / count + 1 ∧ (e + 1) % count = 0 ∧
      (e / count + 1) * count = e + 1 := by
  have parts : e + 1 = count * (e / count + 1) := by
    have := Nat.div_add_mod e count
    rw [Nat.mul_add, Nat.mul_one]
    omega
  have positive : 0 < count := by omega
  refine ⟨?_, ?_, ?_⟩
  · rw [parts, Nat.mul_div_cancel_left _ positive]
  · rw [parts, Nat.mul_mod_right]
  · rw [Nat.mul_comm, ← parts]

omit [DecidableEq ι] in
theorem not_inside {pcs : ι → Pc} (none : tally Pc.present pcs = 0) (n : ℕ) :
    pcs t ≠ .inside n := fun at' => by
  have := tally_eq_zero.1 none t
  rw [at'] at this
  cases this

section

variable (inv : Inv count s)

include inv

theorem Inv.block (outside : (s.pcs t).present = 0) {pc : Pc}
    (outside' : pc.present = 0) : Inv count { s with pcs := update s.pcs t pc, cv := cv } := by
  have share := tally_update Pc.present s.pcs t pc
  rw [outside, outside', add_zero, add_zero] at share
  have there : ∀ u n, update s.pcs t pc u = .inside n → s.pcs u = .inside n := by
    intro u n at'
    by_cases same : u = t
    · rw [same, update_self] at at'
      rw [at'] at outside'
      cases outside'
    · rwa [update_of_ne same] at at'
  refine ⟨fun up => ?_, fun down => ?_, fun u n at' => inv.inside u n (there u n at'),
    fun u v n atU atV => inv.distinct u v n (there u n atU) (there v n atV), inv.returned, inv.serial⟩
  · obtain ⟨mod, present, round⟩ := inv.arriving up
    exact ⟨mod, share.symm ▸ present, fun u n at' => round u n (there u n at')⟩
  · obtain ⟨mod, present, round⟩ := inv.leaving down
    exact ⟨mod, share.symm ▸ present, fun u n at' => round u n (there u n at')⟩

/-- The last call of a round enters and returns. -/
theorem Inv.last (positive : 0 < count) (outside : (s.pcs t).present = 0)
    (up : 0 ≤ s.state) (full : s.state + 1 = count) :
    Inv count ⟨1 - count, update s.pcs t .idle, cv, s.entered + 1,
      update s.result s.entered (some true)⟩ := by
  obtain ⟨mod, present, round⟩ := inv.arriving up
  have last : s.entered % count + 1 = count := by omega
  obtain ⟨div', mod', whole⟩ := next_round last
  have moved : Inv count { s with pcs := update s.pcs t .idle, cv := cv } :=
    inv.block outside (show Pc.idle.present = 0 from rfl)
  have share := tally_update Pc.present s.pcs t .idle
  rw [outside, show Pc.idle.present = 0 from rfl, add_zero, add_zero] at share
  refine ⟨fun up' => ?_, fun down' => ?_, fun u n at' => ?_, moved.distinct, fun n result at' => ?_,
    fun n less isLast => ?_⟩
  · have one : count = 1 := by
      change (0 : ℤ) ≤ 1 - count at up'
      omega
    have nobody : tally Pc.present (update s.pcs t .idle) = 0 := by omega
    refine ⟨?_, ?_, fun u n at' => absurd at' (not_inside nobody n)⟩
    · change (1 : ℤ) - count = ((s.entered + 1) % count : ℕ)
      rw [mod', one]
      rfl
    · change (1 : ℤ) - count = (tally Pc.present (update s.pcs t .idle) : ℕ)
      rw [nobody, one]
      rfl
  · refine ⟨mod', ?_, fun u n at' => ?_⟩
    · change -((1 : ℤ) - count) = (tally Pc.present (update s.pcs t .idle) : ℕ)
      omega
    · change n / count + 1 = (s.entered + 1) / count
      rw [div', (moved.arriving up).2.2 u n at']
  · obtain ⟨less, notLast, open'⟩ := moved.inside u n at'
    refine ⟨Nat.lt_succ_of_lt less, notLast, ?_⟩
    change update s.result s.entered (some true) n = none
    rwa [update_of_ne (Nat.ne_of_lt less)]
  · change update s.result s.entered (some true) n = some result at at'
    by_cases same : n = s.entered
    · rw [same, update_self] at at'
      cases at'
      rw [same]
      exact ⟨le_of_eq whole, ⟨fun _ => last, fun _ => rfl⟩⟩
    · rw [update_of_ne same] at at'
      obtain ⟨complete, which⟩ := inv.returned n result at'
      exact ⟨le_succ_of_le complete, which⟩
  · change update s.result s.entered (some true) n = some true
    by_cases same : n = s.entered
    · rw [same, update_self]
    · rw [update_of_ne same]
      exact inv.serial n (lt_of_le_of_ne (le_of_lt_succ less) same) isLast

theorem Inv.arrive (positive : 0 < count) (outside : (s.pcs t).present = 0)
    (up : 0 ≤ s.state) (notFull : s.state + 1 ≠ count) :
    Inv count ⟨s.state + 1, update s.pcs t (.inside s.entered), cv, s.entered + 1, s.result⟩ := by
  obtain ⟨mod, present, round⟩ := inv.arriving up
  have bound := mod_lt s.entered positive
  have before : s.entered % count + 1 < count := by omega
  obtain ⟨div', mod'⟩ := next_same before
  have share := tally_update Pc.present s.pcs t (.inside s.entered)
  rw [outside, show (Pc.inside s.entered).present = 1 from rfl, add_zero] at share
  have each : ∀ u n, update s.pcs t (.inside s.entered) u = .inside n →
      u = t ∧ n = s.entered ∨ u ≠ t ∧ s.pcs u = .inside n := by
    intro u n at'
    by_cases same : u = t
    · rw [same, update_self] at at'
      cases at'
      exact .inl ⟨same, rfl⟩
    · rw [update_of_ne same] at at'
      exact .inr ⟨same, at'⟩
  refine ⟨fun _ => ?_, fun down => ?_, fun u n at' => ?_, fun u v n atU atV => ?_,
    fun n result at' => ?_, fun n less isLast => ?_⟩
  · refine ⟨?_, ?_, fun u n at' => ?_⟩
    · change s.state + 1 = ((s.entered + 1) % count : ℕ)
      rw [mod']
      omega
    · change s.state + 1 = (tally Pc.present (update s.pcs t (.inside s.entered)) : ℕ)
      omega
    · change n / count = (s.entered + 1) / count
      rw [div']
      rcases each u n at' with ⟨-, rfl⟩ | ⟨-, there⟩
      · rfl
      · exact round u n there
  · change s.state + 1 < 0 at down
    omega
  · rcases each u n at' with ⟨-, rfl⟩ | ⟨-, there⟩
    · refine ⟨Nat.lt_succ_self _, Nat.ne_of_lt before, ?_⟩
      by_contra some
      obtain ⟨result, at'⟩ := Option.ne_none_iff_exists'.1 some
      have complete := (inv.returned _ result at').1
      have := Nat.lt_div_mul_add (a := s.entered) positive
      rw [Nat.add_mul, Nat.one_mul] at complete
      omega
    · obtain ⟨less, notLast, open'⟩ := inv.inside u n there
      exact ⟨Nat.lt_succ_of_lt less, notLast, open'⟩
  · rcases each u n atU with ⟨hereU, rfl⟩ | ⟨neU, thereU⟩ <;>
      rcases each v _ atV with ⟨hereV, same⟩ | ⟨neV, thereV⟩
    · rw [hereU, hereV]
    · exact absurd (inv.inside v _ thereV).1 (lt_irrefl _)
    · rw [same] at thereU
      exact absurd (inv.inside u _ thereU).1 (lt_irrefl _)
    · exact inv.distinct u v n thereU thereV
  · obtain ⟨complete, which⟩ := inv.returned n result at'
    exact ⟨le_succ_of_le complete, which⟩
  · by_cases same : n = s.entered
    · rw [same] at isLast
      omega
    · exact inv.serial n (lt_of_le_of_ne (le_of_lt_succ less) same) isLast

theorem Inv.enter (positive : 0 < count) (small : count < intMax)
    (outside : (s.pcs t).present = 0) : Inv count (s.enter count t) := by
  rw [State.enter]
  split
  · exact inv.block outside rfl
  next notDown =>
    rw [signed_eq small, negated_eq positive small]
    split
    next full =>
      exact inv.last positive outside (by omega) full
    next notFull =>
      exact inv.arrive positive outside (by omega) notFull

theorem Inv.leave {n : ℕ} (here : s.pcs t = .inside n)
    (released : ¬0 < s.state) :
    Inv count { s with state := s.state + 1
                       pcs := update s.pcs t .idle
                       cv := cv
                       result := update s.result n (some false) } := by
  have share := tally_update Pc.present s.pcs t .idle
  rw [here, show (Pc.inside n).present = 1 from rfl, show Pc.idle.present = 0 from rfl,
    add_zero] at share
  -- the thread itself is present, so the counter is negative
  have down : s.state < 0 := by
    by_contra up
    obtain ⟨-, present, -⟩ := inv.arriving (by omega)
    omega
  obtain ⟨mod, present, round⟩ := inv.leaving down
  obtain ⟨less, notLast, -⟩ := inv.inside t n here
  have each : ∀ u m, update s.pcs t .idle u = .inside m → u ≠ t ∧ s.pcs u = .inside m := by
    intro u m at'
    by_cases same : u = t
    · rw [same, update_self] at at'
      cases at'
    · rw [update_of_ne same] at at'
      exact ⟨same, at'⟩
  refine ⟨fun up' => ?_, fun down' => ?_, fun u m at' => ?_, fun u v m atU atV => ?_,
    fun m result at' => ?_, fun m less' isLast => ?_⟩
  · change 0 ≤ s.state + 1 at up'
    have nobody : tally Pc.present (update s.pcs t .idle) = 0 := by omega
    refine ⟨?_, ?_, fun u m at' => absurd at' (not_inside nobody m)⟩
    · change s.state + 1 = (s.entered % count : ℕ)
      rw [mod]
      omega
    · change s.state + 1 = (tally Pc.present (update s.pcs t .idle) : ℕ)
      omega
  · refine ⟨mod, ?_, fun u m at' => round u m (each u m at').2⟩
    change -(s.state + 1) = (tally Pc.present (update s.pcs t .idle) : ℕ)
    omega
  · obtain ⟨ne, there⟩ := each u m at'
    obtain ⟨less', notLast', open'⟩ := inv.inside u m there
    refine ⟨less', notLast', ?_⟩
    have other : m ≠ n := fun same => ne (inv.distinct u t n (same ▸ there) here)
    change update s.result n (some false) m = none
    rwa [update_of_ne other]
  · exact inv.distinct u v m (each u m atU).2 (each v m atV).2
  · change update s.result n (some false) m = some result at at'
    by_cases same : m = n
    · rw [same, update_self] at at'
      cases at'
      rw [same, round t n here]
      exact ⟨div_mul_le_self _ _, ⟨fun no => absurd no (by decide), fun yes => absurd yes notLast⟩⟩
    · rw [update_of_ne same] at at'
      exact inv.returned m result at'
  · change update s.result n (some false) m = some true
    have other : m ≠ n := fun same => notLast (same ▸ isLast)
    rw [update_of_ne other]
    exact inv.serial m less' isLast

/-- **Every step keeps the invariant.** -/
theorem Inv.step (positive : 0 < count) (small : count < intMax)
    {event : Event ι} (taken : s.step count event = some s') : Inv count s' := by
  cases event with rw [State.step] at taken
  | call t =>
    split at taken <;> cases taken
    rename_i here
    exact inv.enter positive small (by rw [here]; rfl)
  | look t =>
    split at taken
    · cases taken
    · cases here : s.pcs t with simp only [here] at taken
      | idle =>
        cases taken
      | blocked =>
        cases taken
        exact inv.enter positive small (by rw [here]; rfl)
      | inside n =>
        split at taken <;> cases taken
        · exact ⟨inv.arriving, inv.leaving, inv.inside, inv.distinct, inv.returned, inv.serial⟩
        next released =>
          exact inv.leave here released

end

omit [DecidableEq ι] in
/-- `pthread_barrier_init` accepts the counts for which the arithmetic is right. -/
theorem init_spec (accepted : init count = some s) :
    0 < count ∧ count < intMax ∧ Inv count s ∧ Awake s := by
  rw [init] at accepted
  split at accepted <;> cases accepted
  next valid =>
    rw [not_or] at valid
    refine ⟨by omega, by omega, ?_, fun _ sleeps => (by cases sleeps), fun _ less => (by cases less)⟩
    have nobody : tally Pc.present (fun _ : ι => Pc.idle) = 0 := tally_eq_zero.2 fun _ => rfl
    refine ⟨fun _ => ⟨?_, ?_, fun t n at' => ?_⟩, fun down => absurd down (Int.lt_irrefl 0),
      fun t n at' => ?_, fun t u n at' => ?_, fun n result at' => ?_,
      fun n less => absurd less (not_lt_zero n)⟩
    · simp
    · change (0 : ℤ) = (tally Pc.present (fun _ : ι => Pc.idle) : ℕ)
      rw [nobody]
      rfl
    all_goals cases at'

theorem Runs.inv (reached : Runs count s) : 0 < count ∧ Inv count s ∧ Awake s := by
  have strong : 0 < count ∧ count < intMax ∧ Inv count s ∧ Awake s :=
    reached.invariant (I := fun s => 0 < count ∧ count < intMax ∧ Inv count s ∧ Awake s)
      (fun _ accepted => init_spec accepted)
      fun _ _ _ ⟨positive, small, inv, awake⟩ ⟨_, taken⟩ =>
        ⟨positive, small, inv.step positive small taken, awake.step taken⟩
  exact ⟨strong.1, strong.2.2⟩

end Steps

/-- **The barrier.**  Call number `n` belongs to round `n / count`.  In every state that any
interleaving of calls leads to: a call has returned only if all `count` calls of its round
have entered; it has returned `PTHREAD_BARRIER_SERIAL_THREAD` exactly if it was the last of
its round, so each complete round has exactly one such call; as long as a call of a
round has not returned, no call of a later round has entered.  Nobody is forgotten: a call of a
complete round has returned or is awake and returns 0 with its next step, and a call that is
held back is awake when the round before has left. -/
theorem rounds_of_count (count : ℕ) (s : State ι) (reached : Runs count s) :
    (∀ n result, s.result n = some result →
      (n / count + 1) * count ≤ s.entered ∧ (result = true ↔ n % count + 1 = count)) ∧
    (∀ round, (round + 1) * count ≤ s.entered →
      ∃! n, n / count = round ∧ s.result n = some true) ∧
    (∀ t n, s.pcs t = .inside n →
      n < s.entered ∧ s.result n = none ∧ s.entered ≤ (n / count + 1) * count) ∧
    (∀ t u n, s.pcs t = .inside n → s.pcs u = .inside n → t = u) ∧
    (∀ n, (n / count + 1) * count ≤ s.entered → s.result n = none →
      ∃ t s', s.pcs t = .inside n ∧ s.step count (.look t) = some s' ∧ s'.result n = some false) ∧
    ∀ t, s.pcs t = .blocked → 0 ≤ s.state → s.cv t = false := by
  obtain ⟨positive, inv, awake⟩ := reached.inv
  refine ⟨inv.returned, fun round complete => ?_, fun t n at' => ?_, inv.distinct,
    fun n complete open' => ?_, fun t blocked up => ?_⟩
  · have whole : (round * count + (count - 1)) / count = round ∧
        (round * count + (count - 1)) % count = count - 1 := by
      rw [mul_comm, mul_add_div positive, mul_add_mod, div_eq_of_lt (by omega),
        Nat.mod_eq_of_lt (by omega)]
      exact ⟨rfl, rfl⟩
    rw [Nat.add_mul, Nat.one_mul] at complete
    refine ⟨round * count + (count - 1), ⟨whole.1, ?_⟩, fun n ⟨same, serial⟩ => ?_⟩
    · exact inv.serial _ (by omega) (by rw [whole.2]; omega)
    · have last := (inv.returned n true serial).2.1 rfl
      have parts := div_add_mod n count
      rw [same, mul_comm] at parts
      omega
  · obtain ⟨less, -, open'⟩ := inv.inside t n at'
    refine ⟨less, open', ?_⟩
    by_cases up : 0 ≤ s.state
    · rw [(inv.arriving up).2.2 t n at', Nat.add_mul, Nat.one_mul]
      exact Nat.le_of_lt (Nat.lt_div_mul_add positive)
    · obtain ⟨even, -, round⟩ := inv.leaving (by omega)
      rw [round t n at', Nat.div_mul_cancel (Nat.dvd_of_mod_eq_zero even)]
  · have entered : n < s.entered :=
      lt_of_lt_of_le (by rw [Nat.add_mul, Nat.one_mul]; exact Nat.lt_div_mul_add positive) complete
    obtain ⟨t, there⟩ := awake.somewhere n entered open'
    -- the round is complete, so the counter is negative and nobody inside sleeps
    have down : s.state < 0 := by
      by_contra up
      have round := (inv.arriving (by omega)).2.2 t n there
      have := Nat.lt_div_mul_add (a := s.entered) positive
      rw [round, Nat.add_mul, Nat.one_mul] at complete
      omega
    have woken : s.cv t = false := by
      by_contra sleeps
      obtain ⟨blocked, -⟩ | ⟨-, up⟩ := awake.asleep t (by simpa using sleeps)
      · rw [there] at blocked
        cases blocked
      · omega
    obtain ⟨s', looked⟩ : ∃ s', s.step count (.look t) = some s' ∧ s'.result n = some false := by
      simp only [State.step, woken, there, if_neg (show ¬0 < s.state by omega)]
      exact ⟨_, rfl, update_self ..⟩
    exact ⟨t, s', there, looked⟩
  · by_contra sleeps
    obtain ⟨-, down⟩ | ⟨present, -⟩ := awake.asleep t (by simpa using sleeps)
    · omega
    · rw [blocked] at present
      cases present

/-- Two threads meet twice at a barrier for two; the second to come is the serial one. -/
def twoRounds : Option (State Bool) := do
  let s ← init 2
  [.call false, .call true, .call true, .look false, .look true, .call false].foldlM
    (State.step 2) s

theorem twoRounds_serial :
    ∃ s, twoRounds = some s ∧ s.entered = 4 ∧ s.result 0 = some false ∧
      ∃! n, n / 2 = 1 ∧ s.result n = some true := by
  have run : ∃ s, twoRounds = some s ∧ s.entered = 4 ∧ s.result 0 = some false :=
    ⟨_, rfl, by decide, by decide⟩
  obtain ⟨s, run, four, first⟩ := run
  exact ⟨s, run, four, first, (rounds_of_count 2 s (Reachable.events (.start rfl) run)).2.1 1 (by rw [four])⟩

end MiniOsv.Sync.Barrier
