/-
# Arch.Pvclock -- reading the host's clock pages

The host makes the version of a page odd, changes the fields and makes it even again.  A reader
takes the version before and after the fields and repeats until its check passes.  `system_time`
asks for an even version that is the same twice, `wall_clock_boot` only for the same one, so it
may return fields of an update that is not finished.  That takes a turn that reads the same odd
version twice; otherwise the fields are those of one completed update (`clocks_consistent`).

If the host does not call the TSC stable, `system_time` returns no less than what is in `_last`,
the largest value returned so far: later calls do not go back (`later_not_smaller`).
-/
import Mathlib.Algebra.Order.Ring.Int
import MiniOsv.Theory.Transition

namespace MiniOsv.Arch.Pvclock

open Theory (Reachable)
open Function List

/-! ## One update -/

/-- A page over time: how often its version was written, and the fields.  A step writes the
version or, while it is odd, fields. -/
structure Host (ι V : Type) where
  writes : ℕ → ℕ
  fields : ℕ → ι → V
  mono : Monotone writes
  still : ∀ n, writes n % 2 = 0 ∨ writes n ≠ writes (n + 1) → fields (n + 1) = fields n

/-- What one turn of the loop reads. -/
structure Attempt (ι V : Type) where
  v1 : BitVec 32
  fields : ι → V
  v2 : BitVec 32

variable {ι V α : Type}

/-- The loop of both functions; `checksOdd` is the part of the condition that only `system_time`
has.  Without another turn there is no result. -/
def readLoop (checksOdd : Bool) (value : (ι → V) → α) : List (Attempt ι V) → Option α
  | [] => none
  | turn :: rest =>
    if (checksOdd && turn.v1.getLsbD 0) || turn.v1 != turn.v2 then readLoop checksOdd value rest
    else some (value turn.fields)

inductive WallField where
  | sec | nsec

def wallValue (fields : WallField → BitVec 32) : BitVec 64 :=
  (fields .sec).setWidth 64 * 1000000000 + (fields .nsec).setWidth 64

def wallClockBoot : List (Attempt WallField (BitVec 32)) → Option (BitVec 64) :=
  readLoop false wallValue

inductive SysField where
  | tscTimestamp | systemTime | tscToSystemMul | tscShift | flags

def processorToNano (shift : BitVec 8) (mul : BitVec 32) (time : BitVec 64) : BitVec 64 :=
  let shifted := if 0 ≤ shift.toInt then time <<< shift.toNat else time >>> (-shift.toInt).toNat
  ((shifted.setWidth 128 * mul.setWidth 128) >>> 32).setWidth 64

/-- The time and the flags, for a value of the TSC. -/
def sysValue (rdtsc : BitVec 64) (fields : SysField → BitVec 64) : BitVec 64 × BitVec 8 :=
  (fields .systemTime + processorToNano ((fields .tscShift).setWidth 8)
    ((fields .tscToSystemMul).setWidth 32) (rdtsc - fields .tscTimestamp),
    (fields .flags).setWidth 8)

/-- The loop of `system_time`; the TSC is that of the turn that counts. -/
def systemTimeLoop (rdtsc : BitVec 64) :
    List (Attempt SysField (BitVec 64)) → Option (BitVec 64 × BitVec 8) :=
  readLoop true (sysValue rdtsc)

/-- The turn reads the page between two moments, during fewer than 2^32 writes of the version. -/
def Attempt.Seen (turn : Attempt ι V) (host : Host ι V) : Prop :=
  ∃ (m n : ℕ) (at_ : ι → ℕ), m ≤ n ∧ host.writes n < host.writes m + 2 ^ 32 ∧
    turn.v1 = BitVec.ofNat 32 (host.writes m) ∧ turn.v2 = BitVec.ofNat 32 (host.writes n) ∧
    ∀ i, m ≤ at_ i ∧ at_ i ≤ n ∧ turn.fields i = host.fields (at_ i) i

/-- Between two moments with the same even version the fields stay. -/
theorem Host.fields_stay (host : Host ι V) {m n : ℕ} (le : m ≤ n)
    (same : host.writes n = host.writes m) (even : host.writes m % 2 = 0) :
    host.fields n = host.fields m := by
  induction n, le using Nat.le_induction with
  | base => rfl
  | succ n le ih =>
    have before : host.writes n = host.writes m :=
      le_antisymm ((host.mono n.le_succ).trans same.le) (host.mono le)
    rw [host.still n (.inl (before ▸ even)), ih before]

theorem Attempt.Seen.fields_eq {turn : Attempt ι V} {host : Host ι V} (seen : turn.Seen host)
    (even : turn.v1.getLsbD 0 = false) (same : turn.v1 = turn.v2) :
    ∃ k, host.writes k % 2 = 0 ∧ turn.fields = host.fields k := by
  obtain ⟨m, n, at_, le, few, first, second, reads⟩ := seen
  have low := host.mono le
  have equal : host.writes n = host.writes m := by
    rw [first, second, ← BitVec.toNat_inj, BitVec.toNat_ofNat, BitVec.toNat_ofNat] at same
    omega
  have parity : host.writes m % 2 = 0 := by
    rw [first, BitVec.getLsbD_ofNat] at even
    simpa [Nat.testBit_zero] using even
  refine ⟨m, parity, funext fun i => ?_⟩
  obtain ⟨after, before, read⟩ := reads i
  have between := le_antisymm ((host.mono before).trans equal.le) (host.mono after)
  rw [read, host.fields_stay after between parity]

/-- The turn reads the same odd version before and after the fields. -/
def Attempt.OddTwice (turn : Attempt ι V) : Prop :=
  turn.v1 = turn.v2 ∧ turn.v1.getLsbD 0 = true

/-- The loop checks for an odd version or never reads one twice. -/
theorem readLoop_consistent {host : Host ι V} {checksOdd : Bool} {value : (ι → V) → α} {r : α}
    {turns : List (Attempt ι V)} (seen : ∀ turn ∈ turns, turn.Seen host)
    (even : checksOdd = false → ∀ turn ∈ turns, ¬turn.OddTwice)
    (result : readLoop checksOdd value turns = some r) :
    ∃ k, host.writes k % 2 = 0 ∧ r = value (host.fields k) := by
  induction turns with
  | nil => cases result
  | cons turn rest ih =>
    rw [readLoop] at result
    split at result
    · exact ih (fun turn mem => seen turn (.tail _ mem))
        (fun odd turn mem => even odd turn (.tail _ mem)) result
    next passed =>
      simp only [Bool.or_eq_true, Bool.and_eq_true, bne_iff_ne, not_or, not_and, not_not,
        Bool.not_eq_true] at passed
      have parity : turn.v1.getLsbD 0 = false := by
        cases checksOdd with
        | true => exact passed.1 rfl
        | false =>
          refine Bool.eq_false_iff.2 fun odd => ?_
          exact even rfl turn mem_cons_self ⟨passed.2, odd⟩
      obtain ⟨k, done, fields⟩ := (seen turn mem_cons_self).fields_eq parity passed.2
      exact ⟨k, done, by rw [← Option.some.inj result, fields]⟩

/-- One update of two fields: the version is made odd, one field is written, then the other, and
the version is made even. -/
def Host.oneUpdate (version : ℕ) (even : version % 2 = 0) (before between after : ι → V) :
    Host ι V where
  writes n := if n = 0 then version else if n < 4 then version + 1 else version + 2
  fields n := if n < 2 then before else if n < 3 then between else after
  mono m n le := by
    dsimp only
    split_ifs <;> omega
  still n quiet := by
    have outside : n ≠ 1 ∧ n ≠ 2 := by
      constructor <;> rintro rfl <;> simp at quiet <;> omega
    have first : n + 1 < 2 ↔ n < 2 := by omega
    have second : n + 1 < 3 ↔ n < 3 := by omega
    simp only [first, second]

/-- A turn may have read any values between the two writes. -/
theorem Attempt.OddTwice.seen {turn : Attempt ι V} (odd : turn.OddTwice) (before after : ι → V) :
    ∃ version even, turn.Seen (Host.oneUpdate version even before turn.fields after) := by
  have parity : turn.v1.toNat % 2 = 1 := by
    simpa [BitVec.getLsbD, Nat.testBit_zero] using odd.2
  refine ⟨turn.v1.toNat - 1, by omega, 2, 2, fun _ => 2, le_rfl, by omega, ?_, ?_,
    fun i => ⟨le_rfl, le_rfl, rfl⟩⟩
  · exact BitVec.eq_of_toNat_eq (by simp [Host.oneUpdate]; omega)
  · exact odd.1 ▸ BitVec.eq_of_toNat_eq (by simp [Host.oneUpdate]; omega)

def wallFields (sec nsec : BitVec 32) : WallField → BitVec 32
  | .sec => sec
  | .nsec => nsec

/-- The product does not overflow. -/
theorem wallValue_toNat (fields : WallField → BitVec 32) :
    (wallValue fields).toNat = (fields .sec).toNat * 1000000000 + (fields .nsec).toNat := by
  have secs := (fields .sec).isLt
  have nsecs := (fields .nsec).isLt
  have nano : (1000000000 : BitVec 64).toNat = 1000000000 := by decide
  rw [wallValue, BitVec.toNat_add, BitVec.toNat_mul, BitVec.toNat_setWidth, BitVec.toNat_setWidth,
    nano]
  omega

theorem wallValue_ne_nsec (fields : WallField → BitVec 32) :
    wallValue fields ≠ wallValue (wallFields (fields .sec) (fields .nsec + 1)) := by
  have nsecs := (fields .nsec).isLt
  rw [ne_eq, ← BitVec.toNat_inj, wallValue_toNat, wallValue_toNat]
  simp only [wallFields, BitVec.toNat_add, BitVec.ofNat_eq_ofNat, BitVec.toNat_ofNat]
  omega

theorem wallValue_ne_sec (fields : WallField → BitVec 32) :
    wallValue fields ≠ wallValue (wallFields (fields .sec + 1) (fields .nsec)) := by
  have secs := (fields .sec).isLt
  rw [ne_eq, ← BitVec.toNat_inj, wallValue_toNat, wallValue_toNat]
  simp only [wallFields, BitVec.toNat_add, BitVec.ofNat_eq_ofNat, BitVec.toNat_ofNat]
  omega

/-- **What the clocks return is computed from one completed update**: for `system_time` always, for
`wall_clock_boot` if no turn reads the same odd version twice.  One that does is the last turn, and
its values may be those of no completed update, whatever they are. -/
theorem clocks_consistent (wall : Host WallField (BitVec 32)) (sys : Host SysField (BitVec 64)) :
    (∀ turns r, (∀ turn ∈ turns, turn.Seen wall ∧ ¬turn.OddTwice) →
      wallClockBoot turns = some r → ∃ k, wall.writes k % 2 = 0 ∧ r = wallValue (wall.fields k)) ∧
    (∀ turn : Attempt WallField (BitVec 32), turn.OddTwice →
      ∃ (other : Host WallField (BitVec 32)) (r : BitVec 64), turn.Seen other ∧
        wallClockBoot [turn] = some r ∧
        ∀ k, other.writes k % 2 = 0 → r ≠ wallValue (other.fields k)) ∧
    ∀ rdtsc turns r, (∀ turn ∈ turns, turn.Seen sys) → systemTimeLoop rdtsc turns = some r →
      ∃ k, sys.writes k % 2 = 0 ∧ r = sysValue rdtsc (sys.fields k) := by
  refine ⟨fun turns r seen => ?_, fun turn odd => ?_, fun rdtsc turns r seen => ?_⟩
  · exact readLoop_consistent (fun turn mem => (seen turn mem).1)
      fun _ turn mem => (seen turn mem).2
  · -- The nanoseconds were another number before, and the seconds are one after.
    obtain ⟨version, even, seen⟩ := odd.seen
      (wallFields (turn.fields .sec) (turn.fields .nsec + 1))
      (wallFields (turn.fields .sec + 1) (turn.fields .nsec))
    refine ⟨_, wallValue turn.fields, seen, by simp [wallClockBoot, readLoop, odd.1],
      fun k done => ?_⟩
    have outside : k < 2 ∨ ¬k < 3 := by
      simp only [Host.oneUpdate] at done
      split_ifs at done <;> omega
    obtain early | late := outside
    · simpa only [Host.oneUpdate, if_pos early] using wallValue_ne_nsec turn.fields
    · have second : ¬k < 2 := fun early => late (early.trans (by decide))
      simpa only [Host.oneUpdate, if_neg late, if_neg second] using wallValue_ne_sec turn.fields
  · exact readLoop_consistent seen nofun

/-- The host sets the wall clock from 1.5 s to 2 s, first the seconds. -/
def ticking : Host WallField (BitVec 32) :=
  .oneUpdate 0 rfl (wallFields 1 500000000) (wallFields 2 500000000) (wallFields 2 0)

/-- A reading of the page, with the version before at another moment than the rest. -/
def readAt (m n : ℕ) : Attempt WallField (BitVec 32) :=
  ⟨BitVec.ofNat 32 (ticking.writes m), ticking.fields n, BitVec.ofNat 32 (ticking.writes n)⟩

theorem readAt_seen {m n : ℕ} (le : m ≤ n) (few : ticking.writes n < ticking.writes m + 2 ^ 32) :
    (readAt m n).Seen ticking :=
  ⟨m, n, fun _ => n, le, few, rfl, rfl, fun _ => ⟨le, le_rfl, rfl⟩⟩

/-- The first turn starts with an odd version and ends with an even one. -/
theorem newTime_consistent : ∃ k, ticking.writes k % 2 = 0 ∧
    2000000000#64 = wallValue (ticking.fields k) := by
  have seen : ∀ turn ∈ [readAt 2 4, readAt 4 4], turn.Seen ticking ∧ ¬turn.OddTwice := by
    simp only [forall_mem_cons, not_mem_nil, false_implies, implies_true, and_true]
    exact ⟨⟨readAt_seen (by decide) (by decide), by simp [Attempt.OddTwice]; decide⟩,
      readAt_seen le_rfl (by decide), by simp [Attempt.OddTwice]; decide⟩
  exact (clocks_consistent ticking
    ⟨fun _ => 0, fun _ _ => 0, fun _ _ _ => le_rfl, fun _ _ => rfl⟩).1 _ _ seen (by decide)

/-- In the middle of the update 2.5 s are returned, which the clock never shows. -/
theorem halfUpdate_returned :
    (readAt 2 2).Seen ticking ∧ wallClockBoot [readAt 2 2] = some 2500000000 ∧
      ∀ k, ticking.writes k % 2 = 0 → wallValue (ticking.fields k) ≠ 2500000000 := by
  refine ⟨readAt_seen le_rfl (by decide), by decide, fun k even => ?_⟩
  match k with
  | 0 => decide
  | 1 | 2 | 3 => cases even
  | _ + 4 => exact (by decide : wallValue (ticking.fields 4) ≠ 2500000000)

/-! ## The largest value so far -/

/-- Where a call of `system_time` is after its snapshot. -/
inductive Pc where
  | idle
  /-- At the load of `_last`. -/
  | load (time : ℕ)
  /-- At the compare-exchange. -/
  | exchange (time currentLast : ℕ)

/-- `returned` are the results so far, `before` those at the start of a thread's call, and
`calls` pairs each result with them. -/
structure State (κ : Type) where
  last : ℕ
  pcs : κ → Pc
  returned : List ℕ
  before : κ → List ℕ
  calls : List (List ℕ × ℕ)

inductive Event (κ : Type) where
  /-- A call whose snapshot gives a time, with the valid flags of the host. -/
  | start (t : κ) (time : ℕ) (flags : BitVec 8)
  /-- The next access; a weak exchange may fail for no reason. -/
  | go (t : κ) (spurious : Bool)

variable {κ : Type} [DecidableEq κ]

def State.ret (s : State κ) (t : κ) (result : ℕ) : State κ :=
  { s with pcs := update s.pcs t .idle, returned := result :: s.returned,
           calls := (s.before t, result) :: s.calls }

/-- The test at the head of the loop. -/
def State.test (s : State κ) (t : κ) (time currentLast : ℕ) : State κ :=
  if time ≤ currentLast then s.ret t currentLast
  else { s with pcs := update s.pcs t (.exchange time currentLast) }

def State.step (s : State κ) : Event κ → Option (State κ)
  | .start t time flags =>
    match s.pcs t with
    | .idle =>
      let begun := { s with before := update s.before t s.returned }
      if flags.getLsbD 0 then some (begun.ret t time)
      else some { begun with pcs := update s.pcs t (.load time) }
    | _ => none
  | .go t spurious =>
    match s.pcs t with
    | .idle => none
    | .load time => some (s.test t time s.last)
    | .exchange time currentLast =>
      if s.last = currentLast ∧ spurious = false then some ({ s with last := time }.ret t time)
      else some (s.test t time s.last)

/-- The host does not flag the TSC as stable. -/
def Event.Unstable : Event κ → Prop
  | .start _ _ flags => flags.getLsbD 0 = false
  | .go _ _ => True

def State.Reached (s : State κ) : Prop :=
  Reachable (fun s => s = ⟨0, fun _ => .idle, [], fun _ => [], []⟩)
    (fun s s' => ∃ event, event.Unstable ∧ s.step event = some s') s

/-- What a call has in hand is no less than the results before it. -/
def Pc.Above (before : List ℕ) : Pc → Prop
  | .exchange time currentLast => currentLast < time ∧ ∀ x ∈ before, x ≤ currentLast
  | _ => True

structure Inv (s : State κ) : Prop where
  returned : ∀ x ∈ s.returned, x ≤ s.last
  before : ∀ t, ∀ x ∈ s.before t, x ≤ s.last
  pcs : ∀ t, (s.pcs t).Above (s.before t)
  calls : ∀ call ∈ s.calls, ∀ x ∈ call.1, x ≤ call.2

section Steps

variable {s s' : State κ} {t : κ} (inv : Inv s)

include inv

theorem Inv.ret {result : ℕ} (fits : result ≤ s.last) (above : ∀ x ∈ s.before t, x ≤ result) :
    Inv (s.ret t result) where
  returned := forall_mem_cons.2 ⟨fits, inv.returned⟩
  before := inv.before
  pcs := fun u => by
    by_cases same : u = t
    · subst same
      simp [State.ret, Pc.Above]
    · simpa only [State.ret, update_of_ne same] using inv.pcs u
  calls := forall_mem_cons.2 ⟨above, inv.calls⟩

theorem Inv.test (time : ℕ) : Inv (s.test t time s.last) := by
  unfold State.test
  split
  · exact inv.ret le_rfl (inv.before t)
  next above =>
    refine { inv with pcs := fun u => ?_ }
    by_cases same : u = t
    · subst same
      simpa only [update_self] using ⟨not_le.1 above, inv.before u⟩
    · simpa only [update_of_ne same] using inv.pcs u

omit [DecidableEq κ] in
theorem Inv.raise {time : ℕ} (above : s.last ≤ time) : Inv { s with last := time } :=
  { inv with
    returned := fun x mem => (inv.returned x mem).trans above
    before := fun u x mem => (inv.before u x mem).trans above }

theorem Inv.start (idle : s.pcs t = .idle) (time : ℕ) :
    Inv { s with before := update s.before t s.returned, pcs := update s.pcs t (.load time) } := by
  refine { inv with before := fun u => ?_, pcs := fun u => ?_ } <;> by_cases same : u = t
  · subst same
    simpa only [update_self] using inv.returned
  · simpa only [update_of_ne same] using inv.before u
  · subst same
    simp [Pc.Above]
  · simpa only [update_of_ne same] using inv.pcs u

theorem Inv.step {event : Event κ} (unstable : event.Unstable) (taken : s.step event = some s') :
    Inv s' := by
  cases event with
  | start t time flags =>
    cases here : s.pcs t <;> simp only [State.step, here] at taken <;> try cases taken
    rw [if_neg (Bool.not_eq_true _ ▸ unstable)] at taken
    cases taken
    exact inv.start here time
  | go t spurious =>
    cases here : s.pcs t with simp only [State.step, here] at taken
    | idle =>
      cases taken
    | load time =>
      cases taken
      exact inv.test time
    | exchange time currentLast =>
      have above := inv.pcs t
      rw [here] at above
      split at taken <;> cases taken
      next won =>
        have raised := inv.raise (won.1.le.trans above.1.le)
        exact raised.ret le_rfl fun x mem => (above.2 x mem).trans above.1.le
      · exact inv.test time

end Steps

/-- **A call that starts after another one has returned does not return less.** -/
theorem later_not_smaller {s : State κ} (reached : s.Reached) {before : List ℕ} {result : ℕ}
    (call : (before, result) ∈ s.calls) : ∀ earlier ∈ before, earlier ≤ result := by
  have inv : Inv s := by
    refine reached.invariant (fun s initial => ?_) fun s s' _ inv taken => ?_
    · subst initial
      constructor <;> simp [Pc.Above]
    · obtain ⟨event, unstable, taken⟩ := taken
      exact inv.step unstable taken
  exact inv.calls _ call

/-- The second CPU reads 3 after the first has returned 5, and returns 5. -/
theorem second_not_smaller : ∃ s : State Bool, s.Reached ∧ ([5], 5) ∈ s.calls ∧
    ∀ earlier ∈ [5], earlier ≤ 5 := by
  have first := ((Reachable.start rfl : State.Reached _).next ⟨.start false 5 0, rfl, rfl⟩).next
    ⟨.go false false, trivial, rfl⟩
  have second := ((first.next ⟨.go false false, trivial, rfl⟩).next
    ⟨.start true 3 0, rfl, rfl⟩).next ⟨.go true false, trivial, rfl⟩
  exact ⟨_, second, mem_cons_self, later_not_smaller second mem_cons_self⟩

end MiniOsv.Arch.Pvclock
