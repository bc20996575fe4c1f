/-
# Sync.Semaphore -- grants made by the poster

A waiter that finds too few units queues a record and sleeps; `post` hands out the new
units to the queued records in order, passing over those that ask for more than is left.
A sleeper leaves its loop when its record has no owner any more (it was served) or when
its timer has expired; both may be true when it looks.

All parts of the code that touch the semaphore run under its mutex, so a step is one such
part: a whole `post` or `trywait`, the part of `wait` before the sleep, and each look at
the condition of the sleep.  The state records in addition what was posted, which grants
were made, and how many units were taken for the current call of each thread.
-/
import Mathlib.Algebra.Order.Ring.Int
import Mathlib.Data.List.Nodup
import Mathlib.Algebra.BigOperators.Group.List.Basic
import MiniOsv.Theory.Transition

namespace MiniOsv.Sync.Semaphore

open Theory List
open Function

/-- `UINT_MAX + 1`. -/
def unsignedRange : ℕ := 4294967296

/-- `wait_record`: the thread that waits and the units it asks for. -/
structure Record (ι : Type) where
  thread : ι
  units : ℕ
  deriving DecidableEq

/-- Where a thread is. -/
inductive Pc where
  | idle
  /-- In `wait`, asleep; `timer` says that it was called with a timer and `owner` that its
  record still has an owner. -/
  | waiting (units : ℕ) (timer owner : Bool)
  | returned (units : ℕ) (result : Bool)
  deriving DecidableEq

structure State (ι : Type) where
  val : ℕ
  waiters : List (Record ι)
  pcs : ι → Pc
  /-- The value at construction and all units posted since. -/
  supplied : ℕ
  /-- The units of all grants, the latest first. -/
  grants : List ℕ
  /-- The units taken for the thread's current call. -/
  deducted : ι → ℕ

/-- What the loop of `post_unlocked` leaves and serves. -/
structure Served (ι : Type) where
  val : ℕ
  left : List (Record ι)
  served : List (Record ι)

def serve {ι : Type} : ℕ → List (Record ι) → Served ι
  | val, [] => ⟨val, [], []⟩
  | val, wr :: rest =>
    if 0 < val then
      if wr.units ≤ val then
        let r := serve (val - wr.units) rest
        ⟨r.val, r.left, wr :: r.served⟩
      else
        let r := serve val rest
        ⟨r.val, wr :: r.left, r.served⟩
    else ⟨val, wr :: rest, []⟩

/-- A call, or a look of a sleeping thread at its condition; `expired` is what its timer
says then. -/
inductive Event (ι : Type) where
  | post (units : ℕ)
  | wait (t : ι) (units : ℕ) (timer : Bool)
  | trywait (t : ι) (units : ℕ)
  | look (t : ι) (expired : Bool)

variable {ι : Type} [DecidableEq ι]

/-- The thread may begin a call. -/
def Pc.outside : Pc → Bool
  | .waiting _ _ _ => false
  | _ => true

/-- `_val -= units` for a call of `t`. -/
def State.deduct (s : State ι) (t : ι) (units : ℕ) : State ι :=
  { s with
    val := s.val - units
    pcs := update s.pcs t (.returned units true)
    grants := units :: s.grants
    deducted := update s.deducted t units }

/-- The record of a served thread has no owner any more. -/
def Pc.release : Pc → Pc
  | .waiting units timer _ => .waiting units timer false
  | pc => pc

def State.post (s : State ι) (units : ℕ) : State ι :=
  let r := serve ((s.val + units) % unsignedRange) s.waiters
  { val := r.val
    waiters := r.left
    pcs := fun t => if t ∈ r.served.map Record.thread then (s.pcs t).release else s.pcs t
    supplied := s.supplied + units
    grants := r.served.map Record.units ++ s.grants
    deducted := fun t =>
      ((r.served.find? fun wr => wr.thread = t).map Record.units).getD (s.deducted t) }

def State.step (s : State ι) : Event ι → Option (State ι)
  | .post units => some (s.post units)
  | .wait t units timer =>
    if (s.pcs t).outside then
      if units ≤ s.val then some (s.deduct t units)
      else
        some { s with
               waiters := s.waiters ++ [⟨t, units⟩]
               pcs := update s.pcs t (.waiting units timer true)
               deducted := update s.deducted t 0 }
    else none
  | .trywait t units =>
    if (s.pcs t).outside then
      if units ≤ s.val then some (s.deduct t units)
      else
        some { s with
               pcs := update s.pcs t (.returned units false)
               deducted := update s.deducted t 0 }
    else none
  | .look t expired =>
    match s.pcs t with
    | .waiting units timer owner =>
      if timer && expired || !owner then
        some { s with
               waiters := if owner then s.waiters.erase ⟨t, units⟩ else s.waiters
               pcs := update s.pcs t (.returned units !owner) }
      else some s
    | _ => none

/-- Calls are for at least one unit, and a post does not overflow the value. -/
def Event.Allowed (s : State ι) : Event ι → Prop
  | .post units => 1 ≤ units ∧ s.val + units < unsignedRange
  | .wait _ units _ | .trywait _ units => 1 ≤ units
  | .look _ _ => True

instance (s : State ι) (event : Event ι) : Decidable (event.Allowed s) := by
  cases event <;> unfold Event.Allowed <;> infer_instance

structure Boot (s : State ι) : Prop where
  val : s.val = s.supplied
  waiters : s.waiters = []
  idle : ∀ t, s.pcs t = .idle
  grants : s.grants = []

def Runs : State ι → Prop :=
  Reachable Boot fun s s' => ∃ event : Event ι, event.Allowed s ∧ s.step event = some s'

/-! ## The loop of a post -/

def total (records : List (Record ι)) : ℕ := (records.map Record.units).sum

section Serve

variable {val : ℕ} {records : List (Record ι)} {wr : Record ι}

omit [DecidableEq ι] in
theorem total_cons : total (wr :: records) = wr.units + total records := by
  simp [total]

omit [DecidableEq ι] in
/-- The loop without its early exit: with no units left every record is passed over. -/
theorem serve_cons (positive : 1 ≤ wr.units) : serve val (wr :: records) =
    if wr.units ≤ val then
      ⟨(serve (val - wr.units) records).val, (serve (val - wr.units) records).left,
        wr :: (serve (val - wr.units) records).served⟩
    else ⟨(serve val records).val, wr :: (serve val records).left, (serve val records).served⟩ := by
  rw [serve]
  by_cases some : 0 < val
  · rw [if_pos some]
  · have none : val = 0 := by omega
    have stop : serve 0 records = ⟨0, records, []⟩ := by cases records <;> rfl
    rw [if_neg some, if_neg (by omega), none, stop]

omit [DecidableEq ι] in
/-- Units are conserved. -/
theorem serve_total (val : ℕ) (positive : ∀ wr ∈ records, 1 ≤ wr.units) :
    (serve val records).val + total (serve val records).served = val := by
  induction records generalizing val with
  | nil => simp [serve, total]
  | cons wr records ih =>
    obtain ⟨first, rest⟩ := forall_mem_cons.1 positive
    rw [serve_cons first]
    split
    next enough =>
      have conserved := ih (val - wr.units) rest
      change (serve (val - wr.units) records).val + total (wr :: _) = val
      rw [total_cons]
      omega
    · exact ih val rest

omit [DecidableEq ι] in
/-- Every record that is left asks for more than what is left. -/
theorem serve_left (val : ℕ) (positive : ∀ wr ∈ records, 1 ≤ wr.units) :
    ∀ wr ∈ (serve val records).left, (serve val records).val < wr.units := by
  induction records generalizing val with
  | nil => exact nofun
  | cons wr records ih =>
    obtain ⟨first, rest⟩ := forall_mem_cons.1 positive
    rw [serve_cons first]
    split
    · exact ih _ rest
    next tooMuch =>
      intro r mem
      have := serve_total val rest
      rcases mem_cons.1 mem with rfl | mem
      · change (serve val records).val < r.units
        omega
      · exact ih val rest r mem

omit [DecidableEq ι] in
/-- The queue is split into those served and those left, both in queue order. -/
theorem serve_sublist (val : ℕ) (positive : ∀ wr ∈ records, 1 ≤ wr.units) :
    (serve val records).left.Sublist records ∧ (serve val records).served.Sublist records ∧
      ((serve val records).served ++ (serve val records).left).Perm records := by
  induction records generalizing val with
  | nil => exact ⟨.refl _, .refl _, .refl _⟩
  | cons wr records ih =>
    obtain ⟨first, rest⟩ := forall_mem_cons.1 positive
    rw [serve_cons first]
    split
    · obtain ⟨left, served, perm⟩ := ih (val - wr.units) rest
      exact ⟨left.cons wr, served.cons_cons wr, perm.cons wr⟩
    · obtain ⟨left, served, perm⟩ := ih val rest
      exact ⟨left.cons_cons wr, served.cons wr, perm_middle.trans (perm.cons wr)⟩

/-- **In queue order.**  A record is served exactly if it asks for no more than what the
records served before it have left. -/
theorem serve_iff (positive : ∀ wr ∈ records, 1 ≤ wr.units) (nodup : records.Nodup)
    {before after : List (Record ι)} (place : records = before ++ wr :: after) :
    wr ∉ (serve val records).left ↔
      wr.units + total (before.filter fun r => decide (r ∉ (serve val records).left)) ≤ val := by
  subst place
  induction before generalizing val with
  | nil =>
    rw [nil_append] at *
    obtain ⟨first, rest⟩ := forall_mem_cons.1 positive
    rw [serve_cons first]
    split
    next enough =>
      have notLeft : wr ∉ (serve (val - wr.units) after).left := fun mem =>
        (nodup_cons.1 nodup).1 ((serve_sublist _ rest).1.subset mem)
      simp [total, notLeft, enough]
    next tooMuch =>
      simp [total, tooMuch]
  | cons b before ih =>
    rw [cons_append] at *
    obtain ⟨fresh, nodup⟩ := nodup_cons.1 nodup
    obtain ⟨first, rest⟩ := forall_mem_cons.1 positive
    rw [serve_cons first]
    split
    next enough =>
      have notLeft : b ∉ (serve (val - b.units) (before ++ wr :: after)).left := fun mem =>
        fresh ((serve_sublist _ rest).1.subset mem)
      dsimp only
      rw [filter_cons_of_pos (by simpa using notLeft), total_cons, ih rest nodup]
      omega
    · have ne : ∀ r ∈ before ++ wr :: after, r ≠ b := fun r mem same => fresh (same ▸ mem)
      have same : before.filter (fun r => decide (r ∉ b :: (serve val (before ++ wr :: after)).left)) =
          before.filter fun r => decide (r ∉ (serve val (before ++ wr :: after)).left) :=
        filter_congr fun r mem => by
          simp [ne r (mem_append_left _ mem)]
      have neWr : wr ≠ b := ne wr (by simp)
      rw [filter_cons_of_neg (by simp), same, ← ih rest nodup]
      simp [neWr]

end Serve

/-! ## The invariant -/

/-- What was deducted for the thread's call. -/
def Pc.Taken : Pc → ℕ → Prop
  | .idle, _ => True
  | .waiting units _ owner, deducted => 1 ≤ units ∧ deducted = if owner then 0 else units
  | .returned units result, deducted => 1 ≤ units ∧ deducted = if result then units else 0

structure Inv (s : State ι) : Prop where
  balance : s.val + s.grants.sum = s.supplied
  hungry : ∀ wr ∈ s.waiters, s.val < wr.units
  nodup : (s.waiters.map Record.thread).Nodup
  queued : ∀ t units, ⟨t, units⟩ ∈ s.waiters ↔ ∃ timer, s.pcs t = .waiting units timer true
  taken : ∀ t, (s.pcs t).Taken (s.deducted t)

section Steps

variable {s s' : State ι} {t : ι} {units : ℕ}

section

variable (inv : Inv s)

include inv

omit [DecidableEq ι] in
theorem Inv.positive : ∀ wr ∈ s.waiters, 1 ≤ wr.units := fun wr mem => by
  have := inv.hungry wr mem
  omega

omit [DecidableEq ι] in
theorem Inv.records_nodup : s.waiters.Nodup :=
  inv.nodup.of_map _

theorem Inv.move {pc : Pc} {deducted : ℕ} {val : ℕ} {grants : List ℕ}
    (before : ∀ units timer, s.pcs t ≠ .waiting units timer true)
    (after : ∀ units timer, pc ≠ .waiting units timer true)
    (balance : val + grants.sum = s.supplied) (less : val ≤ s.val) (taken : pc.Taken deducted) :
    Inv { s with val, grants, pcs := update s.pcs t pc
                 deducted := update s.deducted t deducted } := by
  refine ⟨balance, fun wr mem => ?_, inv.nodup, fun u units => ?_, fun u => ?_⟩
  · have := inv.hungry wr mem
    change val < wr.units
    omega
  · change _ ↔ ∃ timer, update s.pcs t pc u = _
    by_cases same : u = t
    · rw [inv.queued, same, update_self]
      exact ⟨fun ⟨timer, waiting⟩ => absurd waiting (before units timer),
        fun ⟨timer, waiting⟩ => absurd waiting (after units timer)⟩
    · rw [update_of_ne same]
      exact inv.queued u units
  · change (update s.pcs t pc u).Taken (update s.deducted t deducted u)
    by_cases same : u = t
    · rw [same, update_self, update_self]
      exact taken
    · rw [update_of_ne same, update_of_ne same]
      exact inv.taken u

theorem Inv.deduct (outside : (s.pcs t).outside = true) (positive : 1 ≤ units)
    (enough : units ≤ s.val) : Inv (s.deduct t units) := by
  have balance := inv.balance
  refine inv.move (fun _ _ waiting => ?_) (fun _ _ => by simp) ?_ (Nat.sub_le _ _)
    ⟨positive, rfl⟩
  · rw [waiting] at outside
    cases outside
  · rw [sum_cons]
    omega

theorem Inv.enqueue (outside : (s.pcs t).outside = true) (positive : 1 ≤ units)
    (short : ¬units ≤ s.val) (timer : Bool) :
    Inv { s with waiters := s.waiters ++ [⟨t, units⟩]
                 pcs := update s.pcs t (.waiting units timer true)
                 deducted := update s.deducted t 0 } := by
  -- A thread outside `wait` has no record.
  have fresh : t ∉ s.waiters.map Record.thread := fun mem => by
    obtain ⟨⟨_, units⟩, inQueue, rfl⟩ := mem_map.1 mem
    obtain ⟨timer, waiting⟩ := (inv.queued _ units).1 inQueue
    rw [waiting] at outside
    cases outside
  refine ⟨inv.balance, fun wr mem => ?_, ?_, fun u asked => ?_, fun u => ?_⟩
  · rcases mem_append.1 mem with mem | last
    · exact inv.hungry wr mem
    · rw [mem_singleton.1 last]
      exact Nat.lt_of_not_le short
  · rw [map_append]
    exact nodup_append.2 ⟨inv.nodup, nodup_singleton _, fun u mem v last => by
      rw [mem_singleton.1 last]
      exact ne_of_mem_of_not_mem mem fresh⟩
  · change _ ↔ ∃ timer', update s.pcs t _ u = _
    rw [mem_append, mem_singleton, Record.mk.injEq]
    by_cases same : u = t
    · have notIn : ⟨u, asked⟩ ∉ s.waiters := fun mem =>
        fresh (same ▸ mem_map.2 ⟨_, mem, rfl⟩)
      rw [same, update_self]
      rw [same] at notIn
      constructor
      · rintro (mem | ⟨-, rfl⟩)
        · exact absurd mem notIn
        · exact ⟨timer, rfl⟩
      · rintro ⟨timer', waiting⟩
        cases waiting
        exact .inr ⟨rfl, rfl⟩
    · rw [update_of_ne same, ← inv.queued]
      simp [same]
  · change (update s.pcs t _ u).Taken (update s.deducted t 0 u)
    by_cases same : u = t
    · rw [same, update_self, update_self]
      exact ⟨positive, rfl⟩
    · rw [update_of_ne same, update_of_ne same]
      exact inv.taken u

/-- A sleeper whose timer has expired takes its record back. -/
theorem Inv.timeout {timer : Bool} (here : s.pcs t = .waiting units timer true) :
    Inv { s with waiters := s.waiters.erase ⟨t, units⟩
                 pcs := update s.pcs t (.returned units false) } := by
  have taken := inv.taken t
  rw [here] at taken
  refine ⟨inv.balance, fun wr mem => inv.hungry wr (mem_of_mem_erase mem),
    inv.nodup.sublist (erase_sublist.map _), fun u asked => ?_, fun u => ?_⟩
  · change _ ↔ ∃ timer', update s.pcs t _ u = _
    rw [List.Nodup.mem_erase_iff inv.records_nodup, inv.queued, ne_eq, Record.mk.injEq]
    by_cases same : u = t
    · rw [same, update_self, here]
      constructor
      · rintro ⟨other, timer', waiting⟩
        cases waiting
        exact absurd ⟨rfl, rfl⟩ other
      · rintro ⟨timer', impossible⟩
        cases impossible
    · rw [update_of_ne same]
      simp [same]
  · change (update s.pcs t _ u).Taken (s.deducted u)
    by_cases same : u = t
    · rw [same, update_self]
      exact ⟨taken.1, taken.2⟩
    · rw [update_of_ne same]
      exact inv.taken u

theorem Inv.finish {timer : Bool} (here : s.pcs t = .waiting units timer false) :
    Inv { s with pcs := update s.pcs t (.returned units true) } := by
  have taken := inv.taken t
  rw [here] at taken
  have done : (Pc.returned units true).Taken (s.deducted t) := ⟨taken.1, taken.2⟩
  have moved := inv.move (fun _ _ waiting => by
    rw [here] at waiting
    cases waiting) (fun _ _ => by simp) inv.balance (Nat.le_refl _) done
  rwa [update_eq_self] at moved

end

omit [DecidableEq ι] in
/-- The served records, thread by thread. -/
theorem find_served [DecidableEq ι] {served : List (Record ι)}
    (nodup : (served.map Record.thread).Nodup) {wr : Record ι} (mem : wr ∈ served) :
    served.find? (fun r => r.thread = wr.thread) = some wr := by
  induction served with
  | nil => cases mem
  | cons r served ih =>
    obtain ⟨fresh, nodup⟩ := nodup_cons.1 nodup
    rcases mem_cons.1 mem with rfl | mem
    · simp
    · have ne : r.thread ≠ wr.thread := fun same =>
        fresh (same ▸ mem_map.2 ⟨wr, mem, rfl⟩)
      rw [List.find?_cons_of_neg (by simpa using ne)]
      exact ih nodup mem

theorem Inv.post (inv : Inv s) (fits : s.val + units < unsignedRange) : Inv (s.post units) := by
  have positive := inv.positive
  rw [State.post, Nat.mod_eq_of_lt fits]
  obtain ⟨leftSub, servedSub, perm⟩ := serve_sublist (s.val + units) positive
  have conserved := serve_total (s.val + units) positive
  have hungry := serve_left (s.val + units) positive
  generalize serve (s.val + units) s.waiters = r at *
  have balance := inv.balance
  have apart : (r.served.map Record.thread ++ r.left.map Record.thread).Nodup := by
    rw [← map_append]
    exact (perm.map Record.thread).nodup_iff.2 inv.nodup
  have servedNodup := (nodup_append.1 apart).1
  refine ⟨?_, hungry, (nodup_append.1 apart).2.1, fun u asked => ?_, fun u => ?_⟩
  · change r.val + (r.served.map Record.units ++ s.grants).sum = s.supplied + units
    rw [sum_append]
    unfold total at conserved
    omega
  · change _ ↔ ∃ timer, (if u ∈ r.served.map Record.thread then (s.pcs u).release else s.pcs u) = _
    split
    next served =>
      constructor
      · intro left
        exact absurd rfl ((nodup_append.1 apart).2.2 u served u (mem_map.2 ⟨_, left, rfl⟩))
      · rintro ⟨timer, waiting⟩
        cases here : s.pcs u <;> rw [here] at waiting <;> cases waiting
    next notServed =>
      rw [← inv.queued, ← perm.mem_iff, mem_append]
      constructor
      · exact fun left => .inr left
      · rintro (served | left)
        · exact absurd (mem_map.2 ⟨_, served, rfl⟩) notServed
        · exact left
  · change Pc.Taken (if u ∈ r.served.map Record.thread then (s.pcs u).release else s.pcs u)
      (((r.served.find? fun wr => wr.thread = u).map Record.units).getD (s.deducted u))
    split
    next served =>
      obtain ⟨wr, mem, rfl⟩ := mem_map.1 served
      obtain ⟨timer, waiting⟩ := (inv.queued wr.thread wr.units).1 (servedSub.subset mem)
      rw [find_served servedNodup mem, waiting]
      exact ⟨positive wr (servedSub.subset mem), rfl⟩
    next notServed =>
      have none : (r.served.find? fun wr => wr.thread = u) = none := by
        rw [List.find?_eq_none]
        intro wr mem same
        exact notServed (mem_map.2 ⟨wr, mem, by simpa using same⟩)
      rw [none]
      exact inv.taken u

/-- **Every step keeps the invariant.** -/
theorem Inv.step (inv : Inv s) {event : Event ι} (allowed : event.Allowed s)
    (taken : s.step event = some s') : Inv s' := by
  cases event with rw [State.step] at taken
  | post units =>
    cases taken
    exact inv.post allowed.2
  | wait t units timer =>
    split at taken
    next outside =>
      split at taken <;> cases taken
      next enough =>
        exact inv.deduct outside allowed enough
      next short =>
        exact inv.enqueue outside allowed short timer
    · cases taken
  | trywait t units =>
    split at taken
    next outside =>
      split at taken <;> cases taken
      next enough =>
        exact inv.deduct outside allowed enough
      · refine inv.move (fun _ _ waiting => ?_) (fun _ _ => by simp) inv.balance (Nat.le_refl _)
          ⟨allowed, rfl⟩
        rw [waiting] at outside
        cases outside
    · cases taken
  | look t expired =>
    split at taken
    next units timer owner here =>
      split at taken <;> cases taken
      · cases owner
        · exact inv.finish here
        · exact inv.timeout here
      · exact inv
    · cases taken

omit [DecidableEq ι] in
theorem Boot.inv (boot : Boot s) : Inv s := by
  obtain ⟨val, waiters, idle, grants⟩ := boot
  refine ⟨?_, ?_, ?_, fun t units => ?_, fun t => ?_⟩
  · simp [grants, val]
  · simp [waiters]
  · simp [waiters]
  · simp [waiters, idle t]
  · rw [idle t]
    trivial

theorem Runs.inv (reached : Runs s) : Inv s :=
  reached.invariant (I := Inv) (fun _ boot => boot.inv) fun _ _ _ inv ⟨_, allowed, taken⟩ =>
    inv.step allowed taken

end Steps

/-- **The semaphore.**  In every state that calls and looks under the mutex lead to: the
value and all grants make up what was supplied; every queued waiter asks for more than
the value; a post serves the queue in order and passes over a record exactly if it asks
for more than what is left at its turn; and a call has returned true exactly if its units
were deducted. -/
theorem conserves_and_serves_in_order (s : State ι) (reached : Runs s) :
    s.val + s.grants.sum = s.supplied ∧
    (∀ wr ∈ s.waiters, s.val < wr.units) ∧
    (∀ units s', Event.Allowed s (.post units) → s.step (.post units) = some s' →
      s'.waiters.Sublist s.waiters ∧
      (∀ before wr after, s.waiters = before ++ wr :: after → (wr ∉ s'.waiters ↔
        wr.units + total (before.filter fun r => decide (r ∉ s'.waiters)) ≤ s.val + units)) ∧
      ∀ wr ∈ s.waiters, s'.deducted wr.thread = if wr ∈ s'.waiters then 0 else wr.units) ∧
    ∀ t units result, s.pcs t = .returned units result →
      (result = true ↔ s.deducted t = units) ∧ (result = false ↔ s.deducted t = 0) := by
  have inv := reached.inv
  refine ⟨inv.balance, inv.hungry, fun units s' allowed taken => ?_, fun t units result at' => ?_⟩
  · have inv' := inv.step allowed taken
    cases taken
    have fits : (s.val + units) % unsignedRange = s.val + units := Nat.mod_eq_of_lt allowed.2
    have left : (s.post units).waiters = (serve (s.val + units) s.waiters).left := by
      rw [State.post, fits]
    obtain ⟨leftSub, -, perm⟩ := serve_sublist (s.val + units) inv.positive
    refine ⟨left ▸ leftSub, fun before wr after place => ?_, fun wr mem => ?_⟩
    · rw [left]
      exact serve_iff inv.positive inv.records_nodup place
    · obtain ⟨timer, waiting⟩ := (inv.queued wr.thread wr.units).1 mem
      have taken' := inv'.taken wr.thread
      split
      next stays =>
        obtain ⟨timer', waiting'⟩ := (inv'.queued wr.thread wr.units).1 stays
        rw [waiting'] at taken'
        exact taken'.2
      next leaves =>
        rw [left] at leaves
        have served : wr ∈ (serve (s.val + units) s.waiters).served :=
          (mem_append.1 (perm.mem_iff.2 mem)).resolve_right leaves
        have released : (s.post units).pcs wr.thread = .waiting wr.units timer false := by
          simp only [State.post, fits]
          rw [if_pos (mem_map.2 ⟨wr, served, rfl⟩), waiting]
          rfl
        rw [released] at taken'
        exact taken'.2
  · have taken := inv.taken t
    rw [at'] at taken
    obtain ⟨positive, deducted⟩ := taken
    cases result
    · simp only [Bool.false_eq_true, if_false] at deducted
      constructor
      · simp
        omega
      · simp [deducted]
    · simp only [if_true] at deducted
      constructor
      · simp [deducted]
      · simp
        omega

/-- Two waiters, for three units and for one; a post of two serves the second, whose timer
expires at the same time. -/
def passedOver : Option (State Bool) :=
  [.wait false 3 true, .wait true 1 true, .post 2, .look true true].foldlM
    (fun s event => if event.Allowed s then s.step event else none)
    ⟨0, [], fun _ => .idle, 0, [], fun _ => 0⟩

theorem passedOver_runs {s : State Bool} (run : passedOver = some s) : Runs s :=
  Reachable.testedEvents (.start ⟨rfl, rfl, fun _ => rfl, rfl⟩) run

theorem passedOver_serves_second :
    ∃ s, passedOver = some s ∧ s.waiters = [⟨false, 3⟩] ∧ s.val = 1 ∧
      s.pcs true = .returned 1 true ∧ s.deducted true = 1 ∧ s.val + s.grants.sum = s.supplied := by
  have same : ∃ s, passedOver = some s ∧ s.waiters = [⟨false, 3⟩] ∧ s.val = 1 ∧
      s.pcs true = .returned 1 true := ⟨_, rfl, by decide, by decide, by decide⟩
  obtain ⟨s, run, waiters, val, at'⟩ := same
  have contract := conserves_and_serves_in_order s (passedOver_runs run)
  exact ⟨s, run, waiters, val, at', (contract.2.2.2 true 1 true at').1.1 rfl, contract.1⟩

end MiniOsv.Sync.Semaphore
