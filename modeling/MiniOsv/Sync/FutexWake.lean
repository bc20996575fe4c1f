/-
# Sync.FutexWake -- what `wake` and `wake_all` do to every queue

The queue of an `inline_futex` is filled by `wait` and `wait_always` and emptied by
`wake`.  `Filled` are the states such calls lead to; in each of them the two lists stand
for the waiters in order of arrival (`Filled.represents`), so the effect of `wake` is
given by `wake_spec`.

`wake_all()` passes the key `~0`, while `wait` queues with key 0 by default and the test
of `wake` takes the key 0 of the caller, not `~0`, as a wild card.  With the default
arguments it therefore wakes exactly the waiters queued under the key `~0`.
-/
import MiniOsv.Sync.InlineFutex
import MiniOsv.Theory.Transition

namespace MiniOsv.Sync.InlineFutex

open Theory List Function Option

variable {α : Type} [DecidableEq α]

/-! ## Queues filled by the waiters -/

/-- A futex with the waiters queued so far, in order of arrival. -/
structure Filling (α : Type) where
  memory : Memory α
  queue : Queue α
  fifo : List α

/-- A call on the futex: a thread whose record `item` is not queued calls `wait`, finding
the word equal to the expected value or not, or `wait_always`; or someone calls `wake`. -/
inductive Call (α : Type) where
  | wait (item : α) (equal : Bool) (key : BitVec 64) (mask : BitVec 32)
  | waitAlways (item : α) (key : BitVec 64) (mask : BitVec 32)
  | wake (key : BitVec 64) (maskPattern : BitVec 32) (count : ℕ)

def Filling.call (s : Filling α) : Call α → Option (Filling α)
  | .wait item equal key mask =>
    if item ∈ s.fifo then none
    else
      let (m, q) := InlineFutex.wait s.memory s.queue item equal true key mask
      some ⟨m, q, if equal then s.fifo ++ [item] else s.fifo⟩
  | .waitAlways item key mask =>
    if item ∈ s.fifo then none
    else
      let (m, q) := InlineFutex.waitAlways s.memory s.queue item key mask
      some ⟨m, q, s.fifo⟩
  | .wake key maskPattern count => do
      let outcome ← InlineFutex.wake s.fifo.length s.memory s.queue key maskPattern count
      some ⟨outcome.memory, outcome.queue, s.fifo.filter fun a => decide (a ∉ outcome.wakes)⟩

/-- The states reached from an empty queue. -/
def Filled (s : Filling α) : Prop :=
  Reachable (fun s : Filling α => s.queue = ⟨none, none⟩ ∧ s.fifo = [])
    (fun s t => ∃ call, s.call call = some t) s

section Filled

variable {s : Filling α} {m : Memory α} {q : Queue α} {fifo : List α} {item : α}

omit m fifo in
@[simp]
theorem push_memory_next (m : Memory α) (q : Queue α) (item : α) :
    (push m q item).1.next = update m.next item q.pushList :=
  rfl

/-- A caller whose record is not queued only sets that record, unless the word still
holds the expected value: then the record becomes the last of the queue. -/
theorem Represents.wait (represents : Represents m q fifo) (fresh : item ∉ fifo) {β : Type}
    [DecidableEq β] (loaded expected : β) (key : BitVec 64) (mask : BitVec 32) :
    Represents (InlineFutex.wait m q item loaded expected key mask).1
      (InlineFutex.wait m q item loaded expected key mask).2
      (if loaded = expected then fifo ++ [item] else fifo) := by
  obtain ⟨⟨pop, push, popList, pushList, rfl⟩, nodup, asleep⟩ := represents
  have notPop : item ∉ pop := fun mem => fresh (by simp [mem])
  have notPush : item ∉ push := fun mem => fresh (by simp [mem])
  have others : ∀ a ∈ pop ++ push.reverse, update m.woken item false a = false :=
    fun a mem => by
      rw [update_of_ne (ne_of_mem_of_not_mem mem fresh)]
      exact asleep a mem
  by_cases equal : loaded = expected
  · rw [if_pos equal, InlineFutex.wait, if_pos equal]
    refine ⟨⟨pop, item :: push, (popList.update notPop).update notPop, ⟨rfl, ?_⟩, by simp⟩, ?_, ?_⟩
    · simp only [push_memory_next, update_self]
      exact (pushList.update notPush).update notPush
    · rw [nodup_append]
      exact ⟨nodup, nodup_singleton _, fun a mem b here => by
        rw [mem_singleton.1 here]
        exact ne_of_mem_of_not_mem mem fresh⟩
    · intro a mem
      rcases mem_append.1 mem with mem | here
      · exact others a mem
      · rw [mem_singleton.1 here]
        exact update_self _ _ _
  · rw [if_neg equal, InlineFutex.wait, if_neg equal]
    exact ⟨⟨pop, push, popList.update notPop, pushList.update notPush, rfl⟩, nodup, others⟩

/-- The two lists stand for the arrivals at every moment. -/
theorem Filled.represents (filled : Filled s) : Represents s.memory s.queue s.fifo := by
  refine filled.invariant (I := fun s => Represents s.memory s.queue s.fifo) ?_ ?_
  · rintro ⟨m, q, fifo⟩ ⟨rfl, rfl⟩
    exact ⟨⟨[], [], rfl, rfl, rfl⟩, nodup_nil, nofun⟩
  · rintro s t - represents ⟨call, ran⟩
    cases call with rw [Filling.call] at ran
    | wait item equal key mask =>
      split at ran <;> cases ran
      next fresh =>
        exact represents.wait fresh equal true key mask
    | waitAlways item key mask =>
      split at ran <;> cases ran
      next fresh =>
        exact represents.wait fresh (0 : BitVec 32) 1 key mask
    | wake key maskPattern count =>
      obtain ⟨outcome, run, wakes, -, -, -, left⟩ :=
        wake_spec represents (Nat.le_refl _) key maskPattern count
      simp only [run, bind_eq_bind, bind_some, Option.some.injEq] at ran
      subst ran
      rw [dropMatches_eq_filter represents.nodup, ← wakes] at left
      exact left

omit [DecidableEq α] in
/-- An empty arrival order means two null heads. -/
theorem Represents.eq_empty (represents : Represents m q []) : q = ⟨none, none⟩ := by
  obtain ⟨⟨pop, push, popList, pushList, order⟩, -, -⟩ := represents
  obtain ⟨rfl, noPush⟩ := append_eq_nil_iff.1 order.symm
  have noPush : push = [] := reverse_eq_nil_iff.1 noPush
  subst noPush
  cases q
  cases popList
  cases pushList
  rfl

/-- **What `wake` does.**  On any queue content and any split of it between the push list
and the pop list, `wake` unlinks exactly the first matching waiters in order of arrival, up
to `count`; it wakes each of them once, in that order, and returns their number; all others
stay queued in their order. -/
theorem wake_takes_first_matches (represents : Represents m q fifo) (key : BitVec 64)
    (maskPattern : BitVec 32) (count rounds : ℕ) (enough : fifo.length ≤ rounds) :
    ∃ outcome, wake rounds m q key maskPattern count = some outcome ∧
      outcome.wakes = (fifo.filter (m.matching key maskPattern)).take count ∧
      outcome.wakes.Nodup ∧
      outcome.returned = min count (fifo.filter (m.matching key maskPattern)).length ∧
      (∀ a, outcome.memory.woken a = (decide (a ∈ outcome.wakes) || m.woken a)) ∧
      Represents outcome.memory outcome.queue
        (fifo.filter fun a => decide (a ∉ outcome.wakes)) := by
  obtain ⟨outcome, run, wakes, returned, -, woken, left⟩ :=
    wake_spec represents enough key maskPattern count
  refine ⟨outcome, run, wakes, ?_, ?_, woken, ?_⟩
  · rw [wakes]
    exact represents.nodup.sublist takeMatches_sublist
  · rw [returned, wakes, takeMatches, length_take]
  · rw [dropMatches_eq_filter represents.nodup, ← wakes] at left
    exact left

/-- Four waiters, two in each list; the second and the last have the mask bit 2. -/
def twoAndTwo : Memory ℕ where
  next a := if a = 0 then some 1 else if a = 3 then some 2 else none
  woken _ := false
  label a := ⟨7, if a = 1 ∨ a = 3 then 2 else 4⟩

theorem twoAndTwo_wakes_second_and_last :
    Represents twoAndTwo ⟨some 3, some 0⟩ [0, 1, 2, 3] ∧
      ∃ outcome, wake 4 twoAndTwo ⟨some 3, some 0⟩ 7 2 3 = some outcome ∧
        outcome.wakes = [1, 3] ∧ outcome.returned = 2 ∧
        Represents outcome.memory outcome.queue [0, 2] := by
  have represents : Represents twoAndTwo ⟨some 3, some 0⟩ [0, 1, 2, 3] :=
    ⟨⟨[0, 1], [3, 2], ⟨rfl, rfl, rfl⟩, ⟨rfl, rfl, rfl⟩, rfl⟩, by decide, fun _ _ => rfl⟩
  obtain ⟨outcome, run, wakes, -, returned, -, left⟩ :=
    wake_takes_first_matches represents 7 2 3 4 (by decide)
  have order : outcome.wakes = [1, 3] := wakes.trans (by decide)
  refine ⟨represents, outcome, run, order, returned.trans (by decide), ?_⟩
  rw [order] at left
  exact left

omit [DecidableEq α] in
theorem matching_default {a : α} :
    m.matching (BitVec.allOnes 64) (BitVec.allOnes 32) a = true ↔
      (m.label a).key = BitVec.allOnes 64 ∧ (m.label a).mask ≠ 0 := by
  have notWild : (BitVec.allOnes 64 == 0) = false := by decide
  simp only [Memory.matching, Label.matching, notWild, Bool.or_false, BitVec.and_allOnes, Bool.and_eq_true,
    beq_iff_eq, bne_iff_ne, ne_eq]

/-- **`wake_all()`.**  With its default arguments it wakes every waiter once, in order of
arrival, and leaves the queue empty exactly when all of them are queued under the key `~0`
and with a mask that is not zero (and their number fits an `unsigned`). -/
theorem wakeAllDefault_empties_iff (filled : Filled s) (rounds : ℕ)
    (enough : s.fifo.length ≤ rounds) :
    (∃ outcome, wakeAllDefault rounds s.memory s.queue = some outcome ∧
      outcome.wakes = s.fifo ∧ outcome.queue = ⟨none, none⟩) ↔
    (∀ a ∈ s.fifo, (s.memory.label a).key = BitVec.allOnes 64 ∧ (s.memory.label a).mask ≠ 0) ∧
      s.fifo.length ≤ unsignedMax := by
  obtain ⟨outcome, run, wakes, -, -, -, left⟩ :=
    wake_spec filled.represents enough (BitVec.allOnes 64) (BitVec.allOnes 32) unsignedMax
  have ran : wakeAllDefault rounds s.memory s.queue = some outcome := run
  constructor
  · rintro ⟨outcome', run', all, -⟩
    cases ran.symm.trans run'
    rw [wakes, takeMatches] at all
    have whole := length_take_le unsignedMax
      (s.fifo.filter (s.memory.matching (BitVec.allOnes 64) (BitVec.allOnes 32)))
    refine ⟨fun a mem => matching_default.1 ?_, by rwa [all] at whole⟩
    exact of_mem_filter (mem_of_mem_take (all ▸ mem))
  · rintro ⟨labels, few⟩
    have everyone : s.fifo.filter (s.memory.matching (BitVec.allOnes 64) (BitVec.allOnes 32)) =
        s.fifo := filter_eq_self.2 fun a mem => matching_default.2 (labels a mem)
    have taken : takeMatches (s.memory.matching (BitVec.allOnes 64) (BitVec.allOnes 32))
        unsignedMax s.fifo = s.fifo := by
      rw [takeMatches, everyone, take_of_length_le few]
    refine ⟨outcome, ran, wakes.trans taken, ?_⟩
    have nobody : s.fifo.filter (fun a => decide (a ∉ s.fifo)) = [] := by simp
    rw [dropMatches_eq_filter filled.represents.nodup, taken, nobody] at left
    exact left.eq_empty

end Filled

/-- The queue after waiters have called `wait` with the given keys. -/
def queuedWith (waiters : List (Bool × BitVec 64)) : Option (Filling Bool) :=
  (waiters.map fun w => Call.wait w.1 true w.2 (BitVec.allOnes 32)).foldlM Filling.call
    ⟨⟨fun _ => none, fun _ => false, fun _ => ⟨0, 0⟩⟩, ⟨none, none⟩, []⟩

theorem queuedWith_filled {waiters : List (Bool × BitVec 64)} {s : Filling Bool}
    (run : queuedWith waiters = some s) : Filled s :=
  Reachable.events (.start ⟨rfl, rfl⟩) run

theorem wakeAllDefault_empties_keyed_waiters :
    ∃ s, queuedWith [(true, BitVec.allOnes 64), (false, BitVec.allOnes 64)] = some s ∧
      s.fifo = [true, false] ∧ ∃ outcome, wakeAllDefault 2 s.memory s.queue = some outcome ∧
        outcome.wakes = s.fifo ∧ outcome.queue = ⟨none, none⟩ := by
  have run : queuedWith [(true, BitVec.allOnes 64), (false, BitVec.allOnes 64)] = some _ := rfl
  exact ⟨_, run, rfl, (wakeAllDefault_empties_iff (queuedWith_filled run) 2 (by decide)).2
    ⟨by decide, by decide⟩⟩

/-- A waiter that called `wait` with the default key stays queued. -/
theorem wakeAllDefault_leaves_default_waiter :
    ∃ s, queuedWith [(true, 0)] = some s ∧ Filled s ∧ s.fifo = [true] ∧
      ∃ outcome, wakeAllDefault 1 s.memory s.queue = some outcome ∧
        outcome.wakes = [] ∧ outcome.returned = 0 ∧ outcome.queue.popList = some true := by
  have run : queuedWith [(true, 0)] = some _ := rfl
  refine ⟨_, run, queuedWith_filled run, rfl, _, rfl, ?_⟩
  decide

end MiniOsv.Sync.InlineFutex
