/-
# Sync.FutexQueue -- the futex as a queue of labelled threads

The locks built on `inline_futex` see it as a queue: a thread that finds the word it
watches unchanged joins the queue under its key and mask, and a wake takes the first
matching threads out.  That is the level at which the locks are modelled.
`wake_refines` connects it with the two linked lists of the implementation: on every
queue they represent, the code takes and leaves the same waiters.
-/
import MiniOsv.Sync.InlineFutex

namespace MiniOsv.Sync

open Theory List
open Sync.InlineFutex (Label Memory Queue Represents)

/-- A parked thread and what it waits under. -/
structure Waiter (ι : Type) where
  thread : ι
  label : Label
  deriving DecidableEq

/-- The parked threads, oldest first. -/
abbrev FutexQueue (ι : Type) := List (Waiter ι)

namespace FutexQueue

variable {ι : Type}

def woken (queue : FutexQueue ι) (key : BitVec 64) (maskPattern : BitVec 32) (count : ℕ) :
    List ι :=
  (takeMatches (fun w => w.label.matching key maskPattern) count queue).map Waiter.thread

def left (queue : FutexQueue ι) (key : BitVec 64) (maskPattern : BitVec 32) (count : ℕ) :
    FutexQueue ι :=
  dropMatches (fun w => w.label.matching key maskPattern) count queue

def threads (queue : FutexQueue ι) : List ι := queue.map Waiter.thread

section Wake

variable {queue : FutexQueue ι} {key : BitVec 64} {maskPattern : BitVec 32} {count : ℕ} {t : ι}

@[simp]
theorem threads_append (thread : ι) (label : Label) :
    threads (queue ++ [⟨thread, label⟩]) = queue.threads ++ [thread] := by
  simp [threads]

theorem mem_left_threads (nodup : queue.threads.Nodup) :
    t ∈ (queue.left key maskPattern count).threads ↔
      t ∈ queue.threads ∧ t ∉ queue.woken key maskPattern count := by
  have perm : (queue.woken key maskPattern count ++ (queue.left key maskPattern count).threads).Perm
      queue.threads := by
    rw [woken, left, threads, threads, ← map_append]
    exact perm_takeMatches_append.map _
  have disjoint := (nodup_append.1 (perm.nodup_iff.2 nodup)).2.2
  rw [← perm.mem_iff, mem_append]
  constructor
  · exact fun stays => ⟨.inr stays, fun taken => disjoint t taken t stays rfl⟩
  · rintro ⟨taken | stays, notTaken⟩
    · exact absurd taken notTaken
    · exact stays

theorem left_sublist : (queue.left key maskPattern count).Sublist queue :=
  dropMatches_sublist

theorem mem_threads_of_mem_woken (taken : t ∈ queue.woken key maskPattern count) :
    t ∈ queue.threads :=
  (takeMatches_sublist.map _).subset taken

/-- Nobody is taken only if nobody matches. -/
theorem woken_eq_nil (some : 0 < count) (nobody : queue.woken key maskPattern count = []) :
    ∀ w ∈ queue, w.label.matching key maskPattern = false := by
  rw [woken, map_eq_nil_iff, takeMatches, take_eq_nil_iff] at nobody
  rcases nobody with zero | none
  · omega
  · intro w mem
    simpa using filter_eq_nil_iff.1 none w mem

/-- Waking everybody that matches leaves nobody that matches. -/
theorem not_matching_left (all : queue.length ≤ count) :
    ∀ w ∈ queue.left key maskPattern count, w.label.matching key maskPattern = false := by
  unfold left
  induction queue generalizing count with
  | nil => exact fun w mem => by cases count <;> cases mem
  | cons v queue ih =>
    cases count with
    | zero => cases all
    | succ count =>
      have shorter : queue.length ≤ count := Nat.le_of_succ_le_succ all
      cases hit : v.label.matching key maskPattern with
      | true => simpa [dropMatches, hit] using ih shorter
      | false => simpa [dropMatches, hit] using ih (Nat.le_succ_of_le shorter)

end Wake

/-! ## Who is parked -/

/-- The queue holds exactly the threads that are parked, each once. -/
structure Parks (queue : FutexQueue ι) (parked : ι → Prop) : Prop where
  nodup : queue.threads.Nodup
  mem : ∀ t, parked t ↔ t ∈ queue.threads

namespace Parks

variable {queue : FutexQueue ι} {parked parked' : ι → Prop} {t : ι}

section

variable (parks : Parks queue parked)

include parks

theorem congr (same : ∀ u, parked' u ↔ parked u) : Parks queue parked' :=
  ⟨parks.nodup, fun u => (same u).trans (parks.mem u)⟩

theorem enqueue (fresh : ¬parked t) (label : Label)
    (joins : ∀ u, parked' u ↔ parked u ∨ u = t) : Parks (queue ++ [⟨t, label⟩]) parked' := by
  have notQueued : t ∉ queue.threads := mt (parks.mem t).2 fresh
  refine ⟨?_, fun u => ?_⟩
  · rw [threads_append]
    exact nodup_append.2 ⟨parks.nodup, nodup_singleton _, fun u mem v last => by
      rw [mem_singleton.1 last]
      exact ne_of_mem_of_not_mem mem notQueued⟩
  · rw [threads_append, mem_append, mem_singleton, joins, parks.mem]

theorem wake {key : BitVec 64} {maskPattern : BitVec 32} {count : ℕ}
    (leaves : ∀ u, parked' u ↔ parked u ∧ u ∉ queue.woken key maskPattern count) :
    Parks (queue.left key maskPattern count) parked' :=
  ⟨parks.nodup.sublist (left_sublist.map _), fun u => by
    rw [mem_left_threads parks.nodup, leaves, parks.mem]⟩

theorem parked_of_woken {key : BitVec 64} {maskPattern : BitVec 32}
    {count : ℕ} (woken : t ∈ queue.woken key maskPattern count) : parked t :=
  (parks.mem t).2 (mem_threads_of_mem_woken woken)

end

end Parks

/-! ## The implementation refines the queue -/

variable [DecidableEq ι]

/-- The labelled queue that two lists of records stand for. -/
def ofFifo (m : Memory ι) (fifo : List ι) : FutexQueue ι := fifo.map fun a => ⟨a, m.label a⟩

/-- **Refinement.**  On a queue that the two linked lists represent, the code of `wake`
wakes the threads that the labelled queue gives out, in the same order, and leaves lists
that represent the rest. -/
theorem wake_refines {m : Memory ι} {q : Queue ι} {fifo : List ι}
    (represents : Represents m q fifo) (key : BitVec 64) (maskPattern : BitVec 32) (count : ℕ) :
    ∃ outcome fifo', InlineFutex.wake fifo.length m q key maskPattern count = some outcome ∧
      outcome.wakes = (ofFifo m fifo).woken key maskPattern count ∧
      Represents outcome.memory outcome.queue fifo' ∧
      ofFifo outcome.memory fifo' = (ofFifo m fifo).left key maskPattern count := by
  obtain ⟨outcome, run, wakes, -, labels, -, rest⟩ :=
    InlineFutex.wake_spec represents (Nat.le_refl _) key maskPattern count
  refine ⟨outcome, _, run, ?_, rest, ?_⟩
  · rw [wakes, woken, ofFifo, takeMatches_map]
    simp only [map_map, Function.comp_def, map_id_fun', id_eq]
    rfl
  · rw [left, ofFifo, ofFifo, dropMatches_map, labels]
    rfl

end FutexQueue

end MiniOsv.Sync
