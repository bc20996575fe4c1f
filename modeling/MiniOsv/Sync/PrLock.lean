/-
# Sync.PrLock -- the preemption-aware lock and its wake-up obligation

`PrLock` packs mode, subscriber and ownership into the word `count`: 0 is free, 1 is the
fast path, `~1` is the mode in which everybody parks, and `2 | mask` names a subscriber,
the one thread that spins.  Threads park under `~1` or under the subscriber's value.
`wunlock` exchanges the word with 0 and wakes one parked thread, unless it found 1 or the
mark of a subscriber other than itself.

The call is `writers.wake(count)`: the first parameter of `wake` is the key, so the value
that `count` has at that moment selects the waiters, who all wait under key 0.  A wake
that reads 0 takes the oldest of them; any other value takes nobody.  That is harmless
when the value is `~1` or a subscriber's mark, because its owner or subscriber answers for
the waiters.  It loses the wake when the value is 1: a fast-path owner got in between and
will not wake anybody.  `Clear` is the condition that excludes this.
-/
import MiniOsv.Sync.FutexQueue
import MiniOsv.Theory.Transition

namespace MiniOsv.Sync.PrLock

open Theory Function

/-- `~1U`. -/
def modeTwo : BitVec 32 := 0xfffffffe

/-- `1 << ((thread_id % 30) + 2)`. -/
def lockMask (id : ℕ) : BitVec 32 := 1#32 <<< (id % 30 + 2)

/-- `__builtin_popcount`. -/
def popcount (word : BitVec 32) : ℕ := (List.range 32).countP fun i => word.getLsbD i

/-- Where a thread is in `wlock` and `wunlock`. -/
inductive Pc where
  | idle
  /-- Before the compare exchange of the fast path. -/
  | fast
  /-- At the head of the loop, before the load of `preempted`. -/
  | head
  /-- Before the load of `count`. -/
  | loaded (curPreempted : ℕ)
  /-- Before the exchange with `~1`. -/
  | exchangeTwo
  /-- Before the `wait` under `~1`. -/
  | waitTwo
  /-- Before the exchange with the thread's own mark. -/
  | spin
  /-- Before the `wait` under the loaded value. -/
  | waitOn (curCount : BitVec 32)
  | parked
  /-- It owns the lock and has `push_lock` to do; it cannot be preempted there. -/
  | acquired
  /-- The owner.  `bit` is bit 0 of its `locks` word: it has not been switched out;
  `running` says whether it has the CPU. -/
  | held (bit running : Bool)
  /-- After `pop_lock`, before the exchange with 0. -/
  | unlocking (preempted : Bool)
  /-- Before the argument of `wake`, the value of `count`, is read. -/
  | readKey
  /-- Before the wake with this key. -/
  | wake (key : BitVec 64)
  deriving DecidableEq

structure State (ι : Type) where
  count : BitVec 32
  preempted : ℕ
  queue : FutexQueue ι
  /-- `lock_mask` of the node that the thread passes. -/
  nodeMask : ι → BitVec 32
  pcs : ι → Pc

/-- A thread calls `wlock` with a node that holds anything; a thread takes a step (a weak
compare exchange may fail spuriously); the scheduler switches an owner out or in. -/
inductive Event (ι : Type) where
  | wlock (t : ι) (garbage : BitVec 32)
  | go (t : ι) (spurious : Bool)
  | switchOut (t : ι)
  | switchIn (t : ι)

variable {ι : Type} [DecidableEq ι]

def State.setPc (s : State ι) (t : ι) (pc : Pc) : State ι :=
  { s with pcs := update s.pcs t pc }

/-- A `wait` by `t` under `expected`, with the default key and mask. -/
def State.wait (s : State ι) (t : ι) (expected : BitVec 32) : State ι :=
  if s.count = expected then
    { s.setPc t .parked with queue := s.queue ++ [⟨t, 0, BitVec.allOnes 32⟩] }
  else s.setPc t .head

/-- The woken threads go back to the head of the loop. -/
def resume (pcs : ι → Pc) (woken : List ι) (u : ι) : Pc :=
  if u ∈ woken then .head else pcs u

/-- Where the loop goes with the loaded values. -/
def branch (curPreempted : ℕ) (curCount mask : BitVec 32) : Pc :=
  if 0 < curPreempted ∨ curCount = modeTwo then .exchangeTwo
  else if popcount (curCount &&& ~~~3) = 0 ∨ curCount &&& mask ≠ 0 then .spin
  else .waitOn curCount

section Step

variable (id : ι → ℕ)

def State.go (s : State ι) (t : ι) (spurious : Bool) : Option (State ι) :=
  match s.pcs t with
  | .idle => none
  | .fast =>
    if s.count = 0 ∧ !spurious then some { s.setPc t .acquired with count := 1 }
    else some { s.setPc t .head with nodeMask := update s.nodeMask t (lockMask (id t)) }
  | .head => some (s.setPc t (.loaded s.preempted))
  | .loaded curPreempted => some (s.setPc t (branch curPreempted s.count (s.nodeMask t)))
  | .exchangeTwo =>
    some { s.setPc t (if s.count = 0 then .acquired else .waitTwo) with count := modeTwo }
  | .waitTwo => some (s.wait t modeTwo)
  | .spin =>
    some { s.setPc t (if s.count = 0 then .acquired else .head) with
           count := 2 ||| s.nodeMask t }
  | .waitOn curCount => some (s.wait t curCount)
  | .parked => none
  | .acquired => some (s.setPc t (.held true true))
  | .held bit running => if running then some (s.setPc t (.unlocking !bit)) else none
  | .unlocking preempted =>
    let curCount := s.count
    let pc :=
      if curCount = 1 then .idle
      else if preempted ∨ curCount = modeTwo ∨ curCount = 2 ||| s.nodeMask t then .readKey
      else .idle
    some { s.setPc t pc with count := 0 }
  | .readKey => some (s.setPc t (.wake (s.count.setWidth 64)))
  | .wake key =>
    some { s with
           queue := s.queue.left key (BitVec.allOnes 32) 1
           pcs := resume (update s.pcs t .idle)
             (s.queue.woken key (BitVec.allOnes 32) 1) }

def State.step (s : State ι) : Event ι → Option (State ι)
  | .wlock t garbage =>
    if s.pcs t = .idle then
      some { s.setPc t .fast with nodeMask := update s.nodeMask t garbage }
    else none
  | .go t spurious => s.go id t spurious
  | .switchOut t =>
    match s.pcs t with
    | .held _ true => some { s.setPc t (.held false false) with preempted := s.preempted + 1 }
    | _ => none
  | .switchIn t =>
    match s.pcs t with
    | .held _ false => some { s.setPc t (.held false true) with preempted := s.preempted - 1 }
    | _ => none

end Step

structure Boot (s : State ι) : Prop where
  count : s.count = 0
  preempted : s.preempted = 0
  queue : s.queue = []
  idle : ∀ t, s.pcs t = .idle

def Runs (id : ι → ℕ) : State ι → Prop :=
  Reachable Boot fun s s' => ∃ event, s.step id event = some s'

/-! ## Who answers for the parked threads -/

def Pc.owns : Pc → Bool
  | .acquired | .held _ _ | .unlocking _ => true
  | _ => false

/-- A woken or spinning thread that has its exchange still to do. -/
def Pc.retries : Pc → Bool
  | .head | .loaded _ | .exchangeTwo | .spin => true
  | _ => false

/-- An unlocker whose wake will take somebody out. -/
def Pc.willWake : Pc → Bool
  | .readKey => true
  | .wake key => key == 0
  | _ => false

/-- The owner `t` would wake a parked thread if it unlocked now. -/
def State.WakesOnUnlock (s : State ι) (t : ι) : Prop :=
  (s.pcs t).owns = true ∧ (s.count = modeTwo ∨ s.count = 2 ||| s.nodeMask t)

/-- **The condition.**  An unlocker that reads `count` for its wake and finds the mark of
the fast path leaves nobody parked without another thread in the loop or another wake to
come. -/
def Clear (s : State ι) (t : ι) : Prop :=
  s.pcs t = .readKey → s.count = 1 →
    s.queue = [] ∨ (∃ u, (s.pcs u).retries = true) ∨ ∃ u ≠ t, (s.pcs u).willWake = true

/-- The runs in which every step meets the condition. -/
def ClearRuns (id : ι → ℕ) : State ι → Prop :=
  Reachable Boot fun s s' => ∃ event, s.step id event = some s' ∧
    ∀ t spurious, event = .go t spurious → Clear s t

theorem ClearRuns.runs {id : ι → ℕ} {s : State ι} (reached : ClearRuns id s) : Runs id s :=
  reached.mono fun _ _ ⟨event, taken, _⟩ => ⟨event, taken⟩

/-! ## The values of the word -/

/-- The mark of a subscriber is none of the other values and contains its mask. -/
theorem mark_ne (id : ℕ) : 2 ||| lockMask id ≠ 0 ∧ 2 ||| lockMask id ≠ 1 ∧
    2 ||| lockMask id ≠ modeTwo ∧ (2 ||| lockMask id) &&& lockMask id ≠ 0 := by
  have all : ∀ k < 30, 2 ||| (1#32 <<< (k + 2)) ≠ 0 ∧ 2 ||| (1#32 <<< (k + 2)) ≠ 1 ∧
      2 ||| (1#32 <<< (k + 2)) ≠ modeTwo ∧
      (2 ||| (1#32 <<< (k + 2))) &&& (1#32 <<< (k + 2)) ≠ 0 := by
    decide
  exact all _ (Nat.mod_lt _ (by decide))

/-- Subscribers are counted above the two low bits. -/
theorem popcount_low : popcount ((0 : BitVec 32) &&& ~~~3) = 0 ∧
    popcount ((1 : BitVec 32) &&& ~~~3) = 0 := by
  decide

end MiniOsv.Sync.PrLock
