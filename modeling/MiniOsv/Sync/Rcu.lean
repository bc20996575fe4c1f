/-
# Sync.Rcu -- deferred callbacks and the quiescent-state threads

Every CPU has two callback buffers and one thread.  `rcu_defer` writes to the current
buffer; the thread of the CPU exchanges the buffers, takes a new generation, asks the
threads of the other CPUs to publish it, and runs the callbacks when all have.  A thread
that publishes a generation is running, so no read-side section, which runs with preemption
disabled, is active on its CPU at that moment.

Each access to shared state is a step; what runs under the preempt lock is one step, and so
are the two accesses of a caller that finds no room: it links its record and wakes the CPU's
thread.  Generations are natural numbers, as the 64-bit counter does not come round.  A
read-side section is known by the time of its start, and a callback by a number that tells
when `rcu_defer` was called.  Where a callback is (`Loc`) and how often it ran are no data
of the code.  A callback may call `rcu_defer` itself; if the buffer is full then, its thread
waits for itself.
-/
import Mathlib.Data.List.Nodup
import MiniOsv.Theory.Transition

namespace MiniOsv.Sync.Rcu

open Theory
open Function (update)

/-- `CONF_core_rcu_defer_queue_size`, as it is by default. -/
def deferQueueSize : ℕ := 2000

/-- Where a quiescent-state thread is.  `g` is the generation it waits for, `none` outside
of a grace period of its own. -/
inductive Pc (ι : Type) where
  /-- The block under the preempt lock. -/
  | top
  | fetch
  | mark (g : ℕ)
  /-- `request(g)` on the rest of the threads: the new value, then the wake. -/
  | ask (g : ℕ) (rest : List ι)
  | wakeAsked (g : ℕ) (j : ι) (rest : List ι)
  /-- `set_generation(v)`: the store, then the wakes. -/
  | store (v : ℕ) (g : Option ℕ)
  | notify (rest : List ι) (g : Option ℕ)
  /-- `wait_until` looks at its condition. -/
  | wait (g : Option ℕ)
  | asleep (g : Option ℕ)
  /-- Reads `_request` after the wait. -/
  | serve (g : Option ℕ)
  | clean
  | run (l : List ℕ)
  /-- A callback waits in `rcu_defer` for room. -/
  | stuck (l : List ℕ)
  deriving DecidableEq

/-- Where a callback is. -/
inductive Loc (ι : Type) where
  | unborn
  /-- Its caller is in the list of waiting calls of the CPU. -/
  | waiting (i : ι)
  /-- Its caller was woken and looks again. -/
  | retry (i : ι)
  | buffered (i : ι) (b : Bool)
  | running (i : ι)
  | done
  deriving DecidableEq

structure State (ι : Type) where
  buf : ι → Bool
  /-- The callbacks in each buffer; `ncallbacks` is the length. -/
  callbacks : ι → Bool → List ℕ
  waiting : ι → List ℕ
  retry : ι → List ℕ
  next : ℕ
  gen : ι → ℕ
  request : ι → ℕ
  requested : ι → Bool
  /-- The thread was woken since it last prepared to wait. -/
  woken : ι → Bool
  pcs : ι → Pc ι
  /-- The read-side section that is active on the CPU, by the time of its start. -/
  active : ι → Option ℕ
  now : ℕ
  /-- How many calls of `rcu_defer` there were, and when. -/
  tokens : ℕ
  called : ℕ → ℕ
  /-- When a generation was taken. -/
  fetched : ℕ → ℕ
  loc : ℕ → Loc ι
  ran : ℕ → ℕ

inductive Event (ι : Type) where
  | thread (i : ι)
  /-- A call of `rcu_defer` on the CPU, by a thread or by a callback that is being run. -/
  | defer (i : ι)
  | deferInside (i : ι)
  | retry (i : ι) (n : ℕ)
  | enter (i : ι)
  | exit (i : ι)
  /-- The thread is woken from elsewhere (`rcu_synchronize`). -/
  | wake (i : ι)

variable {ι : Type} [DecidableEq ι] (cqsts : List ι) (size : ℕ)

/-- A write to one buffer of one CPU. -/
def setBuffer (callbacks : ι → Bool → List ℕ) (i : ι) (b : Bool) (l : List ℕ) :
    ι → Bool → List ℕ :=
  fun j c => if j = i ∧ c = b then l else callbacks j c

def State.goto (s : State ι) (i : ι) (pc : Pc ι) : State ι :=
  { s with pcs := update s.pcs i pc }

/-- One turn of the loop in `rcu_defer`: the callback is stored, or its caller waits and
wakes the CPU's thread. -/
def State.put (s : State ι) (i : ι) (n : ℕ) : State ι :=
  if (s.callbacks i (s.buf i)).length = size then
    { s with
      waiting := update s.waiting i (n :: s.waiting i)
      woken := update s.woken i true
      loc := update s.loc n (.waiting i) }
  else
    { s with
      callbacks := setBuffer s.callbacks i (s.buf i) (s.callbacks i (s.buf i) ++ [n])
      loc := update s.loc n (.buffered i (s.buf i)) }

def State.call (s : State ι) : State ι :=
  { s with now := s.now + 1, tokens := s.tokens + 1
           called := update s.called s.tokens s.now }

/-- The condition of `wait_until`. -/
def State.ready (s : State ι) (i : ι) : Option ℕ → Bool
  | some g => decide (s.gen i < s.request i) || cqsts.all fun j => decide (g ≤ s.gen j)
  | none => decide (s.gen i < s.request i) || !(s.callbacks i (s.buf i)).isEmpty

/-- The block under the preempt lock: exchange the buffers if there is work, and wake the
callers that wait for room. -/
def State.exchange (s : State ι) (i : ι) : State ι :=
  let work := !(s.callbacks i (s.buf i)).isEmpty
  { s with
    buf := update s.buf i (if work then !s.buf i else s.buf i)
    waiting := update s.waiting i []
    retry := update s.retry i (s.waiting i ++ s.retry i)
    pcs := update s.pcs i (if work then .fetch else .wait none)
    loc := fun n => if n ∈ s.waiting i then .retry i else s.loc n }

/-- The grace period is over: the batch leaves its buffer. -/
def State.take (s : State ι) (i : ι) : State ι :=
  { s with
    requested := update s.requested i false
    callbacks := setBuffer s.callbacks i (!s.buf i) []
    pcs := update s.pcs i (.run (s.callbacks i (!s.buf i)))
    loc := fun n => if n ∈ s.callbacks i (!s.buf i) then .running i else s.loc n }

/-- `do_work` of the thread of CPU `i`; it runs only while no section is active there. -/
def State.thread (s : State ι) (i : ι) : Option (State ι) :=
  if s.active i ≠ none then none else
    match s.pcs i with
    | .top => some (s.exchange i)
    | .fetch =>
      some { s with
             now := s.now + 1
             next := s.next + 1
             fetched := update s.fetched (s.next + 1) s.now
             pcs := update s.pcs i (.mark (s.next + 1)) }
    | .mark g =>
      some { s with requested := update s.requested i true
                    pcs := update s.pcs i (.ask g cqsts) }
    | .ask g [] => some (s.goto i (.store g (some g)))
    | .ask g (j :: rest) =>
      if j = i then some (s.goto i (.ask g rest))
      else
        some { s with request := update s.request j (max (s.request j) g)
                      pcs := update s.pcs i (.wakeAsked g j rest) }
    | .wakeAsked g j rest =>
      some { s with woken := update s.woken j true
                    pcs := update s.pcs i (.ask g rest) }
    | .store v g =>
      some { s with gen := update s.gen i v
                    pcs := update s.pcs i (.notify cqsts g) }
    | .notify [] g => some (s.goto i (if g = none then .top else .wait g))
    | .notify (j :: rest) g =>
      if j ≠ i ∧ s.requested j = true then
        some { s with woken := update s.woken j true
                      pcs := update s.pcs i (.notify rest g) }
      else some (s.goto i (.notify rest g))
    | .wait g =>
      some { s with
             woken := update s.woken i false
             pcs := update s.pcs i
               (if s.ready cqsts i g = true then .serve g else .asleep g) }
    | .asleep g => if s.woken i = true then some (s.goto i (.wait g)) else none
    | .serve g =>
      some (s.goto i (if s.gen i < s.request i then .store (s.request i) g
        else if g = none then .top else .clean))
    | .clean => some (s.take i)
    | .run [] => some (s.goto i .top)
    | .run (n :: l) =>
      some { s with
             pcs := update s.pcs i (.run l)
             loc := update s.loc n .done
             ran := update s.ran n (s.ran n + 1) }
    | .stuck _ => none

def State.step (s : State ι) : Event ι → Option (State ι)
  | .thread i => s.thread cqsts i
  | .defer i => some (s.call.put size i s.tokens)
  | .deferInside i =>
    match s.pcs i with
    | .run l =>
      some ((s.call.put size i s.tokens).goto i
        (if (s.callbacks i (s.buf i)).length = size then .stuck l else .run l))
    | _ => none
  | .retry i n =>
    if n ∈ s.retry i then
      some (State.put size { s with retry := update s.retry i ((s.retry i).erase n) } i n)
    else none
  | .enter i =>
    if s.active i = none then
      some { s with active := update s.active i (some s.now), now := s.now + 1 }
    else none
  | .exit i => some { s with active := update s.active i none }
  | .wake i => some { s with woken := update s.woken i true }

/-- Empty buffers and no request. -/
def State.init : State ι where
  buf := fun _ => false
  callbacks := fun _ _ => []
  waiting := fun _ => []
  retry := fun _ => []
  next := 0
  gen := fun _ => 0
  request := fun _ => 0
  requested := fun _ => false
  woken := fun _ => false
  pcs := fun _ => .top
  active := fun _ => none
  now := 0
  tokens := 0
  called := fun _ => 0
  fetched := fun _ => 0
  loc := fun _ => .unborn
  ran := fun _ => 0

/-- Every interleaving of the threads of the CPUs in `cqsts`, with buffers for `size`
callbacks. -/
def Runs : State ι → Prop :=
  Reachable (fun s => s = State.init) fun s s' => ∃ event, s.step cqsts size event = some s'

end MiniOsv.Sync.Rcu
