/-
# Sync.StdRwMutex2 -- the biased read-write mutex

`std_rw_mutex2_alg` builds a read-write mutex from three words.  `readers_state` counts
the readers in its low 30 bits; a writer sets the bias bit to turn new readers away and
the waiting bit before it sleeps until the count is zero.  Readers enter optimistically:
they add themselves first and back out if they find the bias, so the count contains
readers that will not stay.  Turned-away readers sleep while `writer_phase` is odd.
Writers exclude each other with the mutex of `std_mutex_alg`, whose model is used here as
it is: a thread inside it takes the steps of `StdMutex`.

A step is one access to a word or one operation on a queue.  A weak compare exchange may
fail although the value is the expected one (`spurious`).
-/
import MiniOsv.Sync.StdMutex
import MiniOsv.Theory.Tally
import Mathlib.Tactic.Ring

namespace MiniOsv.Sync.StdRwMutex2

open Theory BitVec Function

def maskParkedWriter : BitVec 32 := 2
def maskReader : BitVec 32 := 4
def writerBias : BitVec 32 := 0x40000000
def writerWaiting : BitVec 32 := 0x80000000
def readerMask : BitVec 32 := 0x3fffffff
def phaseWriting : BitVec 16 := 1

/-! ## The readers' word -/

def pack (bias waiting : Bool) (count : ℕ) : BitVec 32 :=
  BitVec.ofNat 32 (2 ^ 30 * (2 * waiting.toNat + bias.toNat) + count)

section Pack

variable {bias waiting : Bool} {count : ℕ}

theorem pack_getLsbD (fits : count < 2 ^ 30) {i : ℕ} (small : i < 32) :
    (pack bias waiting count).getLsbD i =
      if i < 30 then count.testBit i else if i = 30 then bias else waiting := by
  rw [pack, getLsbD_ofNat, Nat.testBit_two_pow_mul_add _ fits]
  simp only [small, decide_true, Bool.true_and]
  split
  · rfl
  · have high : i = 30 ∨ i = 31 := by omega
    rcases high with rfl | rfl <;> cases bias <;> cases waiting <;> decide

theorem mask_bits : (∀ i < 32, writerBias.getLsbD i = decide (i = 30)) ∧
    (∀ i < 32, writerWaiting.getLsbD i = decide (i = 31)) ∧
    ∀ i < 32, readerMask.getLsbD i = decide (i < 30) := by
  decide

theorem pack_add_one : pack bias waiting count + 1 = pack bias waiting (count + 1) := by
  rw [pack, pack]
  exact (ofNat_add _ _).symm

theorem pack_sub_one : pack bias waiting (count + 1) - 1 = pack bias waiting count := by
  rw [← pack_add_one, add_sub_cancel]

variable (fits : count < 2 ^ 30)
include fits

theorem and_writerBias : pack bias waiting count &&& writerBias = 0 ↔ bias = false := by
  have value : pack bias waiting count &&& writerBias = pack bias false 0 := by
    refine eq_of_getLsbD_eq fun i small => ?_
    rw [getLsbD_and, pack_getLsbD fits small, mask_bits.1 i small, pack_getLsbD (by decide) small]
    by_cases bit : i = 30 <;> simp [bit]
  rw [value]
  cases bias <;> decide

theorem and_writerWaiting : pack bias waiting count &&& writerWaiting = 0 ↔ waiting = false := by
  have value : pack bias waiting count &&& writerWaiting = pack false waiting 0 := by
    refine eq_of_getLsbD_eq fun i small => ?_
    rw [getLsbD_and, pack_getLsbD fits small, mask_bits.2.1 i small, pack_getLsbD (by decide) small]
    by_cases top : i = 31
    · simp [top]
    · have low : i < 30 ∨ i = 30 := by omega
      rcases low with low | rfl
      · simp [top, low]
      · simp
  rw [value]
  cases waiting <;> decide

theorem and_readerMask : pack bias waiting count &&& readerMask = BitVec.ofNat 32 count := by
  have plain : BitVec.ofNat 32 count = pack false false count := by simp [pack]
  rw [plain]
  refine eq_of_getLsbD_eq fun i small => ?_
  rw [getLsbD_and, pack_getLsbD fits small, mask_bits.2.2 i small, pack_getLsbD fits small]
  by_cases low : i < 30 <;> simp [low]

theorem and_readerMask_eq {n : ℕ} (small : n < 2 ^ 30) :
    pack bias waiting count &&& readerMask = BitVec.ofNat 32 n ↔ count = n := by
  rw [and_readerMask fits, ← toNat_inj, toNat_ofNat, toNat_ofNat,
    Nat.mod_eq_of_lt (by omega), Nat.mod_eq_of_lt (by omega)]

theorem or_writerBias : pack bias waiting count ||| writerBias = pack true waiting count := by
  refine eq_of_getLsbD_eq fun i small => ?_
  rw [getLsbD_or, pack_getLsbD fits small, mask_bits.1 i small, pack_getLsbD fits small]
  by_cases bit : i = 30 <;> simp [bit]

theorem or_writerWaiting : pack bias waiting count ||| writerWaiting = pack bias true count := by
  refine eq_of_getLsbD_eq fun i small => ?_
  rw [getLsbD_or, pack_getLsbD fits small, mask_bits.2.1 i small, pack_getLsbD fits small]
  by_cases top : i = 31
  · simp [top]
  · have low : i < 30 ∨ i = 30 := by omega
    rcases low with low | rfl
    · simp [top, low]
    · simp

theorem and_not_flags :
    pack bias waiting count &&& ~~~(writerBias ||| writerWaiting) = pack false false count := by
  refine eq_of_getLsbD_eq fun i small => ?_
  rw [getLsbD_and, getLsbD_not, getLsbD_or, pack_getLsbD fits small,
    mask_bits.1 i small, mask_bits.2.1 i small, pack_getLsbD fits small]
  by_cases low : i < 30
  · have notTop : i ≠ 30 ∧ i ≠ 31 := by omega
    simp [low, small, notTop.1, notTop.2]
  · have high : i = 30 ∨ i = 31 := by omega
    rcases high with rfl | rfl <;> simp

end Pack

/-! ## The model -/

/-- Where a thread is. -/
inductive Pc where
  | idle
  /-- `rlock`: before the `fetch_add`. -/
  | enter
  /-- `rlock`: it found the bias and has its `fetch_sub` to do. -/
  | backOut
  /-- It took the count from 1 to 0 while a writer waits and has its wake to do; after it
  the thread goes on in `rlock` or returns from `runlock`. -/
  | wakeWriter (retry : Bool)
  /-- `rlock`: before a load of `writer_phase`. -/
  | loadPhase
  /-- `rlock`: before `wait`, having loaded this phase. -/
  | waitPhase (phase : BitVec 16)
  | parkedReader
  /-- It holds the lock for reading; its next step is the `fetch_sub` of `runlock`. -/
  | reader
  /-- `wlock`: in the `wlock` of the inner mutex. -/
  | acquiring
  /-- `wlock`: before the `fetch_or` on `writer_phase`. -/
  | setPhase
  /-- `wlock`: before the first load of `readers_state`. -/
  | loadReaders
  /-- `wlock`: before the compare exchange that sets the bias. -/
  | setBias (expected : BitVec 32)
  /-- `wlock`: before a later load of `readers_state`. -/
  | reload
  /-- `wlock`: at the head of the last loop. -/
  | drain (expected : BitVec 32)
  | parkedWriter
  /-- It holds the lock for writing; its next step is the `fetch_and` of `wunlock`. -/
  | writer
  /-- `wunlock`: before the `fetch_add` on `writer_phase`. -/
  | endPhase
  /-- `wunlock`: before the `wake_all`. -/
  | wakeReaders
  /-- `wunlock`: in the `wunlock` of the inner mutex. -/
  | releasing
  deriving DecidableEq

structure State (ι : Type) where
  mutex : StdMutex.State ι
  readersState : BitVec 32
  writerPhase : BitVec 16
  queue : FutexQueue ι
  pcs : ι → Pc

/-- A thread outside the lock begins `rlock` or `wlock`, or a thread takes its next
step. -/
inductive Event (ι : Type) where
  | rlock (t : ι)
  | wlock (t : ι)
  | go (t : ι) (spurious : Bool)

variable {ι : Type} [DecidableEq ι]

def State.setPc (s : State ι) (t : ι) (pc : Pc) : State ι :=
  { s with pcs := update s.pcs t pc }

/-- Where a parked thread goes on when it is woken. -/
def Pc.resumed : Pc → Pc
  | .parkedReader => .loadPhase
  | .parkedWriter => .reload
  | pc => pc

def resume (pcs : ι → Pc) (woken : List ι) (u : ι) : Pc :=
  if u ∈ woken then (pcs u).resumed else pcs u

/-- `wake(mask, count)` on the second queue by `t`, which goes on at `pc`. -/
def State.wake (addr : BitVec 64) (s : State ι) (t : ι) (mask : BitVec 32) (count : ℕ) (pc : Pc) :
    State ι :=
  { s with
    queue := s.queue.left addr mask count
    pcs := resume (update s.pcs t pc) (s.queue.woken addr mask count) }

/-- The value the compare exchange of the bias loop stores. -/
def biased (expected : BitVec 32) : BitVec 32 :=
  if expected &&& readerMask ≠ 0 then expected ||| writerBias ||| writerWaiting
  else expected ||| writerBias

/-- `fetch_sub(1)` of a reader that leaves: it has to wake the writer if it was the last
one and the writer waits. -/
def State.subtract (s : State ι) (t : ι) (retry : Bool) (pc : Pc) : State ι :=
  let prev := s.readersState
  let pc := if prev &&& writerWaiting ≠ 0 ∧ prev &&& readerMask = 1 then .wakeWriter retry else pc
  { s.setPc t pc with readersState := prev - 1 }

def State.go (addr : BitVec 64) (s : State ι) (t : ι) (spurious : Bool) : Option (State ι) :=
  match s.pcs t with
  | .idle => none
  | .enter =>
    let pc := if s.readersState &&& writerBias = 0 then .reader else .backOut
    some { s.setPc t pc with readersState := s.readersState + 1 }
  | .backOut => some (s.subtract t true .loadPhase)
  | .wakeWriter retry =>
    some (s.wake addr t maskParkedWriter 1 (if retry then .loadPhase else .idle))
  | .loadPhase =>
    let phase := s.writerPhase
    some (s.setPc t (if phase &&& phaseWriting ≠ 0 then .waitPhase phase else .enter))
  | .waitPhase phase =>
    if s.writerPhase = phase then
      some { s.setPc t .parkedReader with queue := s.queue ++ [⟨t, addr, maskReader⟩] }
    else some (s.setPc t .loadPhase)
  | .parkedReader => none
  | .reader => some (s.subtract t false .idle)
  | .acquiring => do
      let mutex ← s.mutex.step addr t
      some { s.setPc t (if mutex.pcs t = .held then .setPhase else .acquiring) with mutex }
  | .setPhase =>
    some { s.setPc t .loadReaders with writerPhase := s.writerPhase ||| phaseWriting }
  | .loadReaders => some (s.setPc t (.setBias s.readersState))
  | .setBias expected =>
    if s.readersState = expected ∧ !spurious then
      some { s.setPc t .reload with readersState := biased expected }
    else some (s.setPc t (.setBias s.readersState))
  | .reload => some (s.setPc t (.drain s.readersState))
  | .drain expected =>
    if expected &&& readerMask = 0 then some (s.setPc t .writer)
    else if expected &&& writerWaiting = 0 then
      if s.readersState = expected ∧ !spurious then
        some { s.setPc t (.drain (expected ||| writerWaiting)) with
               readersState := expected ||| writerWaiting }
      else some (s.setPc t (.drain s.readersState))
    else if s.readersState = expected then
      some { s.setPc t .parkedWriter with queue := s.queue ++ [⟨t, addr, maskParkedWriter⟩] }
    else some (s.setPc t .reload)
  | .parkedWriter => none
  | .writer =>
    some { s.setPc t .endPhase with
           readersState := s.readersState &&& ~~~(writerBias ||| writerWaiting) }
  | .endPhase => some { s.setPc t .wakeReaders with writerPhase := s.writerPhase + 1 }
  | .wakeReaders => some (s.wake addr t maskReader InlineFutex.unsignedMax .releasing)
  | .releasing => do
      let mutex ← s.mutex.step addr t
      some { s.setPc t (if mutex.pcs t = .idle then .idle else .releasing) with mutex }

def State.step (addr : BitVec 64) (s : State ι) : Event ι → Option (State ι)
  | .rlock t => if s.pcs t = .idle then some (s.setPc t .enter) else none
  | .wlock t => if s.pcs t = .idle then some (s.setPc t .acquiring) else none
  | .go t spurious => s.go addr t spurious

/-- A lock that nobody uses; the phase counter may have any even value. -/
structure Boot (s : State ι) : Prop where
  mutex : StdMutex.Boot s.mutex
  readers : s.readersState = 0
  phase : s.writerPhase &&& phaseWriting = 0
  queue : s.queue = []
  idle : ∀ t, s.pcs t = .idle

def Runs (addr : BitVec 64) : State ι → Prop :=
  Reachable Boot fun s s' => ∃ event, s.step addr event = some s'

end MiniOsv.Sync.StdRwMutex2
