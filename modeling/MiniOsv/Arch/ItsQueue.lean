/-
# Arch.ItsQueue -- the command queue of the interrupt translation service

`enqueue_cmd` writes commands into a ring of 4 KB and moves `GICITS_CWRITER` behind them; the
device reads the commands up to `GICITS_CWRITER` and moves `GICITS_CREADR`.  Both registers are
byte offsets.  The driver enqueues under `_gic_lock`, so there is one writer; the device may take
a step between any two accesses of it.  `enqueued` and `read` are no data of the code.

The test for a full queue compares `cread` with `cwrite + 32`, which is never 0, while `cwrite`
itself wraps.  At the last slot the queue is taken to have room (`overrun_full`); in every run
where the device has left the first slot by then, the queue is sound (`reachedAllowed_sound`).
-/
import Mathlib.Data.List.Range
import MiniOsv.Theory.Transition

namespace MiniOsv.Arch.ItsQueue

open Theory (Reachable)

/-! ## The model -/

/-- `GIC_ITS_CMD_QUEUE_SIZE`. -/
def queueSize : ℕ := 0x1000

/-- `sizeof(its_cmd)`. -/
def cmdSize : ℕ := 32

/-- Where the driver is in `enqueue_cmd`. -/
inductive Pc (α : Type) where
  | idle
  | loadRead (cmd : α)
  | loadWrite (cmd : α) (cread : ℕ)
  /-- `while (cread == cwrite + sizeof(*cmd))`. -/
  | test (cmd : α) (cread cwrite : ℕ)
  | reload (cmd : α) (cwrite : ℕ)
  /-- `*cmd_to_write = *cmd`. -/
  | store (cmd : α) (cwrite : ℕ)
  /-- `write_reg64(GICITS_CWRITER, cwrite)`. -/
  | publish (cmd : α) (cwrite : ℕ)

structure State (α : Type) where
  creadr : ℕ
  cwriter : ℕ
  cmdQueue : ℕ → α
  pc : Pc α
  enqueued : List α
  read : List α

inductive Event (α : Type) where
  | enqueueCmd (cmd : α)
  | go
  | device

variable {α : Type}

namespace State

def go (s : State α) : Option (State α) :=
  match s.pc with
  | .idle => none
  | .loadRead cmd => some { s with pc := .loadWrite cmd s.creadr }
  | .loadWrite cmd cread => some { s with pc := .test cmd cread s.cwriter }
  | .test cmd cread cwrite =>
    some { s with pc := if cread = cwrite + cmdSize then .reload cmd cwrite else .store cmd cwrite }
  | .reload cmd cwrite => some { s with pc := .test cmd s.creadr cwrite }
  | .store cmd cwrite =>
    some { s with
           cmdQueue := Function.update s.cmdQueue cwrite cmd
           pc := .publish cmd (if cwrite + cmdSize = queueSize then 0 else cwrite + cmdSize) }
  | .publish cmd cwrite =>
    some { s with cwriter := cwrite, pc := .idle, enqueued := s.enqueued ++ [cmd] }

def step (s : State α) : Event α → Option (State α)
  | .enqueueCmd cmd =>
    match s.pc with
    | .idle => some { s with pc := .loadRead cmd }
    | _ => none
  | .go => s.go
  | .device =>
    if s.creadr = s.cwriter then none
    else some { s with
                creadr := (s.creadr + cmdSize) % queueSize
                read := s.read ++ [s.cmdQueue s.creadr] }

/-- `initialize_cmd_queue`. -/
def Initial (s : State α) : Prop :=
  s.creadr = 0 ∧ s.cwriter = 0 ∧ s.pc = .idle ∧ s.enqueued = [] ∧ s.read = []

def Reached : State α → Prop := Reachable Initial fun s t => ∃ event, s.step event = some t

/-- The offsets from one register to the other, in the order in which the device comes to them. -/
def offsets (first last : ℕ) : List ℕ :=
  (List.range ((last + queueSize - first) % queueSize / cmdSize)).map fun k =>
    (first + cmdSize * k) % queueSize

/-- The slots that the device has not read. -/
def unread (s : State α) : List ℕ := offsets s.creadr s.cwriter

/-- No unread slot is about to be overwritten, the write offset is not about to become the read
offset, and what was enqueued is what was read, followed by what is unread. -/
structure Sound (s : State α) : Prop where
  kept : ∀ cmd cwrite, s.pc = .store cmd cwrite → cwrite ∉ s.unread
  apart : ∀ cmd cwrite, s.pc = .publish cmd cwrite → cwrite ≠ s.creadr
  order : s.enqueued = s.read ++ s.unread.map s.cmdQueue

/-- When the driver tests for room at the last slot, the device is not at the first one. -/
def Allowed (s : State α) : Event α → Prop
  | .go => ∀ cmd cread cwrite, s.pc = .test cmd cread cwrite →
      cwrite + cmdSize = queueSize → s.creadr ≠ 0
  | _ => True

def ReachedAllowed : State α → Prop :=
  Reachable Initial fun s t => ∃ event, s.Allowed event ∧ s.step event = some t

end State

open State List Function

/-! ## The ring -/

/-- How far the device is behind, in bytes. -/
def lag (first last : ℕ) : ℕ := (last + queueSize - first) % queueSize

def Slot (offset : ℕ) : Prop := offset % cmdSize = 0 ∧ offset < queueSize

def next (offset : ℕ) : ℕ := (offset + cmdSize) % queueSize

theorem Slot.next {a : ℕ} (slot : Slot a) : Slot (next a) := by
  simp only [Slot, ItsQueue.next, cmdSize, queueSize] at *
  omega

/-- The driver wraps as the device does. -/
theorem Slot.wrap {a : ℕ} (slot : Slot a) :
    (if a + cmdSize = queueSize then 0 else a + cmdSize) = ItsQueue.next a := by
  split <;> simp only [Slot, ItsQueue.next, cmdSize, queueSize] at * <;> omega

theorem lag_next_left {a b : ℕ} (first : Slot a) (last : Slot b) (ne : a ≠ b) :
    lag a b = lag (next a) b + cmdSize := by
  simp only [Slot, lag, next, cmdSize, queueSize] at *
  omega

theorem lag_next_right {a b : ℕ} (first : Slot a) (last : Slot b) (room : next b ≠ a) :
    lag a (next b) = lag a b + cmdSize := by
  simp only [Slot, lag, next, cmdSize, queueSize] at *
  omega

theorem offsets_cons {a b : ℕ} (first : Slot a) (last : Slot b) (ne : a ≠ b) :
    offsets a b = a :: offsets (next a) b := by
  have count : lag a b / cmdSize = lag (next a) b / cmdSize + 1 := by
    rw [lag_next_left first last ne, cmdSize]
    omega
  change (List.range (lag a b / cmdSize)).map _ = a :: (List.range (lag (next a) b / cmdSize)).map _
  rw [count, range_succ_eq_map, map_cons, map_map]
  congr 1
  · simp only [Slot, cmdSize, queueSize] at *
    omega
  · refine map_congr_left fun k _ => ?_
    simp only [comp_apply, next, cmdSize, queueSize]
    omega

theorem offsets_concat {a b : ℕ} (first : Slot a) (last : Slot b) (room : next b ≠ a) :
    offsets a (next b) = offsets a b ++ [b] := by
  have count : lag a (next b) / cmdSize = lag a b / cmdSize + 1 := by
    rw [lag_next_right first last room, cmdSize]
    omega
  change (List.range (lag a (next b) / cmdSize)).map _ = (List.range (lag a b / cmdSize)).map _ ++ [b]
  rw [count, range_succ, map_append, map_singleton]
  congr 2
  simp only [Slot, lag, cmdSize, queueSize] at *
  omega

theorem last_notMem_offsets {a b : ℕ} (first : Slot a) (last : Slot b) : b ∉ offsets a b := by
  intro mem
  obtain ⟨k, small, same⟩ := mem_map.1 mem
  have small := mem_range.1 small
  simp only [Slot, cmdSize, queueSize] at *
  omega

/-! ## The invariant -/

/-- What the driver knows in `enqueue_cmd`: the device does not fall behind. -/
def State.Knows (s : State α) : Pc α → Prop
  | .loadWrite _ cread => Slot cread ∧ lag s.creadr s.cwriter ≤ lag cread s.cwriter
  | .test _ cread cwrite => cwrite = s.cwriter ∧ Slot cread ∧
      lag s.creadr s.cwriter ≤ lag cread s.cwriter
  | .reload _ cwrite => cwrite = s.cwriter
  | .store _ cwrite => cwrite = s.cwriter ∧ next s.cwriter ≠ s.creadr
  | .publish cmd cwrite => cwrite = next s.cwriter ∧ next s.cwriter ≠ s.creadr ∧
      s.cmdQueue s.cwriter = cmd
  | _ => True

structure Inv (s : State α) : Prop where
  first : Slot s.creadr
  last : Slot s.cwriter
  order : s.enqueued = s.read ++ s.unread.map s.cmdQueue
  knows : s.Knows s.pc

variable {s s' : State α}

theorem Inv.go (inv : Inv s) (allowed : s.Allowed .go) (result : s.go = some s') : Inv s' := by
  have knows := inv.knows
  unfold State.go at result
  cases here : s.pc <;> simp only [here] at result knows <;> cases result
  case loadRead cmd => exact ⟨inv.first, inv.last, inv.order, inv.first, le_refl _⟩
  case loadWrite cmd cread => exact ⟨inv.first, inv.last, inv.order, rfl, knows⟩
  case reload cmd cwrite => exact ⟨inv.first, inv.last, inv.order, knows, inv.first, le_refl _⟩
  case test cmd cread cwrite =>
    obtain ⟨rfl, slot, behind⟩ := knows
    refine ⟨inv.first, inv.last, inv.order, ?_⟩
    dsimp only
    split
    case isTrue => exact rfl
    case isFalse room =>
      -- Only at the last slot can the test miss that the queue is full.
      have gap := allowed cmd cread _ here
      have last := inv.last
      refine ⟨rfl, fun full => ?_⟩
      simp only [Slot, lag, next, cmdSize, queueSize] at *
      omega
  case store cmd cwrite =>
    obtain ⟨rfl, room⟩ := knows
    have same : s.unread.map (update s.cmdQueue s.cwriter cmd) = s.unread.map s.cmdQueue := by
      refine map_congr_left fun a mem => update_of_ne ?_ _ _
      rintro rfl
      exact last_notMem_offsets inv.first inv.last mem
    exact ⟨inv.first, inv.last, inv.order.trans (by rw [← same]; rfl), inv.last.wrap, room,
      Function.update_self ..⟩
  case publish cmd cwrite =>
    obtain ⟨rfl, room, stored⟩ := knows
    refine ⟨inv.first, inv.last.next, ?_, trivial⟩
    change s.enqueued ++ [cmd] = s.read ++ (offsets s.creadr (next s.cwriter)).map s.cmdQueue
    rw [offsets_concat inv.first inv.last room, map_append, map_singleton, stored,
      inv.order, append_assoc]
    rfl

theorem Inv.device (inv : Inv s) (result : s.step .device = some s') : Inv s' := by
  obtain ⟨ne, result⟩ := Option.ite_none_left_eq_some.1 result
  cases result
  have closer := lag_next_left inv.first inv.last ne
  have room : next s.cwriter ≠ s.creadr → next s.cwriter ≠ next s.creadr := by
    intro _ same
    have first := inv.first
    have last := inv.last
    simp only [Slot, next, cmdSize, queueSize] at *
    omega
  refine ⟨inv.first.next, inv.last, ?_, ?_⟩
  · change s.enqueued = (s.read ++ [s.cmdQueue s.creadr]) ++
      (offsets (next s.creadr) s.cwriter).map s.cmdQueue
    rw [inv.order, State.unread, offsets_cons inv.first inv.last ne, map_cons, append_assoc]
    rfl
  · have knows := inv.knows
    change State.Knows { s with creadr := next s.creadr, read := _ } s.pc
    cases here : s.pc <;> simp only [here, State.Knows] at knows ⊢
    case loadWrite cmd cread => exact ⟨knows.1, by omega⟩
    case test cmd cread cwrite => exact ⟨knows.1, knows.2.1, by omega⟩
    case reload cmd cwrite => exact knows
    case store cmd cwrite => exact ⟨knows.1, room knows.2⟩
    case publish cmd cwrite => exact ⟨knows.1, room knows.2.1, knows.2.2⟩

theorem Inv.step (inv : Inv s) {event : Event α} (allowed : s.Allowed event)
    (result : s.step event = some s') : Inv s' := by
  cases event with
  | enqueueCmd cmd =>
    simp only [State.step] at result
    split at result <;> cases result
    exact ⟨inv.first, inv.last, inv.order, trivial⟩
  | go => exact inv.go allowed result
  | device => exact inv.device result

theorem Inv.initial (initial : s.Initial) : Inv s := by
  obtain ⟨first, last, idle, none, nothing⟩ := initial
  refine ⟨?_, ?_, ?_, ?_⟩
  · simp [first, Slot, queueSize]
  · simp [last, Slot, queueSize]
  · simp [none, nothing, State.unread, first, last, offsets]
  · rw [idle]
    trivial

/-- **The command queue is sound** in every run, with the device at any pace, in which the device
has left the first slot whenever the driver tests for room at the last one. -/
theorem reachedAllowed_sound (reached : s.ReachedAllowed) : s.Sound := by
  have inv : Inv s := Reachable.invariant (I := Inv) (fun _ => Inv.initial)
    (fun _ _ _ inv ⟨_, allowed, result⟩ => inv.step allowed result) reached
  have knows := inv.knows
  refine ⟨fun cmd cwrite here => ?_, fun cmd cwrite here => ?_, inv.order⟩ <;> rw [here] at knows
  · rw [knows.1]
    exact last_notMem_offsets inv.first inv.last
  · rw [knows.1]
    exact knows.2.1

/-! ## Runs -/

/-- One command is enqueued before the last slot, while the device is at the first one. -/
theorem ReachedAllowed.enqueue (reached : s.ReachedAllowed) (idle : s.pc = .idle)
    (first : s.creadr = 0) (room : s.cwriter + cmdSize < queueSize) (cmd : α) :
    ∃ t : State α, t.ReachedAllowed ∧ t.pc = .idle ∧ t.creadr = 0 ∧
      t.cwriter = s.cwriter + cmdSize ∧ t.read = s.read ∧ t.cmdQueue s.cwriter = cmd := by
  obtain ⟨creadr, cwriter, queue, pc, enqueued, read⟩ := s
  obtain rfl : pc = .idle := idle
  obtain rfl : creadr = 0 := first
  have behind : cwriter + cmdSize ≠ queueSize := room.ne
  have tested : State.ReachedAllowed ⟨0, cwriter, queue, .test cmd 0 cwriter, enqueued, read⟩ :=
    ((reached.next ⟨.enqueueCmd cmd, trivial, rfl⟩).next
      ⟨.go, nofun, rfl⟩).next ⟨.go, nofun, rfl⟩
  have storing : State.ReachedAllowed ⟨0, cwriter, queue, .store cmd cwriter, enqueued, read⟩ := by
    refine tested.next ⟨.go, fun _ _ _ here last => ?_, by simp [State.step, State.go, cmdSize]⟩
    cases here
    exact absurd last behind
  have stored : State.ReachedAllowed ⟨0, cwriter, Function.update queue cwriter cmd,
      .publish cmd (cwriter + cmdSize), enqueued, read⟩ :=
    storing.next ⟨.go, nofun, by simp [State.step, State.go, behind]⟩
  exact ⟨_, stored.next ⟨.go, nofun, rfl⟩, rfl, rfl, rfl, rfl,
    Function.update_self ..⟩

/-- `initialize_cmd_queue`, with commands that are numbers. -/
def empty : State ℕ := ⟨0, 0, fun _ => 0, .idle, [], []⟩

theorem empty_reached : empty.ReachedAllowed := .start ⟨rfl, rfl, rfl, rfl, rfl⟩

/-- The driver fills all slots but the last while the device reads nothing. -/
theorem filled {n : ℕ} (room : n < 128) :
    ∃ s : State ℕ, s.ReachedAllowed ∧ s.pc = .idle ∧ s.creadr = 0 ∧ s.cwriter = cmdSize * n := by
  induction n with
  | zero => exact ⟨empty, empty_reached, rfl, rfl, rfl⟩
  | succ n ih =>
    obtain ⟨s, reached, idle, first, last⟩ := ih (by omega)
    obtain ⟨t, reached, idle, first, next, -⟩ := ReachedAllowed.enqueue reached idle first
      (by rw [last]; simp only [cmdSize, queueSize]; omega) n
    exact ⟨t, reached, idle, first, by rw [next, last]; rfl⟩

/-- The device reads one command, and the last slot is filled: the write offset is 0 again. -/
theorem wrapped : ∃ s : State ℕ, s.ReachedAllowed ∧ s.creadr = 32 ∧ s.cwriter = 0 := by
  obtain ⟨⟨creadr, cwriter, queue, pc, enqueued, read⟩, reached, idle, first, last⟩ :=
    filled (show 127 < 128 by decide)
  obtain rfl : pc = .idle := idle
  obtain rfl : creadr = 0 := first
  obtain rfl : cwriter = 4064 := last
  have tested := (((reached.next ⟨.device, trivial, rfl⟩).next ⟨.enqueueCmd 7, trivial, rfl⟩).next
    ⟨.go, nofun, rfl⟩).next ⟨.go, nofun, rfl⟩
  have stored := (tested.next ⟨.go, fun _ _ _ _ _ => show 32 ≠ 0 by decide, rfl⟩).next ⟨.go, nofun, rfl⟩
  exact ⟨_, stored.next ⟨.go, nofun, rfl⟩, rfl, rfl⟩

theorem wrapped_sound : ∃ s : State ℕ, s.ReachedAllowed ∧ s.cwriter < s.creadr ∧
    s.unread.length = 127 ∧ s.Sound := by
  obtain ⟨s, reached, first, last⟩ := wrapped
  refine ⟨s, reached, by rw [first, last]; decide, ?_, reachedAllowed_sound reached⟩
  rw [State.unread, first, last]
  rfl

/-- The last slot is filled as well, and `GICITS_CWRITER` is about to become `GICITS_CREADR`. -/
theorem overrun_full : ∃ s : State ℕ, s.Reached ∧ ∃ cmd, s.pc = .publish cmd s.creadr ∧ ¬s.Sound := by
  obtain ⟨⟨creadr, cwriter, queue, pc, enqueued, read⟩, reached, idle, first, last⟩ :=
    filled (show 127 < 128 by decide)
  obtain rfl : pc = .idle := idle
  obtain rfl : creadr = 0 := first
  obtain rfl : cwriter = 4064 := last
  have start : State.Reached ⟨0, 4064, queue, .idle, enqueued, read⟩ :=
    reached.mono fun _ _ ⟨event, _, taken⟩ => ⟨event, taken⟩
  have stored := ((((start.next ⟨.enqueueCmd 7, rfl⟩).next ⟨.go, rfl⟩).next ⟨.go, rfl⟩).next
    ⟨.go, rfl⟩).next ⟨.go, rfl⟩
  exact ⟨_, stored, 7, rfl, fun sound => sound.apart 7 0 rfl rfl⟩

end MiniOsv.Arch.ItsQueue
