/-
# Libc.Select -- `select` over the standard streams

No descriptor exists but 0, 1 and 2, so `select` looks at no more than three bits of each
set.  The console is outside: what `console::input_available` answers and what the clock
shows are sequences, and the state counts how many answers have been taken.  The loop of
`wait_for_std_input` may go on for ever; it gets fuel, and a result is a returned call.

What the caller may rely on is `Correct`: it judges the returned sets by its own `nfds`.
-/
import Mathlib.Data.Int.Notation
import Mathlib.Data.List.Basic

namespace MiniOsv.Libc.Select

/-! ## Descriptor sets -/

/-- `fd_set`: 1024 bits in 16 words. -/
structure FdSet where
  fdsBits : ℕ → BitVec 64
  size : ∀ word, 16 ≤ word → fdsBits word = 0#64

def fdIsSet (d : ℕ) (s : FdSet) : Bool := (s.fdsBits (d / 64)).getLsbD (d % 64)

def fdClr (d : ℕ) (s : FdSet) : FdSet where
  fdsBits := Function.update s.fdsBits (d / 64) (s.fdsBits (d / 64) &&& ~~~(1#64 <<< (d % 64)))
  size word outside := by
    by_cases same : word = d / 64
    · subst same
      simp [s.size _ outside]
    · rw [Function.update_of_ne same, s.size word outside]

def fdZero : FdSet := ⟨fun _ => 0#64, fun _ _ => rfl⟩

/-- The bit of a set that is passed by pointer; a null pointer has none. -/
def isSet (d : ℕ) (set : Option FdSet) : Bool := set.any (fdIsSet d)

theorem fdIsSet_fdClr (i d : ℕ) (s : FdSet) :
    fdIsSet i (fdClr d s) = (fdIsSet i s && decide (i ≠ d)) := by
  have inside : i % 64 < 64 := Nat.mod_lt _ (by decide)
  simp only [fdIsSet, fdClr]
  by_cases word : i / 64 = d / 64
  · rw [word, Function.update_self]
    by_cases same : i % 64 = d % 64
    · have same' : i = d := by omega
      simp [same']
    · have other : i ≠ d := fun equal => same (by rw [equal])
      rcases Nat.lt_or_gt_of_ne same with below | above
      · simp [inside, below, other]
      · have shifted : i % 64 - d % 64 ≠ 0 := by omega
        simp [inside, other, shifted]
  · have other : i ≠ d := fun equal => word (by rw [equal])
    rw [Function.update_of_ne word]
    simp [other]

theorem isSet_clr (i d : ℕ) (s : FdSet) :
    isSet i (some (fdClr d s)) = (isSet i (some s) && decide (i ≠ d)) :=
  fdIsSet_fdClr i d s

@[simp] theorem isSet_none (i : ℕ) : isSet i none = false := rfl

@[simp] theorem isSet_zero (i : ℕ) : isSet i (some fdZero) = false := by
  simp [isSet, fdIsSet, fdZero]

/-- How many bits below `nfds` are set. -/
def bitsBelow (nfds : ℤ) (set : Option FdSet) : ℕ :=
  (List.range nfds.toNat).countP fun d => isSet d set

/-! ## The console and the clock -/

structure Console where
  /-- What the calls of `console::input_available` answer, in order. -/
  input : ℕ → Bool
  /-- What `steady_clock::now` shows, in milliseconds. -/
  clock : ℕ → ℤ
  polls : ℕ
  readings : ℕ

namespace Console

def inputAvailable (c : Console) : Bool × Console :=
  (c.input c.polls, { c with polls := c.polls + 1 })

def now (c : Console) : ℤ × Console :=
  (c.clock c.readings, { c with readings := c.readings + 1 })

end Console

def stdFdReady (fd : ℕ) (c : Console) : Bool × Console :=
  if fd = 0 then c.inputAvailable else (fd == 1 || fd == 2, c)

/-- The loop of `wait_for_std_input`. -/
def waitLoop (timeoutMs deadline : ℤ) : ℕ → Console → Option (Bool × Console)
  | 0, _ => none
  | fuel + 1, c =>
    let asked := c.inputAvailable
    if asked.1 then some (true, asked.2)
    else if timeoutMs = 0 then some (false, asked.2)
    else if 0 < timeoutMs then
      let time := asked.2.now
      if deadline ≤ time.1 then some (false, time.2) else waitLoop timeoutMs deadline fuel time.2
    else waitLoop timeoutMs deadline fuel asked.2

def waitForStdInput (fuel : ℕ) (timeoutMs : ℤ) (c : Console) : Option (Bool × Console) :=
  let start := c.now
  waitLoop timeoutMs (start.1 + if timeoutMs < 0 then 0 else timeoutMs) fuel start.2

/-- Waiting asks the console and changes none of its answers. -/
theorem waitLoop_input {timeoutMs deadline : ℤ} {fuel : ℕ} {c : Console} {r : Bool × Console}
    (returned : waitLoop timeoutMs deadline fuel c = some r) :
    r.2.input = c.input ∧ c.polls ≤ r.2.polls := by
  induction fuel generalizing c with
  | zero => cases returned
  | succ fuel ih =>
    rw [waitLoop] at returned
    split at returned
    · cases returned
      exact ⟨rfl, Nat.le_succ _⟩
    · split at returned
      · cases returned
        exact ⟨rfl, Nat.le_succ _⟩
      · split at returned
        · dsimp only at returned
          split at returned
          · cases returned
            exact ⟨rfl, Nat.le_succ _⟩
          · obtain ⟨same, more⟩ := ih returned
            exact ⟨same, Nat.le_of_succ_le more⟩
        · obtain ⟨same, more⟩ := ih returned
          exact ⟨same, Nat.le_of_succ_le more⟩

/-! ## The scan -/

structure Scan where
  ready : ℕ
  readfds : Option FdSet
  writefds : Option FdSet
  console : Console

open Scan Option

namespace Scan

/-- The first `if` of the loop body. -/
def read (s : Scan) (fd : ℕ) : Scan :=
  match s.readfds with
  | none => s
  | some set =>
    if fdIsSet fd set then
      let asked := stdFdReady fd s.console
      if asked.1 then { s with ready := s.ready + 1, console := asked.2 }
      else { s with readfds := some (fdClr fd set), console := asked.2 }
    else s

/-- The second `if` of the loop body. -/
def write (s : Scan) (fd : ℕ) : Scan :=
  match s.writefds with
  | none => s
  | some set =>
    if fdIsSet fd set then
      if fd = 1 ∨ fd = 2 then { s with ready := s.ready + 1 }
      else { s with writefds := some (fdClr fd set) }
    else s

def visit (s : Scan) (fd : ℕ) : Scan := (s.read fd).write fd

end Scan

structure Result where
  ready : ℕ
  readfds : Option FdSet
  writefds : Option FdSet
  exceptfds : Option FdSet
  console : Console

/-- `tv_sec * 1000 + tv_usec / 1000`, or -1 without a timeout. -/
def timeoutMs : Option (ℤ × ℤ) → ℤ
  | none => -1
  | some (sec, usec) => sec * 1000 + usec.tdiv 1000

def select (fuel : ℕ) (nfds : ℤ) (readfds writefds exceptfds : Option FdSet)
    (timeout : Option (ℤ × ℤ)) (console : Console) : Option Result :=
  let nfds := if nfds > 3 then 3 else nfds
  let wantsStdin := decide (0 < nfds) && isSet 0 readfds
  let waited :=
    if wantsStdin then (waitForStdInput fuel (timeoutMs timeout) console).map Prod.snd
    else some console
  waited.map fun console =>
    let s := (List.range nfds.toNat).foldl visit ⟨0, readfds, writefds, console⟩
    ⟨s.ready, s.readfds, s.writefds, exceptfds.map fun _ => fdZero, s.console⟩

/-! ## What the scan leaves -/

/-- Whether `std_fd_ready` finds `fd` ready when the console answers `available`. -/
def readable (available : Bool) (fd : ℕ) : Bool :=
  if fd = 0 then available else fd == 1 || fd == 2

def writable (fd : ℕ) : Bool := fd == 1 || fd == 2

/-- After the descriptors below `k` were visited: what is left of each set, that `ready`
counts it, and that the console was asked once if the bit of standard input was set. -/
structure Scanned (k : ℕ) (before after : Scan) : Prop where
  readBits : ∀ fd, isSet fd after.readfds =
    (isSet fd before.readfds &&
      (decide (k ≤ fd) || readable (before.console.input before.console.polls) fd))
  writeBits : ∀ fd, isSet fd after.writefds =
    (isSet fd before.writefds && (decide (k ≤ fd) || writable fd))
  counted : after.ready =
    (List.range k).countP (fun d => isSet d after.readfds) +
      (List.range k).countP (fun d => isSet d after.writefds)
  input : after.console.input = before.console.input
  polls : after.console.polls =
    before.console.polls + if 0 < k ∧ isSet 0 before.readfds = true then 1 else 0

/-- The first `if` keeps a bit that is set when the stream is readable, and counts it. -/
theorem Scan.read_spec (s : Scan) (fd : ℕ) :
    (∀ i, isSet i (s.read fd).readfds =
      (isSet i s.readfds && (decide (i ≠ fd) || (stdFdReady fd s.console).1))) ∧
    (s.read fd).writefds = s.writefds ∧
    (s.read fd).ready = s.ready + (if isSet fd (s.read fd).readfds then 1 else 0) ∧
    (s.read fd).console = if isSet fd s.readfds then (stdFdReady fd s.console).2 else s.console := by
  cases given : s.readfds with
  | none => simp [read, given]
  | some set =>
    by_cases bit : fdIsSet fd set
    · have bit' : isSet fd (some set) = true := bit
      by_cases ready : (stdFdReady fd s.console).1 = true
      · simp [read, given, bit, bit', ready]
      · simp [read, given, bit, bit', ready, isSet_clr]
    · have bit' : isSet fd (some set) = false := by simpa [isSet] using bit
      refine ⟨fun i => ?_, ?_, ?_, ?_⟩
      · by_cases same : i = fd
        · simp [read, given, bit, same, bit']
        · simp [read, given, bit, same]
      all_goals simp [read, given, bit, bit']

theorem Scan.write_spec (s : Scan) (fd : ℕ) :
    (∀ i, isSet i (s.write fd).writefds =
      (isSet i s.writefds && (decide (i ≠ fd) || writable fd))) ∧
    (s.write fd).readfds = s.readfds ∧
    (s.write fd).ready = s.ready + (if isSet fd (s.write fd).writefds then 1 else 0) ∧
    (s.write fd).console = s.console := by
  cases given : s.writefds with
  | none => simp [write, given]
  | some set =>
    by_cases bit : fdIsSet fd set
    · have bit' : isSet fd (some set) = true := bit
      by_cases ready : fd = 1 ∨ fd = 2
      · simp [write, given, bit, bit', ready, writable]
      · have refused : writable fd = false := by simpa [writable] using ready
        simp [write, given, bit, bit', ready, refused, isSet_clr]
    · have bit' : isSet fd (some set) = false := by simpa [isSet] using bit
      refine ⟨fun i => ?_, ?_, ?_, ?_⟩
      · by_cases same : i = fd
        · simp [write, given, bit, same, bit']
        · simp [write, given, bit, same]
      all_goals simp [write, given, bit, bit']

theorem stdFdReady_fst (fd : ℕ) (c : Console) :
    (stdFdReady fd c).1 = readable (c.input c.polls) fd := by
  simp only [stdFdReady, readable, Console.inputAvailable]
  split <;> rfl

theorem stdFdReady_snd (fd : ℕ) (c : Console) :
    (stdFdReady fd c).2.input = c.input ∧
      (stdFdReady fd c).2.polls = c.polls + if fd = 0 then 1 else 0 := by
  simp only [stdFdReady, Console.inputAvailable]
  split <;> simp

/-- Below `k` only the ready bits of a set are left; the others are as they were. -/
def Filtered (k : ℕ) (ready before after : ℕ → Bool) : Prop :=
  ∀ fd, after fd = (before fd && (decide (k ≤ fd) || ready fd))

namespace Filtered

variable {k : ℕ} {ready before mid after : ℕ → Bool}

theorem succ (done : Filtered k ready before mid)
    (turn : ∀ fd, after fd = (mid fd && (decide (fd ≠ k) || ready k))) :
    Filtered (k + 1) ready before after := by
  intro fd
  rw [turn, done]
  rcases Nat.lt_trichotomy fd k with below | same | above
  · simp [show ¬ k ≤ fd by omega, show ¬ k + 1 ≤ fd by omega, show fd ≠ k by omega]
  · subst same
    simp [show ¬ fd + 1 ≤ fd by omega]
  · simp [show k ≤ fd by omega, show k + 1 ≤ fd by omega, show fd ≠ k by omega]

/-- The bits below `k` are the ones that were counted before. -/
theorem count_succ (done : Filtered k ready before mid)
    (next : Filtered (k + 1) ready before after) :
    (List.range (k + 1)).countP after = (List.range k).countP mid + if after k then 1 else 0 := by
  have kept : (List.range k).countP after = (List.range k).countP mid := by
    refine List.countP_congr fun d mem => ?_
    have below := List.mem_range.1 mem
    rw [next, done]
    simp [show ¬ k ≤ d by omega, show ¬ k + 1 ≤ d by omega]
  rw [List.range_succ, List.countP_append, List.countP_singleton, kept]

theorem above (done : Filtered k ready before after) {fd : ℕ} (high : k ≤ fd) :
    after fd = before fd := by
  rw [done, decide_eq_true high, Bool.true_or, Bool.and_true]

/-- A bit that is left was set, and it is ready or was not visited. -/
theorem of_left (done : Filtered k ready before after) {fd : ℕ} (left : after fd = true) :
    before fd = true ∧ (k ≤ fd ∨ ready fd = true) := by
  rw [done, Bool.and_eq_true, Bool.or_eq_true, decide_eq_true_eq] at left
  exact left

end Filtered

/-- A turn asks the console only for standard input. -/
theorem Scan.visit_polls (s : Scan) (k : ℕ) :
    (s.visit k).console.polls =
      s.console.polls + if k = 0 ∧ isSet 0 s.readfds = true then 1 else 0 := by
  rw [visit, ((s.read k).write_spec k).2.2.2, (s.read_spec k).2.2.2]
  by_cases zero : k = 0
  · subst zero
    by_cases bit : isSet 0 s.readfds = true
    · rw [if_pos bit, (stdFdReady_snd _ _).2, if_pos rfl, if_pos ⟨rfl, bit⟩]
    · rw [if_neg bit, if_neg fun both => bit both.2, Nat.add_zero]
  · have other : ¬ (k = 0 ∧ isSet 0 s.readfds = true) := fun both => zero both.1
    rw [if_neg other, Nat.add_zero]
    split
    · rw [(stdFdReady_snd _ _).2, if_neg zero, Nat.add_zero]
    · rfl

/-- **One turn of the loop.** -/
theorem Scanned.visit {k : ℕ} {before s : Scan} (scanned : Scanned k before s) :
    Scanned (k + 1) before (s.visit k) := by
  obtain ⟨readBits, sameWrite, readCount, readConsole⟩ := s.read_spec k
  obtain ⟨writeBits, sameRead, writeCount, writeConsole⟩ := (s.read k).write_spec k
  -- Standard input is the first descriptor, so the console has not been asked before.
  have asked : (stdFdReady k s.console).1 =
      readable (before.console.input before.console.polls) k := by
    rw [stdFdReady_fst, scanned.input, scanned.polls]
    by_cases zero : k = 0
    · simp [zero]
    · simp [readable, zero]
  have read : Filtered (k + 1) (readable (before.console.input before.console.polls))
      (isSet · before.readfds) (isSet · (s.visit k).readfds) :=
    Filtered.succ scanned.readBits fun fd => by rw [Scan.visit, sameRead, readBits, asked]
  have write : Filtered (k + 1) writable (isSet · before.writefds)
      (isSet · (s.visit k).writefds) :=
    Filtered.succ scanned.writeBits fun fd => by rw [Scan.visit, writeBits, sameWrite]
  refine ⟨read, write, ?_, ?_, ?_⟩
  · rw [Filtered.count_succ scanned.readBits read, Filtered.count_succ scanned.writeBits write,
      Scan.visit, writeCount, readCount, scanned.counted, sameRead]
    omega
  · rw [Scan.visit, writeConsole, readConsole]
    split
    · rw [(stdFdReady_snd _ _).1, scanned.input]
    · exact scanned.input
  · have bit : k = 0 → isSet 0 s.readfds = isSet 0 before.readfds := by
      rintro rfl
      exact Filtered.above scanned.readBits (Nat.le_refl 0)
    rw [s.visit_polls, scanned.polls]
    by_cases zero : k = 0
    · subst zero
      simp [bit rfl]
    · simp [zero, Nat.pos_of_ne_zero zero]

/-- **The whole loop.** -/
theorem scanned_range (readfds writefds : Option FdSet) (console : Console) (k : ℕ) :
    Scanned k ⟨0, readfds, writefds, console⟩
      ((List.range k).foldl visit ⟨0, readfds, writefds, console⟩) := by
  induction k with
  | zero => exact ⟨by simp, by simp, by simp, rfl, by simp⟩
  | succ k ih =>
    rw [List.range_succ, List.foldl_append]
    exact ih.visit

/-! ## The contract -/

/-- A read of `fd` would not block: standard input when the console answered, in the call
and as the last answer it gave, that there is input; the output streams always, since
`read` refuses them at once. -/
def ReadReady (before after : Console) (fd : ℕ) : Prop :=
  fd = 0 ∧ before.polls < after.polls ∧ before.input (after.polls - 1) = true ∨ fd = 1 ∨ fd = 2

/-- A write to `fd` is taken. -/
def WriteReady (fd : ℕ) : Prop := fd = 1 ∨ fd = 2

/-- **What `select` owes its caller**, who judges by its own `nfds`. -/
structure Correct (nfds : ℤ) (readfds writefds exceptfds : Option FdSet) (console : Console)
    (r : Result) : Prop where
  count : r.ready = bitsBelow nfds r.readfds + bitsBelow nfds r.writefds + bitsBelow nfds r.exceptfds
  read : ∀ fd : ℕ, (fd : ℤ) < nfds → isSet fd r.readfds = true →
    isSet fd readfds = true ∧ ReadReady console r.console fd
  write : ∀ fd : ℕ, (fd : ℤ) < nfds → isSet fd r.writefds = true →
    isSet fd writefds = true ∧ WriteReady fd
  /-- No stream has an exceptional condition. -/
  except : ∀ fd : ℕ, (fd : ℤ) < nfds → isSet fd r.exceptfds = true →
    isSet fd exceptfds = true ∧ False

/-- Bits that are not set add nothing to a count. -/
theorem countP_range_eq {p : ℕ → Bool} {k n : ℕ} (le : k ≤ n)
    (none : ∀ d, k ≤ d → d < n → p d = false) :
    (List.range n).countP p = (List.range k).countP p := by
  induction n with
  | zero =>
    obtain rfl : k = 0 := by omega
    rfl
  | succ n ih =>
    rcases Nat.eq_or_lt_of_le le with same | below
    · rw [same]
    · rw [List.range_succ, List.countP_append, List.countP_singleton,
        ih (by omega) fun d high low => none d high (by omega), none n (by omega) (by omega)]
      rfl

theorem isSet_except (d : ℕ) (set : Option FdSet) : isSet d (set.map fun _ => fdZero) = false := by
  cases set <;> simp

/-- What a returned call has scanned, from a console that was perhaps waited for. -/
theorem select_scanned {fuel : ℕ} {nfds : ℤ} {readfds writefds exceptfds : Option FdSet}
    {timeout : Option (ℤ × ℤ)} {console : Console} {r : Result}
    (returned : select fuel nfds readfds writefds exceptfds timeout console = some r) :
    ∃ waited : Console, waited.input = console.input ∧ console.polls ≤ waited.polls ∧
      Scanned (if nfds > 3 then 3 else nfds).toNat ⟨0, readfds, writefds, waited⟩
        ⟨r.ready, r.readfds, r.writefds, r.console⟩ ∧
      r.exceptfds = exceptfds.map fun _ => fdZero := by
  obtain ⟨waited, asked, rfl⟩ := map_eq_some_iff.1 returned
  have answers : waited.input = console.input ∧ console.polls ≤ waited.polls := by
    by_cases wants : (decide (0 < if nfds > 3 then 3 else nfds) && isSet 0 readfds) = true
    · rw [if_pos wants] at asked
      obtain ⟨pair, loop, rfl⟩ := map_eq_some_iff.1 asked
      exact waitLoop_input (c := console.now.2) loop
    · rw [if_neg wants] at asked
      cases asked
      exact ⟨rfl, Nat.le_refl _⟩
  exact ⟨waited, answers.1, answers.2, scanned_range _ _ _ _, rfl⟩

/-- **`select` answers correctly exactly when no bit above the standard streams is asked
for.**  The bits from 3 up to `nfds` are neither counted nor cleared. -/
theorem select_correct_iff {fuel : ℕ} {nfds : ℤ} {readfds writefds exceptfds : Option FdSet}
    {timeout : Option (ℤ × ℤ)} {console : Console} {r : Result}
    (returned : select fuel nfds readfds writefds exceptfds timeout console = some r) :
    Correct nfds readfds writefds exceptfds console r ↔
      ∀ fd : ℕ, 3 ≤ fd → (fd : ℤ) < nfds →
        isSet fd readfds = false ∧ isSet fd writefds = false := by
  obtain ⟨waited, input, polls, scanned, except⟩ := select_scanned returned
  have limit : (if nfds > 3 then 3 else nfds).toNat ≤ 3 := by split <;> omega
  have short : (if nfds > 3 then 3 else nfds).toNat ≤ nfds.toNat := by split <;> omega
  have unvisited : ∀ fd : ℕ, (fd : ℤ) < nfds →
      (if nfds > 3 then 3 else nfds).toNat ≤ fd → 3 ≤ fd := by
    intro fd below high
    split at high <;> omega
  generalize (if nfds > 3 then 3 else nfds).toNat = k at scanned limit short unvisited
  have read : Filtered k _ (isSet · readfds) (isSet · r.readfds) := scanned.readBits
  have write : Filtered k _ (isSet · writefds) (isSet · r.writefds) := scanned.writeBits
  constructor
  · -- A bit the loop has not seen is left, and no stream answers for it.
    intro correct fd high below
    refine ⟨?_, ?_⟩ <;> by_contra bit
    · rw [Bool.not_eq_false] at bit
      have left : isSet fd r.readfds = true := (read.above (Nat.le_trans limit high)).trans bit
      rcases (correct.read fd below left).2 with ⟨zero, _⟩ | one | two <;> omega
    · rw [Bool.not_eq_false] at bit
      have left : isSet fd r.writefds = true := (write.above (Nat.le_trans limit high)).trans bit
      rcases (correct.write fd below left).2 with one | two <;> omega
  · intro none
    -- Below `nfds` a bit is left only where the loop has been.
    have readClear : ∀ fd, k ≤ fd → (fd : ℤ) < nfds → isSet fd r.readfds = false :=
      fun fd high below => (read.above high).trans (none fd (unvisited fd below high) below).1
    have writeClear : ∀ fd, k ≤ fd → (fd : ℤ) < nfds → isSet fd r.writefds = false :=
      fun fd high below => (write.above high).trans (none fd (unvisited fd below high) below).2
    refine ⟨?_, ?_, ?_, ?_⟩
    · have noExcept : bitsBelow nfds r.exceptfds = 0 := by
        rw [bitsBelow, List.countP_eq_zero]
        intro d _
        rw [except, isSet_except]
        decide
      rw [noExcept, Nat.add_zero, bitsBelow, bitsBelow,
        countP_range_eq short fun d high low => readClear d high (by omega),
        countP_range_eq short fun d high low => writeClear d high (by omega)]
      exact scanned.counted
    · intro fd below bit
      obtain ⟨entry, high | ready⟩ := read.of_left bit
      · exact absurd bit (Bool.eq_false_iff.mp (readClear fd high below))
      · refine ⟨entry, ?_⟩
        by_cases zero : fd = 0
        · subst zero
          by_cases asked : 0 < k
          · have once := scanned.polls
            rw [if_pos ⟨asked, entry⟩] at once
            dsimp only at once
            refine .inl ⟨rfl, by omega, ?_⟩
            rw [once, Nat.add_sub_cancel, ← input]
            simpa [readable] using ready
          · exact absurd bit (Bool.eq_false_iff.mp (readClear 0 (by omega) below))
        · exact .inr (by simpa [readable, zero] using ready)
    · intro fd below bit
      obtain ⟨entry, high | ready⟩ := write.of_left bit
      · exact absurd bit (Bool.eq_false_iff.mp (writeClear fd high below))
      · exact ⟨entry, by simpa [WriteReady, writable] using ready⟩
    · intro fd _ bit
      rw [except, isSet_except] at bit
      cases bit

/-- A console that has input all the time. -/
def busy : Console := ⟨fun _ => true, fun _ => 0, 0, 0⟩

/-- A set with bits in its first word only. -/
def firstWord (bits : BitVec 64) : FdSet where
  fdsBits word := if word = 0 then bits else 0#64
  size word outside := if_neg (by omega)

/-- All three streams asked for reading and writing, below `nfds = 3`. -/
theorem threeStreams_correct :
    ∃ r, select 1 3 (some (firstWord 7)) (some (firstWord 7)) none none busy = some r ∧
      Correct 3 (some (firstWord 7)) (some (firstWord 7)) none busy r :=
  ⟨_, rfl, (@select_correct_iff 1 3 _ _ _ none _ _ rfl).2 fun fd high below =>
    absurd below (by omega)⟩

/-- Descriptor 3 asked for reading with `nfds = 4`: nothing is counted, its bit stays. -/
theorem descriptorThree_incorrect :
    ∃ r, select 1 4 (some (firstWord 8)) none none none busy = some r ∧
      r.ready = 0 ∧ isSet 3 r.readfds = true ∧
      ¬ Correct 4 (some (firstWord 8)) none none busy r :=
  ⟨_, rfl, by decide, by decide, fun correct => by
    rcases (correct.read 3 (by decide) (by decide)).2 with ⟨zero, _⟩ | one | two <;> omega⟩

end MiniOsv.Libc.Select
