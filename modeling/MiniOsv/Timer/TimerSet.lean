/-
# Timer.TimerSet -- the timer_set of include/osv/timer-set.hh

Active timers lie in 64 buckets, one for each bit in which a timeout can differ first from
the reference point `_last`, and one for timeouts that have been passed.  A bitset names
the buckets that are not empty.  An entry is a timer with the timeout it has while it is in
the active set; timestamps are 64-bit signed numbers.

The bit operations of include/osv/bitset-iter.hh are modelled first, with the iterator as
the list of indexes it runs through.
-/
import MiniOsv.Theory.HighBit
import MiniOsv.Theory.Transition
import Mathlib.Algebra.Order.Ring.Int
import Mathlib.Data.List.Nodup

namespace MiniOsv.Timer

open Function

/-! ## Bitsets of one word -/

namespace Bitset

/-- `__builtin_clzl`; the result for 0 is undefined. -/
def countLeadingZeros (value : ℕ) : ℕ := 63 - value.log2

/-- `count_leading_zeros(long)`. -/
def countLeadingZerosSigned (value : ℕ) : ℕ := countLeadingZeros value - 1

/-- `__builtin_ctzl`. -/
def countTrailingZeros (value : ℕ) : ℕ := ((List.range 64).find? fun i => value.testBit i).getD 64

/-- `bitset[i] = v`. -/
def set (bits i : ℕ) (v : Bool) : ℕ := if bits.testBit i = v then bits else bits ^^^ 2 ^ i

def getFirstSet (bits : ℕ) : ℕ := countTrailingZeros bits

def getLastSet (bits : ℕ) : ℕ := 63 - countLeadingZeros bits

/-- `set_iterator`: `bits` is the part of the bitset that is left, its bit 0 has index `at0`. -/
def iterate : ℕ → ℕ → ℕ → List ℕ
  | 0, _, _ => []
  | fuel + 1, bits, at0 =>
    if bits = 0 then []
    else (at0 + getFirstSet bits) ::
      iterate fuel (bits >>> (getFirstSet bits + 1)) (at0 + getFirstSet bits + 1)

def forEachSet (bits offset : ℕ) : List ℕ := iterate 64 (bits >>> offset) offset

end Bitset

/-! ## The timer set -/

def maxTimestamp : ℤ := 2 ^ 63 - 1

def nBuckets : ℕ := 64

structure Entry (τ : Type) where
  timer : τ
  timeout : ℤ
  deriving DecidableEq, Repr

structure TimerSet (τ : Type) where
  buckets : ℕ → List (Entry τ)
  expired : List (Entry τ)
  last : ℤ
  next : ℤ
  nonEmptyBuckets : ℕ

namespace TimerSet

variable {τ : Type}

def empty : TimerSet τ := ⟨fun _ => [], [], 0, maxTimestamp, 0⟩

def getIndex (s : TimerSet τ) (timestamp : ℤ) : ℕ :=
  if timestamp ≤ s.last then nBuckets - 1
  else Bitset.countLeadingZerosSigned (timestamp.toNat ^^^ s.last.toNat)

def getLastNonEmptyBucket (s : TimerSet τ) : ℕ := Bitset.getLastSet s.nonEmptyBuckets

def insert (s : TimerSet τ) (e : Entry τ) : TimerSet τ × Bool :=
  let index := s.getIndex e.timeout
  let s := { s with
    buckets := update s.buckets index (s.buckets index ++ [e])
    nonEmptyBuckets := Bitset.set s.nonEmptyBuckets index true }
  if e.timeout < s.next then ({ s with next := e.timeout }, true) else (s, false)

/-- `iterator_to` asks for a timer of this list. -/
def remove [DecidableEq τ] (s : TimerSet τ) (e : Entry τ) : Option (TimerSet τ) :=
  let index := s.getIndex e.timeout
  if e ∈ s.buckets index then
    let list := (s.buckets index).erase e
    let s := { s with buckets := update s.buckets index list }
    some (if list = [] then
      { s with nonEmptyBuckets := Bitset.set s.nonEmptyBuckets index false } else s)
  else none

/-- The body of the first loop of `expire`. -/
def spliceBucket (s : TimerSet τ) (i : ℕ) : TimerSet τ :=
  { s with
    expired := s.expired ++ s.buckets i
    buckets := update s.buckets i []
    nonEmptyBuckets := Bitset.set s.nonEmptyBuckets i false }

/-- The second loop of `expire`. -/
def drainBucket (now : ℤ) (index : ℕ) : ℕ → TimerSet τ → Option (TimerSet τ)
  | 0, _ => none
  | fuel + 1, s =>
    match s.buckets index with
    | [] => some s
    | e :: rest =>
      let s := { s with buckets := update s.buckets index rest }
      if e.timeout ≤ now then
        drainBucket now index fuel { s with expired := s.expired ++ [e] }
      else drainBucket now index fuel (s.insert e).1

/-- The last loop of `expire`. -/
def nextFrom (next : ℤ) (list : List (Entry τ)) : ℤ :=
  list.foldl (fun next e => min next e.timeout) next

/-- `expire`; a time point before `_last` ends in `abort`. -/
def expire (s : TimerSet τ) (now : ℤ) : Option (TimerSet τ) :=
  if now < s.last then none
  else
    let index := s.getIndex now
    let s := (Bitset.forEachSet s.nonEmptyBuckets (index + 1)).foldl spliceBucket s
    let s := { s with last := now, next := maxTimestamp }
    match drainBucket now index ((s.buckets index).length + 1) s with
    | none => none
    | some s =>
      let s := { s with
        nonEmptyBuckets := Bitset.set s.nonEmptyBuckets index (!(s.buckets index).isEmpty) }
      if s.next = maxTimestamp ∧ s.nonEmptyBuckets ≠ 0 then
        some { s with next := nextFrom s.next (s.buckets s.getLastNonEmptyBucket) }
      else some s

def popExpired (s : TimerSet τ) : TimerSet τ × Option (Entry τ) :=
  match s.expired with
  | [] => (s, none)
  | e :: rest => ({ s with expired := rest }, some e)

def getNextTimeout (s : TimerSet τ) : ℤ := max s.last s.next

end TimerSet

end MiniOsv.Timer
