/-
# Drivers.DebugBuffer -- the ring of debug messages

`fill_debug_buffer` wraps a message around the end of the ring at most once.  That is enough as
long as a message ends before the end of the next round; `Holds.fill` says so for one message
and `debugBuffer_exact_iff` for all sequences.
-/
import Mathlib.Data.List.Induction

namespace MiniOsv.Drivers

open List

/-! ## The model -/

def debugBufferSize : ℕ := 0xc800

structure DebugBuffer where
  buffer : List UInt8
  idx : ℕ
  full : Bool

/-- `memcpy(&dst[i], src, n)`; `none` if it leaves one of the arrays. -/
def memcpy (dst : List UInt8) (i : ℕ) (src : List UInt8) (n : ℕ) : Option (List UInt8) :=
  if i + n ≤ dst.length ∧ n ≤ src.length then some (dst.take i ++ src.take n ++ dst.drop (i + n))
  else none

namespace DebugBuffer

def boot : DebugBuffer := ⟨replicate debugBufferSize 0, 0, false⟩

/-- `fill_debug_buffer(msg, len)`. -/
def fill (s : DebugBuffer) (msg : List UInt8) : Option DebugBuffer :=
  if s.idx + msg.length < debugBufferSize then do
    let buffer ← memcpy s.buffer s.idx msg msg.length
    some { s with buffer, idx := s.idx + msg.length }
  else do
    let space := debugBufferSize - s.idx
    let buffer ← memcpy s.buffer s.idx msg space
    let buffer ← memcpy buffer 0 (msg.drop space) (msg.length - space)
    some ⟨buffer, msg.length - space, true⟩

/-- What `flush_debug_buffer()` prints. -/
def flush (s : DebugBuffer) : List UInt8 :=
  (if s.full then s.buffer.drop s.idx else []) ++ s.buffer.take s.idx

/-! ## One message -/

/-- The ring after the messages `bytes`: all but `lost` is printed. -/
structure Holds (s : DebugBuffer) (bytes : List UInt8) : Prop where
  size : s.buffer.length = debugBufferSize
  idx : s.idx = bytes.length % debugBufferSize
  kept : ∃ lost, bytes = lost ++ s.flush ∧ (s.full = false → lost = [])

variable {s : DebugBuffer} {bytes : List UInt8}

theorem Holds.idx_lt (holds : s.Holds bytes) : s.idx < debugBufferSize :=
  holds.idx ▸ Nat.mod_lt _ (by decide)

theorem Holds.flush_eq (holds : s.Holds bytes) :
    s.flush = bytes.drop (bytes.length - debugBufferSize) := by
  obtain ⟨lost, rfl, all⟩ := holds.kept
  have size := holds.size
  cases full : s.full with
  | false =>
    rw [all full, nil_append, Nat.sub_eq_zero_of_le, drop_zero]
    simp [flush, full]
    omega
  | true =>
    have whole : s.flush.length = debugBufferSize := by
      simp [flush, full]
      omega
    rw [length_append, whole, Nat.add_sub_cancel, drop_left]

theorem memcpy_spec {dst src : List UInt8} {i n : ℕ} (inside : i + n ≤ dst.length)
    (there : n ≤ src.length) : ∃ d, memcpy dst i src n = some d ∧ d.length = dst.length ∧
      d.take (i + n) = dst.take i ++ src.take n ∧ d.drop (i + n) = dst.drop (i + n) := by
  have front : (dst.take i ++ src.take n).length = i + n := by simp; omega
  refine ⟨_, if_pos ⟨inside, there⟩, ?_, take_left' front, drop_left' front⟩
  rw [length_append, front, length_drop, Nat.add_sub_cancel' inside]

/-- A message that does not go around twice is taken in. -/
theorem Holds.fill (holds : s.Holds bytes) {msg : List UInt8}
    (fits : bytes.length % debugBufferSize + msg.length < 2 * debugBufferSize) :
    ∃ s', s.fill msg = some s' ∧ s'.Holds (bytes ++ msg) := by
  have inside := holds.idx_lt
  obtain ⟨size, idx, lost, eq, all⟩ := holds
  rw [flush] at eq
  rw [← idx] at fits
  by_cases short : s.idx + msg.length < debugBufferSize
  · obtain ⟨d, copied, length, front, back⟩ :=
      memcpy_spec (i := s.idx) (show _ ≤ s.buffer.length by omega) (Nat.le_refl msg.length)
    rw [DebugBuffer.fill, if_pos short, copied]
    refine ⟨_, rfl, length.trans size, ?_,
      lost ++ if s.full then (s.buffer.drop s.idx).take msg.length else [], ?_, fun full => ?_⟩
    · rw [length_append]
      simp only [debugBufferSize] at *
      omega
    · rw [flush, front, back, eq, ← drop_drop, take_length]
      simp only [append_assoc]
      split
      · rw [← append_assoc (take _ (drop _ _)), take_append_drop]
      · rfl
    · simp [all full, show s.full = false from full]
  · obtain ⟨space, isSpace⟩ : ∃ space, debugBufferSize - s.idx = space := ⟨_, rfl⟩
    obtain ⟨d, copied, length, front, -⟩ := memcpy_spec
      (show s.idx + space ≤ s.buffer.length by omega) (show space ≤ msg.length by omega)
    obtain ⟨d', copied', length', front', back'⟩ := memcpy_spec
      (show 0 + (msg.length - space) ≤ d.length by omega)
      (show _ ≤ (msg.drop space).length by simp)
    simp only [DebugBuffer.fill, if_neg short, isSpace, copied, Option.bind_eq_bind, Option.bind_some,
      copied']
    refine ⟨_, rfl, (length'.trans length).trans size, ?_, lost ++ (if s.full then
      s.buffer.drop s.idx else []) ++ d.take (msg.length - space), ?_, fun full => (by cases full)⟩
    · rw [length_append]
      simp only [debugBufferSize] at *
      omega
    · rw [Nat.zero_add] at front' back'
      have tail : (msg.drop space).take (msg.length - space) = msg.drop space := by
        rw [← length_drop, take_length]
      rw [take_of_length_le (by omega)] at front
      change _ = _ ++ (d'.drop _ ++ d'.take _)
      rw [front', back', tail, eq, take_zero, nil_append]
      simp only [append_assoc]
      rw [← append_assoc (take _ d), take_append_drop, front, append_assoc, take_append_drop]

theorem Holds.fits (holds : s.Holds bytes) {msg : List UInt8} {s' : DebugBuffer}
    (filled : s.fill msg = some s') (inside : s'.idx < debugBufferSize) :
    bytes.length % debugBufferSize + msg.length < 2 * debugBufferSize := by
  have := holds.idx_lt
  rw [← holds.idx]
  rw [DebugBuffer.fill] at filled
  split at filled
  · omega
  · simp only [Option.bind_eq_bind, Option.bind_eq_some_iff, Option.some.injEq] at filled
    obtain ⟨_, -, _, -, rfl⟩ := filled
    simp only at inside
    omega

/-! ## All messages -/

/-- Step by step, where every message fits. -/
theorem holds_of_fits {msgs : List (List UInt8)} (fits : ∀ done msg left s,
      msgs = done ++ msg :: left → done.foldlM fill boot = some s → s.Holds done.flatten →
        done.flatten.length % debugBufferSize + msg.length < 2 * debugBufferSize)
    (done left : List (List UInt8)) (eq : msgs = done ++ left) :
    ∃ s, done.foldlM fill boot = some s ∧ s.Holds done.flatten := by
  induction done using List.reverseRecOn generalizing left with
  | nil => exact ⟨boot, rfl, length_replicate, rfl, [], rfl, fun _ => rfl⟩
  | append_singleton done msg ih =>
    rw [append_assoc, singleton_append] at eq
    obtain ⟨s, run, holds⟩ := ih _ eq
    obtain ⟨s', filled, holds'⟩ := holds.fill (fits done msg left s eq run holds)
    refine ⟨s', ?_, by simpa using holds'⟩
    rw [foldlM_append, run]
    simpa using filled

/-- **The ring is exact** as long as no message goes around twice, and only then: after each of
the messages, nothing has been written elsewhere, the index is in the ring, and the last
`DEBUG_BUFFER_SIZE` bytes are printed. -/
theorem debugBuffer_exact_iff (msgs : List (List UInt8)) :
    (∀ done left, msgs = done ++ left → ∃ s, done.foldlM fill boot = some s ∧
      s.idx < debugBufferSize ∧
        s.flush = done.flatten.drop (done.flatten.length - debugBufferSize)) ↔
      ∀ done msg left, msgs = done ++ msg :: left →
        done.flatten.length % debugBufferSize + msg.length < 2 * debugBufferSize := by
  refine ⟨fun fine => ?_, fun fits done left eq => ?_⟩
  · have fits : ∀ done msg left s, msgs = done ++ msg :: left →
        done.foldlM fill boot = some s → s.Holds done.flatten →
          done.flatten.length % debugBufferSize + msg.length < 2 * debugBufferSize := by
      intro done msg left s eq run holds
      obtain ⟨s', run', inside, -⟩ := fine (done ++ [msg]) left (by simp [eq])
      rw [foldlM_append, run] at run'
      exact holds.fits (by simpa using run') inside
    intro done msg left eq
    obtain ⟨s, run, holds⟩ := holds_of_fits fits done _ eq
    exact fits done msg left s eq run holds
  · obtain ⟨s, run, holds⟩ := holds_of_fits (fun done msg left _ eq _ _ => fits done msg left eq)
      done left eq
    exact ⟨s, run, holds.idx_lt, holds.flush_eq⟩

/-- A message that goes around twice is written beyond the ring. -/
theorem fill_outside {msg : List UInt8} (size : s.buffer.length = debugBufferSize)
    (inside : s.idx < debugBufferSize) (long : 2 * debugBufferSize < s.idx + msg.length) :
    s.fill msg = none := by
  rw [fill, if_neg (by omega)]
  obtain ⟨d, copied, length, -⟩ := memcpy_spec
    (show s.idx + (debugBufferSize - s.idx) ≤ s.buffer.length by omega)
    (show _ ≤ msg.length by omega)
  simp only [copied, Option.bind_eq_bind, Option.bind_some]
  rw [memcpy, if_neg (by omega)]
  rfl

theorem longMessage_outside : boot.fill (replicate (2 * debugBufferSize + 1) 65) = none := by
  refine fill_outside length_replicate (by decide) ?_
  rw [length_replicate, boot]
  decide

end DebugBuffer

end MiniOsv.Drivers
