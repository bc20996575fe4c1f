/-
# Sync.RwWord -- the packed word of the read-write lock

`rwlock::_readers` is one 32-bit word: bit 31 says that a writer owns the lock, bit 30
that one is pending, bits 16 to 29 count the owning readers and bits 0 to 15 the
pending ones.  The lock tests it with masks and changes it with additions, so whether
an update touches only the part it means depends on the counts staying inside their
fields.  `pack` builds a word from the four parts; the lemmas compute each mask and
each addition of the lock on a packed word.
-/
import Mathlib.Tactic.Ring

namespace MiniOsv.Sync

open BitVec

/-- `unsigned`. -/
abbrev Word := BitVec 32

def writerLock : Word := 0x80000000
def pendingWriter : Word := 0x40000000
def readersMask : Word := 0x3fff0000
def indReadMask : Word := 0xffff0000
def pendingReadersMask : Word := 0x0000ffff
def readerLockInc : Word := 0x00010000

def pack (writer pending : Bool) (owning waiting : ℕ) : Word :=
  BitVec.ofNat 32 (2 ^ 16 * (2 ^ 14 * (2 * writer.toNat + pending.toNat) + owning) + waiting)

section Pack

variable {writer pending : Bool} {owning waiting : ℕ}

theorem pack_toNat (owningFits : owning < 2 ^ 14) (waitingFits : waiting < 2 ^ 16) :
    (pack writer pending owning waiting).toNat =
      2 ^ 16 * (2 ^ 14 * (2 * writer.toNat + pending.toNat) + owning) + waiting := by
  have := Bool.toNat_le writer
  have := Bool.toNat_le pending
  rw [pack, toNat_ofNat, Nat.mod_eq_of_lt]
  omega

/-- The bits of a packed word, field by field. -/
theorem pack_getLsbD (owningFits : owning < 2 ^ 14) (waitingFits : waiting < 2 ^ 16) {i : ℕ}
    (small : i < 32) :
    (pack writer pending owning waiting).getLsbD i =
      if i < 16 then waiting.testBit i
      else if i < 30 then owning.testBit (i - 16)
      else if i = 30 then pending else writer := by
  rw [pack, getLsbD_ofNat, Nat.testBit_two_pow_mul_add _ waitingFits]
  simp only [small, decide_true, Bool.true_and]
  split
  · rfl
  · rw [Nat.testBit_two_pow_mul_add _ owningFits]
    rename_i low
    by_cases middle : i < 30
    · rw [if_pos (by omega), if_pos middle]
    · rw [if_neg (by omega), if_neg middle]
      have high : i = 30 ∨ i = 31 := by omega
      rcases high with rfl | rfl <;> cases writer <;> cases pending <;> decide

/-! ## Masks -/

theorem mask_bits : (∀ i < 32, readersMask.getLsbD i = (decide (16 ≤ i) && decide (i < 30))) ∧
    (∀ i < 32, indReadMask.getLsbD i = decide (16 ≤ i)) ∧
    (∀ i < 32, pendingReadersMask.getLsbD i = decide (i < 16)) ∧
    (∀ i < 32, writerLock.getLsbD i = decide (i = 31)) ∧
    ∀ i < 32, pendingWriter.getLsbD i = decide (i = 30) := by
  decide

/-- Two packed words that agree on every field after a bitwise operation. -/
theorem eq_of_bits {x y : Word} (bits : ∀ i < 32, x.getLsbD i = y.getLsbD i) : x = y :=
  eq_of_getLsbD_eq bits

variable (owningFits : owning < 2 ^ 14) (waitingFits : waiting < 2 ^ 16)
include owningFits waitingFits

theorem and_readersMask :
    pack writer pending owning waiting &&& readersMask = pack false false owning 0 := by
  refine eq_of_bits fun i small => ?_
  rw [getLsbD_and, pack_getLsbD owningFits waitingFits small, mask_bits.1 i small,
    pack_getLsbD owningFits (by decide) small]
  by_cases low : i < 16
  · simp [low]
  · by_cases middle : i < 30 <;> simp [low, middle, Nat.le_of_not_lt low]

theorem and_indReadMask :
    pack writer pending owning waiting &&& indReadMask = pack writer pending owning 0 := by
  refine eq_of_bits fun i small => ?_
  rw [getLsbD_and, pack_getLsbD owningFits waitingFits small, mask_bits.2.1 i small,
    pack_getLsbD owningFits (by decide) small]
  by_cases low : i < 16
  · simp [low]
  · simp [low, Nat.le_of_not_lt low]

theorem and_pendingReadersMask :
    pack writer pending owning waiting &&& pendingReadersMask = pack false false 0 waiting := by
  refine eq_of_bits fun i small => ?_
  rw [getLsbD_and, pack_getLsbD owningFits waitingFits small, mask_bits.2.2.1 i small,
    pack_getLsbD (by decide) waitingFits small]
  by_cases low : i < 16 <;> simp [low]

theorem and_writerLock :
    pack writer pending owning waiting &&& writerLock = pack writer false 0 0 := by
  refine eq_of_bits fun i small => ?_
  rw [getLsbD_and, pack_getLsbD owningFits waitingFits small, mask_bits.2.2.2.1 i small,
    pack_getLsbD (by decide) (by decide) small]
  by_cases top : i = 31
  · simp [top]
  · simp only [top, decide_false, Bool.and_false, Nat.zero_testBit]
    split <;> [rfl; split] <;> [rfl; split] <;> [rfl; omega]

theorem and_pendingWriter :
    pack writer pending owning waiting &&& pendingWriter = pack false pending 0 0 := by
  refine eq_of_bits fun i small => ?_
  rw [getLsbD_and, pack_getLsbD owningFits waitingFits small, mask_bits.2.2.2.2 i small,
    pack_getLsbD (by decide) (by decide) small]
  by_cases bit : i = 30 <;> simp [bit]

theorem or_pendingWriter :
    pack writer pending owning waiting ||| pendingWriter = pack writer true owning waiting := by
  refine eq_of_bits fun i small => ?_
  rw [getLsbD_or, pack_getLsbD owningFits waitingFits small, mask_bits.2.2.2.2 i small,
    pack_getLsbD owningFits waitingFits small]
  by_cases bit : i = 30 <;> simp [bit]

theorem and_not_writerLock :
    pack writer pending owning waiting &&& ~~~writerLock = pack false pending owning waiting := by
  refine eq_of_bits fun i small => ?_
  rw [getLsbD_and, getLsbD_not, pack_getLsbD owningFits waitingFits small,
    mask_bits.2.2.2.1 i small, pack_getLsbD owningFits waitingFits small]
  by_cases top : i = 31
  · simp [top]
  · simp only [top, decide_false, small, decide_true, Bool.not_false, Bool.and_self, Bool.and_true]
    split <;> [rfl; split] <;> [rfl; split] <;> [rfl; omega]

omit owningFits in
theorem writerLock_or : writerLock ||| pack false false 0 waiting = pack true false 0 waiting := by
  refine eq_of_bits fun i small => ?_
  rw [getLsbD_or, pack_getLsbD (by decide) waitingFits small, mask_bits.2.2.2.1 i small,
    pack_getLsbD (by decide) waitingFits small]
  by_cases top : i = 31
  · simp [top]
  · simp only [top, decide_false, Bool.false_or]
    split <;> [rfl; split] <;> [rfl; split] <;> [rfl; omega]

/-- The loops of `rlock` test both flags with one comparison. -/
theorem lt_pendingWriter :
    pack writer pending owning waiting < pendingWriter ↔ writer = false ∧ pending = false := by
  rw [lt_def, pack_toNat owningFits waitingFits]
  cases writer <;> cases pending <;> simp [pendingWriter] <;> omega

end Pack

/-! ## Additions -/

section Add

variable (writer pending : Bool) (owning waiting : ℕ)

theorem add_readerLockInc :
    pack writer pending owning waiting + readerLockInc = pack writer pending (owning + 1) waiting := by
  have amount : readerLockInc = BitVec.ofNat 32 (2 ^ 16) := by decide
  rw [amount, pack, pack, ← ofNat_add]
  congr 1
  ring

theorem add_convert : pack writer pending owning (waiting + 1) + (readerLockInc - 1) =
    pack writer pending (owning + 1) waiting := by
  have amount : readerLockInc - 1 = BitVec.ofNat 32 (2 ^ 16 - 1) := by decide
  rw [amount, pack, pack, ← ofNat_add]
  congr 1
  ring

theorem sub_readerLockInc :
    pack writer pending (owning + 1) waiting + -readerLockInc = pack writer pending owning waiting := by
  rw [← add_readerLockInc, BitVec.add_assoc]
  have cancel : readerLockInc + -readerLockInc = 0#32 := by decide
  rw [cancel, BitVec.add_zero]

/-- With the writer's bit clear, adding the pending writer's bit moves it up. -/
theorem add_pendingWriter :
    pack false true owning waiting + pendingWriter = pack true false owning waiting := by
  have amount : pendingWriter = BitVec.ofNat 32 (2 ^ 30) := by decide
  rw [amount, pack, pack, ← ofNat_add]
  congr 1
  simp only [Bool.toNat_false, Bool.toNat_true]
  ring

end Add

/-! ## Fields -/

theorem pack_inj {w p w' p' : Bool} {r q r' q' : ℕ} (rFits : r < 2 ^ 14) (qFits : q < 2 ^ 16)
    (rFits' : r' < 2 ^ 14) (qFits' : q' < 2 ^ 16) :
    pack w p r q = pack w' p' r' q' ↔ w = w' ∧ p = p' ∧ r = r' ∧ q = q' := by
  rw [← toNat_inj, pack_toNat rFits qFits, pack_toNat rFits' qFits']
  cases w <;> cases w' <;> cases p <;> cases p' <;> simp <;> omega

end MiniOsv.Sync
