/-
# Arch.GicLpi -- the LPI tables of the GICv3 driver

`init_lpis` takes the number of LPIs from one of two fields of `GICD_TYPER`, keeps it in 16 bits
and derives from it the sizes of the tables and the width announced in `GICR_PROPBASER`.  The
width is rounded up to a power of two and the configuration table is not, so it is long enough
for four contents of the fields only (`initLpis_sufficient_iff`).

`mask_irq` sets every bit of a configuration byte but the enable bit, where it should clear the
enable bit.  `mask_unmask_iff` says for every sequence of calls where this does no harm.
-/
import Mathlib.Algebra.Order.Ring.Int

namespace MiniOsv.Arch.GicLpi

open Function (update update_self update_of_ne)

/-- `GIC_LPI_INTS_START`. -/
def lpiIntsStart : ℕ := 8192

/-! ## The sizes of the tables -/

/-- The bits 15:11 of `GICD_TYPER`. -/
def numLpis (typer : BitVec 32) : ℕ := (typer >>> 11 &&& 0x1f).toNat

/-- The bits 23:19. -/
def typerIdBits (typer : BitVec 32) : ℕ := (typer >>> 19 &&& 0x1f).toNat

/-- `ilog2_roundup`: the width less the leading zeros of `n - 1`. -/
def ilog2Roundup (n : ℕ) : ℕ := if n ≤ 1 then 0 else Nat.log2 (n - 1) + 1

/-- The number of LPIs as an `unsigned long`, before it is stored. -/
def lpiCount (numLpis idBits : ℕ) : BitVec 64 :=
  if numLpis ≠ 0 then 1 <<< (numLpis + 1) else 1 <<< (idBits + 1) - BitVec.ofNat 64 lpiIntsStart

/-- `_msi_vector_num`, a `u16`. -/
def msiVectorNum (numLpis idBits : ℕ) : ℕ := max ((lpiCount numLpis idBits).toNat % 2 ^ 16) 4096

/-- The bytes allocated for the tables and the width that the hardware is told. -/
structure Tables where
  config : ℕ
  idBits : ℕ
  pending : ℕ

def tablesFor (msiVectorNum : ℕ) : Tables where
  config := msiVectorNum
  idBits := ilog2Roundup (msiVectorNum + lpiIntsStart) - 1
  pending := (msiVectorNum + lpiIntsStart) / 8

def initLpis (typer : BitVec 32) : Tables :=
  tablesFor (msiVectorNum (numLpis typer) (typerIdBits typer))

/-- A byte for every LPI and a bit for every identifier below the announced bound. -/
def Tables.Cover (tables : Tables) : Prop :=
  2 ^ (tables.idBits + 1) ≤ lpiIntsStart + tables.config ∧
    2 ^ (tables.idBits + 1) ≤ 8 * tables.pending

instance (tables : Tables) : Decidable tables.Cover := inferInstanceAs (Decidable (_ ∧ _))

/-- The count that the fields mean is the one that is stored. -/
def Stored (numLpis idBits : ℕ) : Prop :=
  (((lpiCount numLpis idBits).toNat % 2 ^ 16 : ℕ) : ℤ) =
    if numLpis ≠ 0 then 2 ^ (numLpis + 1) else 2 ^ (idBits + 1) - (lpiIntsStart : ℤ)

instance (numLpis idBits : ℕ) : Decidable (Stored numLpis idBits) :=
  inferInstanceAs (Decidable (_ = _))

theorem field_lt (typer : BitVec 32) (low : ℕ) : (typer >>> low &&& 0x1f).toNat < 32 := by
  rw [BitVec.toNat_and]
  exact Nat.and_lt_two_pow (n := 5) _ (by decide)

theorem tablesFor_cover_iff : ∀ lpis < 32, ∀ idBits < 32,
    ((tablesFor (msiVectorNum lpis idBits)).Cover ∧ Stored lpis idBits ↔
      lpis = 12 ∨ lpis = 0 ∧ 13 ≤ idBits ∧ idBits ≤ 15) := by
  decide +kernel

/-- **The tables are as large as what the hardware is told** exactly for 8192 LPIs by the first
field, or with the first field 0 for 14 to 16 bits of identifiers. -/
theorem initLpis_sufficient_iff (typer : BitVec 32) :
    (initLpis typer).Cover ∧ Stored (numLpis typer) (typerIdBits typer) ↔
      numLpis typer = 12 ∨
        numLpis typer = 0 ∧ 13 ≤ typerIdBits typer ∧ typerIdBits typer ≤ 15 :=
  tablesFor_cover_iff _ (field_lt typer 11) _ (field_lt typer 19)

/-- 16384 LPIs: the width announced covers 24576. -/
theorem lpis_16384_short : numLpis 0x6800 = 13 ∧ (initLpis 0x6800).config = 16384 ∧
    2 ^ ((initLpis 0x6800).idBits + 1) = lpiIntsStart + 24576 := by
  decide +kernel

/-! ## Masking -/

/-- A write to a register of the distributor or of the redistributor of a CPU. -/
inductive Write where
  | dist (reg offset : ℕ) (value : BitVec 32)
  | redist (cpu reg : ℕ) (value : BitVec 32)

structure Gic where
  lpiConfigTable : ℕ → BitVec 8
  writes : List Write

/-- `GIC_LPI_ENABLE`. -/
def lpiEnable : BitVec 8 := 0x01

/-- What `mask_irq` and `unmask_irq` share: bits are set in the byte of an LPI, other interrupts
have registers in the distributor (from `GIC_SPI_BASE`) or in the redistributor. -/
def Gic.write (s : Gic) (cpu irq : ℕ) (bits : BitVec 8) (dist redist : ℕ) : Gic :=
  if lpiIntsStart ≤ irq then
    { s with
      lpiConfigTable := update s.lpiConfigTable (irq - lpiIntsStart)
        (s.lpiConfigTable (irq - lpiIntsStart) ||| bits) }
  else if 32 ≤ irq then
    { s with writes := s.writes ++ [.dist dist (4 * (irq >>> 5)) (1 <<< (irq % 32))] }
  else { s with writes := s.writes ++ [.redist cpu redist (1 <<< (irq % 32))] }

/-- The calls, with the CPU that makes them. -/
inductive Call where
  | mask (cpu irq : ℕ)
  | unmask (cpu irq : ℕ)

/-- `mask_irq` is `|= ~GIC_LPI_ENABLE`, of which the byte keeps `0xfe`. -/
def Gic.call (s : Gic) : Call → Gic
  | .mask cpu irq => s.write cpu irq (~~~lpiEnable) 0x0180 0x10180
  | .unmask cpu irq => s.write cpu irq lpiEnable 0x0100 0x10100

/-- The call on the LPI of byte `i`: `true` for `unmask_irq`. -/
def Call.on (i : ℕ) : Call → Option Bool
  | .mask _ irq => if irq = lpiIntsStart + i then some false else none
  | .unmask _ irq => if irq = lpiIntsStart + i then some true else none

/-- The LPI is enabled as the last call on it says, or as before, and has its priority. -/
def Gic.Follows (s s' : Gic) (i : ℕ) (ops : List Bool) : Prop :=
  (s'.lpiConfigTable i).getLsbD 0 = ops.getLast?.getD ((s.lpiConfigTable i).getLsbD 0) ∧
    s'.lpiConfigTable i >>> 1 = s.lpiConfigTable i >>> 1

variable {s : Gic} {i : ℕ}

theorem write_byte (cpu irq : ℕ) (bits : BitVec 8) (dist redist : ℕ) :
    (s.write cpu irq bits dist redist).lpiConfigTable i =
      if irq = lpiIntsStart + i then s.lpiConfigTable i ||| bits else s.lpiConfigTable i := by
  unfold Gic.write
  by_cases same : irq = lpiIntsStart + i
  · subst same
    simp only [Nat.le_add_right, if_true, Nat.add_sub_cancel_left, update_self]
  · rw [if_neg same]
    split_ifs with lpi
    · have other : i ≠ irq - lpiIntsStart := by omega
      simp only [update_of_ne other]
    · rfl
    · rfl

/-- The bits that calls on an LPI set. -/
def bitsOf (ops : List Bool) : BitVec 8 :=
  (if false ∈ ops then ~~~lpiEnable else 0) ||| if true ∈ ops then lpiEnable else 0

theorem bitsOf_cons (op : Bool) (ops : List Bool) :
    bitsOf (op :: ops) = (if op then lpiEnable else ~~~lpiEnable) ||| bitsOf ops := by
  cases op <;> simp only [bitsOf, List.mem_cons, reduceCtorEq, false_or, true_or, if_true] <;>
    split_ifs <;> first | decide | contradiction

theorem calls_byte (calls : List Call) : (calls.foldl Gic.call s).lpiConfigTable i =
    s.lpiConfigTable i ||| bitsOf (calls.filterMap (Call.on i)) := by
  induction calls generalizing s with
  | nil => simp [bitsOf]
  | cons call calls ih =>
    rw [List.foldl_cons, ih]
    cases call <;> simp only [Gic.call, write_byte, List.filterMap_cons, Call.on] <;> split_ifs <;>
      simp [bitsOf_cons, BitVec.or_assoc]

/-- **Where masking and unmasking follow the calls**: an LPI that was masked must have had all
priority bits set, and its last call unmasks it or nothing ever enabled it. -/
theorem mask_unmask_iff (s : Gic) (calls : List Call) (i : ℕ) :
    s.Follows (calls.foldl Gic.call s) i (calls.filterMap (Call.on i)) ↔
      false ∉ calls.filterMap (Call.on i) ∨ s.lpiConfigTable i >>> 1 = 0x7f ∧
        ((calls.filterMap (Call.on i)).getLast? = some true ∨
          (s.lpiConfigTable i).getLsbD 0 = false ∧ true ∉ calls.filterMap (Call.on i)) := by
  rw [Gic.Follows, calls_byte]
  generalize s.lpiConfigTable i = byte, calls.filterMap (Call.on i) = ops
  cases last : ops.getLast? with
  | none =>
    rw [List.getLast?_eq_none_iff] at last
    subst last
    simp [bitsOf]
  | some op =>
    have mem := List.mem_of_getLast? last
    -- which calls were made is known now, and what is left is about one byte
    by_cases off : false ∈ ops <;> by_cases on : true ∈ ops <;> cases op <;>
      first
      | contradiction
      | simp only [bitsOf, off, on, if_true, if_false]
        revert byte
        decide

/-- An enabled LPI of priority `0xa0` is masked: it stays enabled and loses its priority. -/
theorem mask_keeps_enabled :
    (Gic.call ⟨fun _ => 0xa1, []⟩ (.mask 0 8192)).lpiConfigTable 0 = 0xff := by
  decide

end MiniOsv.Arch.GicLpi
