/-
# Arch.ClockEvents -- programming the one-shot timers

`clock_event->set` gets a duration and writes it to a register of 32 bits: the initial count of
the APIC timer, or `CNTV_TVAL`, which the generic timer takes as a signed number.  Truncation makes
an event early, and the timer list then programs another one.  But on the APIC a count of 0 stops
the timer, so a multiple of 2^32 nanoseconds never ends; and a negative `CNTV_TVAL` puts the
deadline behind the counter, or, soon after boot, below zero and so to the far end of 64 bits
(`set_timely_iff`).

The APIC driver writes nanoseconds as ticks.  The rate of its timer is a parameter.
-/
import Mathlib.Algebra.Order.Ring.Int

namespace MiniOsv.Arch.ClockEvents

open BitVec

def nanoPerSec : ℕ := 1000000000

/-- What a call does: it runs the callback, or it writes the registers of a timer. -/
inductive Access where
  | fired
  | tmict (value : BitVec 32)
  | tval (value ctl : BitVec 32)

/-- `apic_clock_events::set`. -/
def apicSet (nanos : BitVec 64) : Access :=
  if nanos.toInt ≤ 0 then .fired else .tmict (nanos.setWidth 32)

/-- `arm_clock_events::set`, with the `ctl` that it reads. -/
def armSet (freqHz ctl : BitVec 32) (nanos : BitVec 64) : Access :=
  if nanos.toInt ≤ 0 then .fired
  else
    let tval := BitVec.ofNat 64 (nanos.toNat * freqHz.toNat / nanoPerSec)
    if tval ≠ 0 then .tval (tval.setWidth 32) ((ctl ||| 1) &&& ~~~2) else .fired

/-- The ticks until the event.  The APIC timer is stopped by a count of 0.  `CNTV_TVAL` sets the
deadline `CNTV_CVAL` relative to the counter; the generic timer compares the two as unsigned
numbers, if it is enabled and not masked. -/
def Access.delay (counter : BitVec 64) : Access → Option ℕ
  | .fired => some 0
  | .tmict value => if value = 0 then none else some value.toNat
  | .tval value ctl =>
    let cval := counter + value.signExtend 64
    if ctl.getLsbD 0 = true ∧ ctl.getLsbD 1 = false then some (cval.toNat - counter.toNat) else none

/-- The drivers with the rates of their timers; that of the generic timer with the control register
and the counter at the time of the call. -/
inductive Driver where
  | apic (hz : ℕ)
  | arm (freqHz ctl : BitVec 32) (counter : BitVec 64)

def Driver.delay : Driver → BitVec 64 → Option ℕ
  | .apic _, nanos => (apicSet nanos).delay 0
  | .arm freqHz ctl counter, nanos => (armSet freqHz ctl nanos).delay counter

def Driver.hz : Driver → ℕ
  | .apic hz => hz
  | .arm freqHz _ _ => freqHz.toNat

/-- The event occurs, no later than a tick after the duration. -/
def Driver.Timely (driver : Driver) (nanos : BitVec 64) : Prop :=
  ∃ ticks ∈ driver.delay nanos, ticks * nanoPerSec ≤ nanos.toNat * driver.hz + nanoPerSec

/-- The duration in ticks of the driver's timer, in full. -/
def Driver.ticks (driver : Driver) (nanos : BitVec 64) : ℕ := nanos.toNat * driver.hz / nanoPerSec

/-- The condition: on the APIC the count is not 0.  On the generic timer the count is not negative,
the counter is beyond what it takes off, or the duration reaches to the far end as well. -/
def Driver.Serves : Driver → BitVec 64 → Prop
  | .apic _, nanos => nanos.toNat % 2 ^ 32 ≠ 0
  | .arm freqHz ctl counter, nanos =>
    let ticks := (Driver.arm freqHz ctl counter).ticks nanos
    2 ^ 31 ≤ ticks % 2 ^ 32 →
      2 ^ 32 ≤ counter.toNat + ticks % 2 ^ 32 ∨ 2 ^ 64 ≤ ticks + 1 + (2 ^ 32 - ticks % 2 ^ 32)

theorem apic_timely_iff {hz : ℕ} (rate : nanoPerSec ≤ hz) (nanos : BitVec 64)
    (pos : 0 < nanos.toInt) : (Driver.apic hz).Timely nanos ↔ nanos.toNat % 2 ^ 32 ≠ 0 := by
  have zero : nanos.setWidth 32 = 0 ↔ nanos.toNat % 2 ^ 32 = 0 := by
    rw [← toNat_inj, toNat_setWidth]
    rfl
  simp only [Driver.Timely, Driver.delay, apicSet, if_neg (not_le.2 pos), Access.delay, zero]
  split_ifs with stopped
  · simpa using stopped
  · have early := Nat.mod_le nanos.toNat (2 ^ 32)
    simp only [Option.mem_some_iff, exists_eq_left', toNat_setWidth, Driver.hz, ne_eq,
      stopped, not_false_eq_true, iff_true]
    exact (Nat.mul_le_mul early rate).trans (Nat.le_add_right _ _)

theorem cval_ahead (counter : BitVec 64) (value : BitVec 32) :
    (counter + value.signExtend 64).toNat - counter.toNat =
      if value.toNat < 2 ^ 31 then
        if counter.toNat + value.toNat < 2 ^ 64 then value.toNat else 0
      else if 2 ^ 32 ≤ counter.toNat + value.toNat then 0 else 2 ^ 64 - (2 ^ 32 - value.toNat) := by
  have below := counter.isLt
  have word := value.isLt
  have sign : value.msb = decide (2 ^ 31 ≤ value.toNat) := msb_eq_decide value
  rw [toNat_add, toNat_signExtend, toNat_setWidth, sign]
  simp only [decide_eq_true_eq]
  split_ifs <;> omega

/-- A delay in ticks is in time if it is at most one more than the duration in ticks. -/
theorem inTime_iff {delay duration : ℕ} :
    delay * nanoPerSec ≤ duration + nanoPerSec ↔ delay ≤ duration / nanoPerSec + 1 := by
  rw [← Nat.add_div_right duration (by decide), Nat.le_div_iff_mul_le (by decide)]

theorem arm_timely_iff (freqHz ctl : BitVec 32) (counter nanos : BitVec 64)
    (pos : 0 < nanos.toInt) :
    (Driver.arm freqHz ctl counter).Timely nanos ↔
      (Driver.arm freqHz ctl counter).Serves nanos := by
  simp only [Driver.Timely, Driver.Serves, Driver.ticks, Driver.delay, Driver.hz, armSet,
    if_neg (not_le.2 pos), inTime_iff]
  generalize nanos.toNat * freqHz.toNat / nanoPerSec = ticks
  split_ifs with some
  · have armed : ((ctl ||| 1) &&& ~~~2).getLsbD 0 = true ∧
        ((ctl ||| 1) &&& ~~~2).getLsbD 1 = false := by simp
    have low : (BitVec.setWidth 32 (BitVec.ofNat 64 ticks)).toNat = ticks % 2 ^ 32 := by
      rw [toNat_setWidth, toNat_ofNat]
      omega
    simp only [Access.delay, if_pos armed, Option.mem_some_iff, exists_eq_left', cval_ahead, low]
    split_ifs <;> omega
  · have none : ticks % 2 ^ 64 = 0 := by
      simpa [← toNat_inj] using some
    simp only [Access.delay, Option.mem_some_iff, exists_eq_left']
    omega

/-- **Every duration ends in time**, but for the multiples of 2^32 nanoseconds on the APIC and for
negative counts beyond the counter on the generic timer. -/
theorem set_timely_iff (driver : Driver) (rate : ∀ hz, driver = .apic hz → nanoPerSec ≤ hz)
    (nanos : BitVec 64) (pos : 0 < nanos.toInt) : driver.Timely nanos ↔ driver.Serves nanos := by
  cases driver with
  | apic hz => exact apic_timely_iff (rate hz rfl) nanos pos
  | arm freqHz ctl counter => exact arm_timely_iff freqHz ctl counter nanos pos

/-- One minute at 62.5 MHz, ten seconds after boot. -/
theorem one_minute_timely : (Driver.arm 62500000 0 625000000).Timely 60000000000 :=
  (set_timely_iff _ (fun _ no => by cases no) 60000000000 (by decide)).2 fun _ => .inl (by decide)

/-- 2^32 nanoseconds write 0, which stops the APIC timer; one minute, two seconds after boot, is a
deadline below zero. -/
theorem stopped_or_wrapped : (Driver.apic nanoPerSec).delay 0x100000000 = none ∧
    (Driver.arm 62500000 0 125000000).delay 60000000000 = some (2 ^ 64 - 544967296) := by
  decide

end MiniOsv.Arch.ClockEvents
