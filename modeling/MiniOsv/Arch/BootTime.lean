/-
# Arch.BootTime -- the wall clock at boot

`read_boot_time` of the UEFI stub turns the firmware's clock into nanoseconds since the epoch.
Its day count is the calendar's (`EfiTime.days_eq`).  The zone enters with the wrong sign: local
time is UTC minus `TimeZone`, so `TimeZone` has to be added.
-/
import Mathlib.Algebra.BigOperators.Intervals
import Mathlib.Tactic

namespace MiniOsv.Arch

open Finset

/-! ## The model -/

/-- `EFI_TIME`, without the padding and `Daylight`. -/
structure EfiTime where
  (year month day hour minute second nanosecond : ℕ)
  timeZone : ℤ

namespace EfiTime

variable (t : EfiTime)

/-- `days`, since 1970-01-01. -/
def days : ℤ :=
  let m := t.month
  let y : ℤ := t.year - if m ≤ 2 then 1 else 0
  let era := (if 0 ≤ y then y else y - 399).tdiv 400
  let yoe := ((y - era * 400) % 2 ^ 32).toNat
  -- The sums are unsigned: `m - 3`, and `d - 1` on a day 0, wrap.
  let doy := ((153 * ((m + if 2 < m then 2 ^ 32 - 3 else 9) % 2 ^ 32) + 2) / 5 + t.day +
    (2 ^ 32 - 1)) % 2 ^ 32
  let doe : ℕ := (yoe * 365 + yoe / 4 - yoe / 100 + doy) % 2 ^ 32
  era * 146097 + doe - 719468

def secs : ℤ :=
  let secs := t.days * 86400 + t.hour * 3600 + t.minute * 60 + t.second
  if t.timeZone ≠ 0x7ff then secs - t.timeZone * 60 else secs

/-- `read_boot_time()`; `getTime` is what the firmware's `GetTime` gives. -/
def readBootTime (runtimeServices : Bool) (getTime : Option EfiTime) : ℕ :=
  if !runtimeServices then 0
  else match getTime with
    | none => 0
    | some t => ((t.secs % 2 ^ 64).toNat * 1000000000 + t.nanosecond) % 2 ^ 64

/-! ## The calendar -/

/-- The 29th of February. -/
def leapDay (year : ℕ) : ℕ :=
  if year % 4 = 0 ∧ (year % 100 = 0 → year % 400 = 0) then 1 else 0

def monthDays (year month : ℕ) : ℕ :=
  if month = 2 then 28 + leapDay year else if month ∈ [4, 6, 9, 11] then 30 else 31

/-- The days before a date, counted year by year from the year 0 and month by month. -/
def dayNumber (year month day : ℕ) : ℕ :=
  ∑ y ∈ range year, (365 + leapDay y) + ∑ m ∈ Ico 1 month, monthDays year m + (day - 1)

/-- The nanoseconds from 1970-01-01 00:00:00 to what the clock shows. -/
def sinceEpoch : ℤ :=
  ((((dayNumber t.year t.month t.day - dayNumber 1970 1 1) * 24 + t.hour) * 60 + t.minute) * 60 +
    t.second) * 10 ^ 9 + t.nanosecond

structure Valid : Prop where
  year : 1900 ≤ t.year ∧ t.year ≤ 9999
  month : 1 ≤ t.month ∧ t.month ≤ 12
  day : 1 ≤ t.day ∧ t.day ≤ monthDays t.year t.month
  clock : t.hour < 24 ∧ t.minute < 60 ∧ t.second < 60 ∧ t.nanosecond < 10 ^ 9
  timeZone : t.timeZone = 0x7ff ∨ -1440 ≤ t.timeZone ∧ t.timeZone ≤ 1440

/-- The days up to the end of a year, era by era as the stub counts them. -/
theorem sum_years (y : ℕ) : ∑ y ∈ range (y + 1), (365 + leapDay y) =
    y / 400 * 146097 + (y % 400 * 365 + y % 400 / 4 - y % 400 / 100) + 366 := by
  induction y with
  | zero => rfl
  | succ y ih =>
    rw [sum_range_succ, ih, leapDay]
    split <;> omega

variable {t} {u : EfiTime}

theorem sum_months {year month : ℕ} (low : 1 ≤ month) (high : month ≤ 12) :
    ∑ m ∈ Ico 1 month, monthDays year m = if month ≤ 2 then 31 * (month - 1)
      else (153 * (month - 3) + 2) / 5 + 59 + leapDay year := by
  interval_cases month <;> simp [sum_Ico_succ_top, monthDays] <;> omega

theorem days_eq (valid : t.Valid) :
    t.days = dayNumber t.year t.month t.day - dayNumber 1970 1 1 := by
  obtain ⟨low, high⟩ := valid.month
  obtain ⟨first, last⟩ := valid.day
  have last : t.day ≤ 31 := last.trans (by rw [monthDays, leapDay]; split_ifs <;> omega)
  have late := valid.year.1
  have epoch : dayNumber 1970 1 1 = 719528 := by rw [dayNumber, sum_years 1969]; rfl
  -- The stub's years start in March.
  obtain ⟨y, year⟩ : ∃ y, t.year = y + if t.month ≤ 2 then 1 else 0 :=
    ⟨t.year - if t.month ≤ 2 then 1 else 0, by split <;> omega⟩
  have march : (t.year : ℤ) - (if t.month ≤ 2 then 1 else 0) = y := by
    rw [year]
    split <;> omega
  have yoe : (((y : ℤ) - (y : ℤ) / 400 * 400) % 2 ^ 32).toNat = y % 400 := by omega
  have shift : (t.month + if 2 < t.month then 2 ^ 32 - 3 else 9) % 2 ^ 32 =
      if 2 < t.month then t.month - 3 else t.month + 9 := by
    split <;> omega
  have unsigned : ∀ n, 1 ≤ n → n ≤ 400 → (y % 400 * 365 + y % 400 / 4 - y % 400 / 100 +
      (n + (2 ^ 32 - 1)) % 2 ^ 32) % 2 ^ 32 =
        y % 400 * 365 + y % 400 / 4 - y % 400 / 100 + (n - 1) := by
    omega
  have years := sum_years y
  rw [epoch, dayNumber, sum_months low high]
  simp only [days, march, if_pos (Int.natCast_nonneg y),
    Int.tdiv_eq_ediv_of_nonneg (Int.natCast_nonneg y), yoe, shift]
  by_cases early : t.month ≤ 2
  · rw [if_pos early] at year ⊢
    rw [if_neg (by omega), unsigned _ (by omega) (by omega), year, years]
    omega
  · rw [if_neg early, add_zero] at year
    rw [if_neg early, if_pos (by omega), unsigned _ (by omega) (by omega), year]
    rw [sum_range_succ] at years
    omega

theorem readBootTime_spec (valid : t.Valid) : (readBootTime true (some t) : ℤ) =
    (t.sinceEpoch - if t.timeZone ≠ 0x7ff then t.timeZone * 60 * 10 ^ 9 else 0) % 2 ^ 64 := by
  have word : ((t.secs % 2 ^ 64).toNat : ℤ) = t.secs % 2 ^ 64 :=
    Int.toNat_of_nonneg (Int.emod_nonneg _ (by decide))
  have whole : t.secs * 1000000000 + t.nanosecond =
      t.sinceEpoch - if t.timeZone ≠ 0x7ff then t.timeZone * 60 * 10 ^ 9 else 0 := by
    simp only [secs, days_eq valid, sinceEpoch]
    split_ifs <;> omega
  rw [← whole, Int.add_emod, Int.mul_emod, ← Int.emod_emod_of_dvd t.secs (dvd_refl _), ← word,
    ← Int.mul_emod, ← Int.add_emod]
  simp [readBootTime]

/-- **Without a zone, the stub's count is the calendar's.** -/
theorem readBootTime_calendar (valid : t.Valid) (unspecified : t.timeZone = 0x7ff) :
    (readBootTime true (some t) : ℤ) = t.sinceEpoch % 2 ^ 64 := by
  rw [readBootTime_spec valid, if_neg (not_not.2 unspecified), sub_zero]

theorem readBootTime_newYear :
    (readBootTime true (some ⟨2000, 1, 1, 0, 0, 0, 5, 0x7ff⟩) : ℤ) =
      sinceEpoch ⟨2000, 1, 1, 0, 0, 0, 5, 0x7ff⟩ % 2 ^ 64 :=
  readBootTime_calendar (by constructor <;> decide) rfl

/-- The instant a time with a zone stands for: local time is UTC minus `TimeZone`. -/
def instant (t : EfiTime) : ℤ := t.sinceEpoch + t.timeZone * 60 * 10 ^ 9

/-- **Two clocks of one instant agree only in one zone.** -/
theorem readBootTime_zones (valid : t.Valid) (valid' : u.Valid) (zone : t.timeZone ≠ 0x7ff)
    (zone' : u.timeZone ≠ 0x7ff) (same : t.instant = u.instant) :
    readBootTime true (some t) = readBootTime true (some u) ↔ t.timeZone = u.timeZone := by
  have bound := valid.timeZone.resolve_left zone
  have bound' := valid'.timeZone.resolve_left zone'
  have gap : t.sinceEpoch - t.timeZone * 60 * 10 ^ 9 - (u.sinceEpoch - u.timeZone * 60 * 10 ^ 9) =
      (u.timeZone - t.timeZone) * (120 * 10 ^ 9) := by
    simp only [instant] at same
    linarith
  have small : |(u.timeZone - t.timeZone) * (120 * 10 ^ 9)| < 2 ^ 64 :=
    abs_lt.2 ⟨by linarith, by linarith⟩
  rw [← Int.natCast_inj, readBootTime_spec valid, readBootTime_spec valid', if_pos zone,
    if_pos zone', Int.emod_eq_emod_iff_emod_sub_eq_zero, gap, ← Int.dvd_iff_emod_eq_zero]
  refine ⟨fun divides => ?_, fun equal => by simp [equal]⟩
  linarith [Int.eq_zero_of_abs_lt_dvd divides small]

theorem readBootTime_noon : readBootTime true (some ⟨2000, 1, 1, 12, 0, 0, 0, 0⟩) =
    readBootTime true (some ⟨2000, 1, 1, 11, 0, 0, 0, 60⟩) ↔ (0 : ℤ) = 60 :=
  readBootTime_zones (by constructor <;> decide) (by constructor <;> decide) (by decide)
    (by decide) (by simp only [instant, sinceEpoch]; omega)

/-- Noon without an offset is 11:00 in the zone an hour behind; the stub is two hours off. -/
theorem readBootTime_behind : ∃ t u : EfiTime, t.Valid ∧ u.Valid ∧ t.timeZone ≠ 0x7ff ∧
    u.timeZone ≠ 0x7ff ∧ t.instant = u.instant ∧
      readBootTime true (some t) = readBootTime true (some u) + 7200 * 10 ^ 9 :=
  ⟨⟨2000, 1, 1, 12, 0, 0, 0, 0⟩, ⟨2000, 1, 1, 11, 0, 0, 0, 60⟩, by constructor <;> decide,
    by constructor <;> decide, by decide, by decide, by simp only [instant, sinceEpoch]; omega,
    by decide⟩

end EfiTime

end MiniOsv.Arch
