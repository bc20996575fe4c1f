/-
# Sched.CpuTime -- the estimator of a running thread's CPU time

`cputime_estimator_set` keeps 32 bits of the time a thread runs since and 32 bits of the CPU time
it had then in one word, and `cputime_estimator_get` takes the bits above from later readings of
the two.  A reading less than `2 ^ 42` ns later is enough, wherever that window begins.
-/
import Mathlib.Data.BitVec

namespace MiniOsv.Sched.CpuTime

open BitVec

/-! ## The model -/

def cputimeShift : ℕ := 10

/-- `thread::cputime_estimator_set`: the word that is stored in `_cputime_estimator`. -/
def cputimeEstimatorSet (runningSince totalCpuTime : BitVec 64) : BitVec 64 :=
  let rs : BitVec 32 := (runningSince.sshiftRight cputimeShift).setWidth 32
  let tc : BitVec 32 := (totalCpuTime.sshiftRight cputimeShift).setWidth 32
  rs.setWidth 64 ||| tc.setWidth 64 <<< 32

/-- The mask `ho` of the bits that the word does not keep. -/
def ho : BitVec 64 := allOnes 64 &&& ~~~(allOnes 64 >>> (64 - 32 - cputimeShift))

/-- How `rs` gets its high bits from `rs_ref`, and `tc` from `tc_ref`. -/
def recover (saved ref : BitVec 64) : BitVec 64 :=
  let high := ref &&& ho
  let high := if ref &&& ~~~ho < saved then high - 1#64 <<< (32 + cputimeShift) else high
  high ||| saved

/-- `thread::cputime_estimator_get`, when the clock reads `now` and `_total_cpu_time` is
`totalCpuTime`. -/
def cputimeEstimatorGet (e now totalCpuTime : BitVec 64) : BitVec 64 × BitVec 64 :=
  let rs := (e.setWidth 32).setWidth 64 <<< cputimeShift
  let tc := e >>> 32 <<< cputimeShift
  (recover rs now, recover tc totalCpuTime)

/-- A time without its low `cputime_shift` bits. -/
def clearLow (x : BitVec 64) : BitVec 64 := x >>> cputimeShift <<< cputimeShift

/-! ## What is kept -/

section

variable (r c : BitVec 64)

theorem sshiftRight_setWidth :
    (r.sshiftRight cputimeShift).setWidth 32 = (r >>> cputimeShift).setWidth 32 := by
  refine eq_of_getLsbD_eq fun j low => ?_
  have inside : cputimeShift + j < 64 := by
    rw [cputimeShift]
    omega
  simp [getLsbD_sshiftRight, low, inside, show ¬64 ≤ j by omega]

theorem set_low : (cputimeEstimatorSet r c).setWidth 32 = (r >>> cputimeShift).setWidth 32 := by
  rw [← sshiftRight_setWidth]
  refine eq_of_getLsbD_eq fun j low => ?_
  simp [cputimeEstimatorSet, low, show j < 64 by omega]

theorem set_high : cputimeEstimatorSet r c >>> 32 = ((c >>> cputimeShift).setWidth 32).setWidth 64 := by
  rw [← sshiftRight_setWidth]
  refine eq_of_getLsbD_eq fun j low => ?_
  by_cases half : j < 32
  · simp [cputimeEstimatorSet, half, low, show 32 + j < 64 by omega]
  · simp [cputimeEstimatorSet, half, show ¬32 + j < 64 by omega]

theorem toNat_kept :
    (((r >>> cputimeShift).setWidth 32).setWidth 64 <<< cputimeShift).toNat =
      (clearLow r).toNat % 2 ^ 42 := by
  have := r.isLt
  simp only [clearLow, cputimeShift, toNat_shiftLeft, toNat_setWidth, toNat_ushiftRight,
    Nat.shiftRight_eq_div_pow, Nat.shiftLeft_eq]
  omega

end

/-! ## What is recovered -/

/-- **The high bits**: a reading in the window of `2 ^ 42` from `r` on gives them back. -/
theorem recover_eq {saved ref r : BitVec 64} (low : saved.toNat = r.toNat % 2 ^ 42)
    (since : r.toNat ≤ ref.toNat) (soon : ref.toNat < r.toNat + 2 ^ 42) : recover saved ref = r := by
  have split : (ref &&& ~~~ho).toNat = ref.toNat % 2 ^ 42 := by
    rw [toNat_and, show (~~~ho).toNat = 2 ^ 42 - 1 from rfl, Nat.and_two_pow_sub_one_eq_mod]
  have high : ref &&& ho = ref >>> 42 <<< 42 := by
    have mask : ∀ j < 64, ho.getLsbD j = decide (42 ≤ j) := by decide
    refine eq_of_getLsbD_eq fun j word => ?_
    by_cases below : j < 42
    · simp [mask j word, below, show ¬42 ≤ j by omega]
    · simp [mask j word, below, word, show 42 ≤ j by omega]
  have above : (ref &&& ho).toNat = ref.toNat / 2 ^ 42 * 2 ^ 42 := by
    have := ref.isLt
    rw [high, toNat_shiftLeft, toNat_ushiftRight, Nat.shiftRight_eq_div_pow, Nat.shiftLeft_eq]
    omega
  have one : (1#64 <<< (32 + cputimeShift)).toNat = 2 ^ 42 := rfl
  -- The high part is that of `r`, whether or not a multiple of `2 ^ 42` lies in between.
  have part : (if ref &&& ~~~ho < saved then (ref &&& ho) - 1#64 <<< (32 + cputimeShift)
      else ref &&& ho).toNat = 2 ^ 42 * (r.toNat / 2 ^ 42) := by
    by_cases crossed : ref &&& ~~~ho < saved
    · have later : ref.toNat % 2 ^ 42 < r.toNat % 2 ^ 42 := by
        rwa [BitVec.lt_def, split, low] at crossed
      have round : (1#64 <<< (32 + cputimeShift)) ≤ ref &&& ho := by
        rw [BitVec.le_def, above, one]
        omega
      rw [if_pos crossed, toNat_sub_of_le round, above, one]
      omega
    · have earlier : ¬ref.toNat % 2 ^ 42 < r.toNat % 2 ^ 42 := by
        rwa [BitVec.lt_def, split, low] at crossed
      rw [if_neg crossed, above]
      omega
  apply eq_of_toNat_eq
  rw [recover, toNat_or, part, low,
    ← Nat.two_pow_add_eq_or_of_lt (Nat.mod_lt _ (Nat.two_pow_pos 42)), Nat.div_add_mod]

/-- **The estimator keeps both times** to `2 ^ 10` ns, as long as each of the readings is less
than `2 ^ 42` ns ahead. -/
theorem cputimeEstimator_roundTrip (r c now t : BitVec 64)
    (since : (clearLow r).toNat ≤ now.toNat) (soon : now.toNat < (clearLow r).toNat + 2 ^ 42)
    (used : (clearLow c).toNat ≤ t.toNat) (few : t.toNat < (clearLow c).toNat + 2 ^ 42) :
    cputimeEstimatorGet (cputimeEstimatorSet r c) now t = (clearLow r, clearLow c) := by
  rw [cputimeEstimatorGet, set_low, set_high]
  exact Prod.ext (recover_eq (toNat_kept r) since soon) (recover_eq (toNat_kept c) used few)

/-- Both readings cross a multiple of `2 ^ 42`. -/
theorem crossed_roundTrip : cputimeEstimatorGet
      (cputimeEstimatorSet (3 * 2 ^ 42 - 1) (2 ^ 42 - 1)) (3 * 2 ^ 42 + 5) (2 ^ 42) =
    (3 * 2 ^ 42 - 1024, 2 ^ 42 - 1024) :=
  cputimeEstimator_roundTrip (3 * 2 ^ 42 - 1) (2 ^ 42 - 1) (3 * 2 ^ 42 + 5) (2 ^ 42)
    (by decide) (by decide) (by decide) (by decide)

end MiniOsv.Sched.CpuTime
