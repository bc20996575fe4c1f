/-
# Sync.StdRwMutex2Version -- the version counter of `StdRwMutex2`

`version()` composes the 16-bit `writer_phase` with `writer_phase_overflow`.  Only writers change
the two (`step_phases`), and they exclude one another (`exclusive_and_wakes_pending`), so that the
fields see whole writer sections: the `fetch_or` of `wlock` or `try_wlock`, then the `fetch_add` of
`wunlock`.

`wunlock` compares the old phase with `~0`.  The phase is promoted to `int` for that, so it is
never `-1`: the overflow counter stays 0 and the version starts again after 32768 sections.
-/
import MiniOsv.Sync.StdRwMutex2

namespace MiniOsv.Sync.StdRwMutex2

/-- The fields that `version` reads. -/
structure Phases where
  writerPhaseOverflow : BitVec 8
  writerPhase : BitVec 16
  deriving DecidableEq

namespace Phases

def wlock (d : Phases) : Phases := { d with writerPhase := d.writerPhase ||| phaseWriting }

def wunlock (d : Phases) : Phases :=
  let prevPhase := d.writerPhase
  let d := { d with writerPhase := d.writerPhase + 1 }
  -- Both sides are of type `int`.
  if prevPhase.zeroExtend 32 = ~~~0#32 then
    { d with writerPhaseOverflow := d.writerPhaseOverflow + 1 }
  else d

def version (d : Phases) : BitVec 32 :=
  d.writerPhaseOverflow.zeroExtend 32 <<< 16 ||| d.writerPhase.zeroExtend 32

/-- A new lock after `n` writer sections. -/
def sections : ℕ → Phases
  | 0 => ⟨0, 0⟩
  | n + 1 => (sections n).wlock.wunlock

theorem wunlock_eq (d : Phases) : d.wunlock = { d with writerPhase := d.writerPhase + 1 } := by
  refine if_neg fun same => ?_
  have small := d.writerPhase.isLt
  have value := congrArg BitVec.toNat same
  rw [BitVec.toNat_setWidth, Nat.mod_eq_of_lt (by omega)] at value
  simp at value
  omega

theorem sections_eq (n : ℕ) : sections n = ⟨0, BitVec.ofNat 16 (2 * n)⟩ := by
  induction n with
  | zero => rfl
  | succ n ih =>
    rw [sections, wunlock_eq, ih]
    have odd : BitVec.ofNat 16 (2 * n) ||| phaseWriting = BitVec.ofNat 16 (2 * n) + 1#16 := by
      rw [← BitVec.add_eq_or_of_and_eq_zero]
      · rfl
      · apply BitVec.eq_of_toNat_eq
        rw [BitVec.toNat_and]
        change _ &&& 1 = 0
        rw [Nat.and_one_is_mod, BitVec.toNat_ofNat]
        omega
    simp only [wlock, odd]
    congr 1
    apply BitVec.eq_of_toNat_eq
    simp
    omega

theorem version_sections (n : ℕ) : (sections n).version.toNat = 2 * n % 2 ^ 16 := by
  rw [sections_eq, version]
  simp
  omega

end Phases

open Phases

/-- The lock's fields; its steps do not use the overflow counter. -/
def State.phases {ι : Type} (s : State ι) (overflow : BitVec 8) : Phases := ⟨overflow, s.writerPhase⟩

/-- In the lock, the fields change in the `fetch_or` of a `wlock` and the `fetch_add` of a `wunlock`,
and as described here. -/
theorem step_phases {ι : Type} [DecidableEq ι] {s s' : State ι} {addr : BitVec 64} {event : Event ι}
    (taken : s.step addr event = some s') (overflow : BitVec 8) :
    s'.phases overflow = s.phases overflow ∨ ∃ t spurious, event = .go t spurious ∧
      (s.pcs t = .setPhase ∧ s'.phases overflow = (s.phases overflow).wlock ∨
        s.pcs t = .endPhase ∧ s'.phases overflow = (s.phases overflow).wunlock) := by
  cases event with rw [State.step] at taken
  | rlock t | wlock t =>
    split at taken <;> cases taken
    exact .inl rfl
  | go t spurious =>
    unfold State.go at taken
    cases here : s.pcs t <;> simp only [here] at taken
    case setPhase =>
      cases taken
      exact .inr ⟨t, spurious, rfl, .inl ⟨here, rfl⟩⟩
    case endPhase =>
      cases taken
      exact .inr ⟨t, spurious, rfl, .inr ⟨here, by rw [wunlock_eq]; rfl⟩⟩
    case acquiring | releasing =>
      obtain ⟨mutex, -, ⟨⟩⟩ := Option.bind_eq_some_iff.1 taken
      exact .inl rfl
    all_goals
      repeat' split at taken
      all_goals cases taken
      all_goals exact .inl rfl

/-- **`version()` counts writer sections up to the 32768th**: after `n` of them it is `2n` exactly
if `n` is below `2^15`, and up to there it grows. -/
theorem version_eq_iff (n : ℕ) : ((sections n).version.toNat = 2 * n ↔ n < 2 ^ 15) ∧
    (n < 2 ^ 15 → ∀ m < n, (sections m).version.toNat < (sections n).version.toNat) := by
  refine ⟨?_, fun small m less => ?_⟩
  · rw [version_sections]
    omega
  · rw [version_sections, version_sections]
    omega

/-- After 32768 sections the version is that of a new lock. -/
theorem version_restarts : (32768 : ℕ) < 2 ^ 23 ∧ (sections 32768).version = (sections 0).version ∧
    (sections 32768).version.toNat ≠ 2 * 32768 := by
  have restarts : (sections 32768).version = (sections 0).version := by
    rw [sections_eq]
    decide
  refine ⟨by decide, restarts, ?_⟩
  rw [restarts]
  decide

end MiniOsv.Sync.StdRwMutex2
