/-
# Timer.TimerInvariant -- every timer is in the bucket it is looked for

The invariant (`Inv`) files each active timer under the index of its timeout.  `expire`
moves the reference point: the buckets above the index of the new time point have been
passed, the ones below keep their timers (`indexOf_far`), and the timers of the bucket in
between are passed or come closer (`indexOf_same`).
-/
import MiniOsv.Timer.TimerSet

namespace MiniOsv.Timer

open Theory List Bitset
open Function (update update_self update_of_ne)

/-! ## Bitsets -/

namespace Bitset

@[simp] theorem set_testBit (bits i : ℕ) (v : Bool) (j : ℕ) :
    (set bits i v).testBit j = if j = i then v else bits.testBit j := by
  unfold set
  split
  next same =>
    split
    next eq => rw [eq, same]
    · rfl
  next differs =>
    rw [Nat.testBit_xor, Nat.testBit_two_pow]
    split
    next eq =>
      subst eq
      cases v <;> simp_all
    next ne => simp [Ne.symm ne]

theorem set_lt {bits i : ℕ} (word : bits < 2 ^ 64) (small : i < 64) (v : Bool) :
    set bits i v < 2 ^ 64 := by
  unfold set
  split
  · exact word
  · exact Nat.xor_lt_two_pow word (Nat.pow_lt_pow_right (by decide) small)

theorem lt_of_testBit {bits i : ℕ} (word : bits < 2 ^ 64) (on : bits.testBit i = true) : i < 64 := by
  by_contra high
  have := Nat.testBit_lt_two_pow (word.trans_le (Nat.pow_le_pow_right (by decide)
    (Nat.le_of_not_lt high)))
  rw [this] at on
  cases on

theorem getFirstSet_spec {bits : ℕ} (word : bits < 2 ^ 64) (some : bits ≠ 0) :
    bits.testBit (getFirstSet bits) = true ∧ ∀ j < getFirstSet bits, bits.testBit j = false := by
  obtain ⟨i, on⟩ := Nat.exists_testBit_of_ne_zero some
  obtain ⟨z, found⟩ : ∃ z, (List.range 64).find? (fun i => bits.testBit i) = .some z := by
    apply Option.isSome_iff_exists.1
    exact List.find?_isSome.2 ⟨i, mem_range.2 (lt_of_testBit word on), on⟩
  have first : getFirstSet bits = z := by rw [getFirstSet, countTrailingZeros, found]; rfl
  rw [first]
  refine ⟨by simpa using List.find?_some found, fun j lt => ?_⟩
  rw [List.find?_range_eq_some] at found
  simpa using found.2.2 j lt

/-- The iterator runs through the set bits. -/
theorem mem_iterate {fuel bits at0 i : ℕ} (small : fuel ≤ 64) (word : bits < 2 ^ fuel) :
    i ∈ iterate fuel bits at0 ↔ at0 ≤ i ∧ bits.testBit (i - at0) = true := by
  induction fuel generalizing bits at0 with
  | zero =>
    obtain rfl : bits = 0 := by simpa using word
    simp [iterate]
  | succ fuel ih =>
    unfold iterate
    split
    next none => simp [none]
    next some =>
      have word64 : bits < 2 ^ 64 := word.trans_le (Nat.pow_le_pow_right (by decide) small)
      obtain ⟨on, before⟩ := getFirstSet_spec word64 some
      generalize getFirstSet bits = z at on before
      have rest : bits >>> (z + 1) < 2 ^ fuel := by
        rw [Nat.shiftRight_eq_div_pow, Nat.div_lt_iff_lt_mul (Nat.two_pow_pos _), ← Nat.pow_add]
        exact word.trans_le (Nat.pow_le_pow_right (by decide) (by omega))
      rw [mem_cons, ih (by omega) rest, Nat.testBit_shiftRight]
      constructor
      · rintro (rfl | ⟨le, bit⟩)
        · exact ⟨Nat.le_add_right _ _, by rwa [Nat.add_sub_cancel_left]⟩
        · exact ⟨by omega, by rwa [show z + 1 + (i - (at0 + z + 1)) = i - at0 by omega] at bit⟩
      · rintro ⟨le, bit⟩
        rcases lt_trichotomy (i - at0) z with lt | eq | gt
        · rw [before _ lt] at bit
          cases bit
        · exact .inl (by omega)
        · exact .inr ⟨by omega,
            by rwa [show z + 1 + (i - (at0 + z + 1)) = i - at0 by omega]⟩

theorem mem_forEachSet {bits offset i : ℕ} (word : bits < 2 ^ 64) :
    i ∈ forEachSet bits offset ↔ offset ≤ i ∧ bits.testBit i = true := by
  have small : bits >>> offset < 2 ^ 64 := (Nat.shiftRight_le _ _).trans_lt word
  rw [forEachSet, mem_iterate le_rfl small, Nat.testBit_shiftRight]
  refine and_congr_right fun le => ?_
  rw [Nat.add_sub_cancel' le]

theorem getLastSet_spec {bits : ℕ} (word : bits < 2 ^ 64) (some : bits ≠ 0) :
    bits.testBit (getLastSet bits) = true ∧ ∀ j, getLastSet bits < j → bits.testBit j = false := by
  have small : bits.log2 < 64 := (Nat.log2_lt some).2 word
  have last : getLastSet bits = bits.log2 := by
    rw [getLastSet, countLeadingZeros]
    omega
  rw [last]
  refine ⟨Nat.testBit_log2 some, fun j lt => ?_⟩
  exact Nat.testBit_lt_two_pow ((Nat.log2_lt some).1 lt)

end Bitset

/-! ## The index of a timeout -/

namespace TimerSet

/-- `get_index` for the reference point `last`. -/
def indexOf (last timestamp : ℤ) : ℕ :=
  if timestamp ≤ last then nBuckets - 1
  else countLeadingZerosSigned (timestamp.toNat ^^^ last.toNat)

theorem indexOf_past {last t : ℤ} (past : t ≤ last) : indexOf last t = 63 := if_pos past

variable {last now t u : ℤ}

theorem indexOf_ahead (low : 0 ≤ last) (ahead : last < t) (high : t ≤ maxTimestamp) :
    indexOf last t = 62 - highBit last.toNat t.toNat ∧ highBit last.toNat t.toNat ≤ 62 := by
  simp only [maxTimestamp] at high
  have bound : highBit last.toNat t.toNat < 63 :=
    highBit_lt_of_lt (by omega) (by omega) (by omega)
  rw [indexOf, if_neg (Int.not_le.2 ahead), countLeadingZerosSigned,
    countLeadingZeros, Nat.xor_comm, ← highBit]
  omega

theorem indexOf_le (last t : ℤ) : indexOf last t ≤ 63 := by
  unfold indexOf
  split
  · decide
  · simp only [countLeadingZerosSigned, countLeadingZeros]
    omega

/-- A lower index stands for a later timeout. -/
theorem lt_of_indexOf_lt (low : 0 ≤ last) (highT : t ≤ maxTimestamp) (highU : u ≤ maxTimestamp)
    (lt : indexOf last t < indexOf last u) : u < t := by
  have aheadT : last < t := by
    by_contra past
    have := indexOf_past (Int.not_lt.1 past)
    have := indexOf_le last u
    omega
  by_cases past : u ≤ last
  · omega
  · have aheadU : last < u := Int.not_le.1 past
    obtain ⟨indexT, boundT⟩ := indexOf_ahead low aheadT highT
    obtain ⟨indexU, boundU⟩ := indexOf_ahead low aheadU highU
    have := lt_of_highBit_lt (a := last.toNat) (b := u.toNat) (c := t.toNat) (by omega) (by omega)
      (by omega)
    omega

/-- Timers below the index of the new reference point stay where they are. -/
theorem indexOf_far (low : 0 ≤ last) (later : last ≤ now) (highN : now ≤ maxTimestamp)
    (highT : t ≤ maxTimestamp) (lt : indexOf last t < indexOf last now) :
    indexOf now t = indexOf last t := by
  have ahead := lt_of_indexOf_lt low highT highN lt
  by_cases same : last = now
  · rw [same]
  · obtain ⟨indexN, boundN⟩ := indexOf_ahead low (lt_of_le_of_ne later same) highN
    obtain ⟨indexT, boundT⟩ := indexOf_ahead low (later.trans_lt ahead) highT
    obtain ⟨indexT', boundT'⟩ := indexOf_ahead (low.trans later) ahead highT
    have := highBit_far (a := last.toNat) (b := now.toNat) (c := t.toNat) (by omega) (by omega)
      (by omega)
    omega

/-- Timers at the index of the new reference point that are ahead of it get a higher index. -/
theorem indexOf_same (low : 0 ≤ last) (later : last ≤ now) (highN : now ≤ maxTimestamp)
    (highT : t ≤ maxTimestamp) (eq : indexOf last t = indexOf last now) (ahead : now < t) :
    indexOf last now < indexOf now t := by
  obtain ⟨indexT, boundT⟩ := indexOf_ahead low (later.trans_lt ahead) highT
  by_cases same : last = now
  · rw [indexOf_past same.ge] at eq
    omega
  · obtain ⟨indexN, boundN⟩ := indexOf_ahead low (lt_of_le_of_ne later same) highN
    obtain ⟨indexT', boundT'⟩ := indexOf_ahead (low.trans later) ahead highT
    have := highBit_same (a := last.toNat) (b := now.toNat) (c := t.toNat) (by omega) (by omega)
      (by omega)
    omega

/-! ## The invariant -/

variable {τ : Type} {s : TimerSet τ}

theorem getIndex_eq (s : TimerSet τ) (t : ℤ) : s.getIndex t = indexOf s.last t := rfl

def Active (s : TimerSet τ) (e : Entry τ) : Prop := ∃ i, e ∈ s.buckets i

structure Inv (s : TimerSet τ) : Prop where
  low : 0 ≤ s.last
  high : s.last ≤ maxTimestamp
  word : s.nonEmptyBuckets < 2 ^ 64
  bits : ∀ i, s.nonEmptyBuckets.testBit i = true ↔ s.buckets i ≠ []
  home : ∀ i, ∀ e ∈ s.buckets i, indexOf s.last e.timeout = i
  bound : ∀ i, ∀ e ∈ s.buckets i, e.timeout ≤ maxTimestamp
  nodup : ∀ i, (s.buckets i).Nodup
  nextLe : ∀ i, ∀ e ∈ s.buckets i, s.next ≤ e.timeout

theorem Inv.empty : (TimerSet.empty : TimerSet τ).Inv := by
  constructor <;> simp [TimerSet.empty, maxTimestamp]

theorem Inv.active_iff (inv : s.Inv) (e : Entry τ) :
    s.Active e ↔ e ∈ s.buckets (s.getIndex e.timeout) := by
  constructor
  · rintro ⟨i, mem⟩
    rw [getIndex_eq, inv.home i e mem]
    exact mem
  · exact fun mem => ⟨_, mem⟩

/-! ## `insert`, `remove` and `pop_expired` -/

theorem insert_buckets (s : TimerSet τ) (e : Entry τ) : (s.insert e).1.buckets =
    update s.buckets (s.getIndex e.timeout) (s.buckets (s.getIndex e.timeout) ++ [e]) := by
  unfold insert
  simp only
  split <;> rfl

theorem insert_rest (s : TimerSet τ) (e : Entry τ) : (s.insert e).1.last = s.last ∧
    (s.insert e).1.expired = s.expired ∧ (s.insert e).1.next = min s.next e.timeout ∧
      (s.insert e).1.nonEmptyBuckets = set s.nonEmptyBuckets (s.getIndex e.timeout) true := by
  unfold insert
  simp only
  split
  next lt => exact ⟨rfl, rfl, (min_eq_right lt.le).symm, rfl⟩
  next le => exact ⟨rfl, rfl, (min_eq_left (Int.not_lt.1 le)).symm, rfl⟩

theorem mem_insert_buckets (s : TimerSet τ) (e f : Entry τ) (i : ℕ) :
    f ∈ (s.insert e).1.buckets i ↔ f ∈ s.buckets i ∨ f = e ∧ i = s.getIndex e.timeout := by
  rw [insert_buckets]
  by_cases here : i = s.getIndex e.timeout
  · subst here
    simp
  · simp [here]

theorem active_insert (s : TimerSet τ) (e f : Entry τ) :
    (s.insert e).1.Active f ↔ f = e ∨ s.Active f := by
  simp only [Active, mem_insert_buckets, exists_or, exists_and_left, exists_eq, and_true]
  exact or_comm

theorem Inv.insert (inv : s.Inv) {e : Entry τ} (high : e.timeout ≤ maxTimestamp)
    (fresh : ¬s.Active e) : (s.insert e).1.Inv := by
  obtain ⟨last, -, next, bits⟩ := insert_rest s e
  refine ⟨last ▸ inv.low, last ▸ inv.high, ?_, ?_, ?_, ?_, ?_, ?_⟩
  · rw [bits]
    exact set_lt inv.word (Nat.lt_succ_of_le (indexOf_le _ _)) _
  · intro i
    rw [bits, set_testBit, insert_buckets]
    by_cases here : i = s.getIndex e.timeout
    · simp [here]
    · simp [here, inv.bits i]
  · intro i f mem
    rw [last]
    rcases (mem_insert_buckets s e f i).1 mem with old | ⟨rfl, rfl⟩
    · exact inv.home i f old
    · rfl
  · intro i f mem
    rcases (mem_insert_buckets s e f i).1 mem with old | ⟨rfl, rfl⟩
    · exact inv.bound i f old
    · exact high
  · intro i
    rw [insert_buckets]
    by_cases here : i = s.getIndex e.timeout
    · subst here
      rw [update_self, nodup_append]
      refine ⟨inv.nodup _, by simp, fun f mem g last => ?_⟩
      rw [mem_singleton.1 last]
      rintro rfl
      exact fresh ⟨_, mem⟩
    · rw [update_of_ne here]
      exact inv.nodup i
  · intro i f mem
    rw [next]
    rcases (mem_insert_buckets s e f i).1 mem with old | ⟨rfl, rfl⟩
    · exact (min_le_left _ _).trans (inv.nextLe i f old)
    · exact min_le_right _ _

section Remove

variable [DecidableEq τ]

/-- `remove` finds an active timer in its bucket. -/
theorem Inv.remove (inv : s.Inv) {e : Entry τ} (active : s.Active e) :
    ∃ s', s.remove e = some s' ∧ s'.Inv ∧ s'.expired = s.expired ∧ s'.last = s.last ∧
      ∀ f, s'.Active f ↔ s.Active f ∧ f ≠ e := by
  have here := (inv.active_iff e).1 active
  obtain ⟨s', buckets, bits, word, rest, result⟩ : ∃ s' : TimerSet τ,
      s'.buckets = update s.buckets (s.getIndex e.timeout)
        ((s.buckets (s.getIndex e.timeout)).erase e) ∧
      (∀ i, s'.nonEmptyBuckets.testBit i = true ↔ s'.buckets i ≠ []) ∧
      s'.nonEmptyBuckets < 2 ^ 64 ∧
      (s'.expired = s.expired ∧ s'.last = s.last ∧ s'.next = s.next) ∧ s.remove e = some s' := by
    simp only [TimerSet.remove, if_pos here]
    refine ⟨_, ?_, ?_, ?_, ?_, rfl⟩
    · split <;> rfl
    · intro i
      by_cases at0 : i = s.getIndex e.timeout
      · split
        next gone => simp [at0, gone]
        next left =>
          have := (inv.bits i).2 (by rw [at0]; exact ne_nil_of_mem here)
          subst at0
          simp [left, this]
      · split <;> simp [at0, inv.bits i]
    · split
      · exact set_lt inv.word (Nat.lt_succ_of_le (indexOf_le _ _)) _
      · exact inv.word
    · split <;> exact ⟨rfl, rfl, rfl⟩
  obtain ⟨expired, last, next⟩ := rest
  have members : ∀ i f, f ∈ s'.buckets i ↔ f ∈ s.buckets i ∧ f ≠ e := by
    intro i f
    rw [buckets]
    by_cases at0 : i = s.getIndex e.timeout
    · subst at0
      rw [update_self, (inv.nodup _).mem_erase_iff, and_comm]
    · rw [update_of_ne at0]
      refine ⟨fun mem => ⟨mem, ?_⟩, And.left⟩
      rintro rfl
      exact at0 (inv.home i f mem).symm
  refine ⟨s', result, ⟨last ▸ inv.low, last ▸ inv.high, word, bits, ?_, ?_, ?_, ?_⟩, expired, last,
    ?_⟩
  · intro i f mem
    rw [last]
    exact inv.home i f ((members i f).1 mem).1
  · exact fun i f mem => inv.bound i f ((members i f).1 mem).1
  · intro i
    rw [buckets]
    by_cases at0 : i = s.getIndex e.timeout
    · subst at0
      rw [update_self]
      exact (inv.nodup _).erase _
    · rw [update_of_ne at0]
      exact inv.nodup i
  · intro i f mem
    rw [next]
    exact inv.nextLe i f ((members i f).1 mem).1
  · intro f
    simp only [Active, members, exists_and_right]

end Remove

theorem popExpired_buckets (s : TimerSet τ) : s.popExpired.1.buckets = s.buckets ∧
    s.popExpired.1.last = s.last ∧ s.popExpired.1.next = s.next ∧
      s.popExpired.1.nonEmptyBuckets = s.nonEmptyBuckets := by
  unfold popExpired
  split <;> exact ⟨rfl, rfl, rfl, rfl⟩

theorem Inv.popExpired (inv : s.Inv) : s.popExpired.1.Inv := by
  obtain ⟨buckets, last, next, bits⟩ := popExpired_buckets s
  constructor <;> simp only [buckets, last, next, bits]
  exacts [inv.low, inv.high, inv.word, inv.bits, inv.home, inv.bound, inv.nodup, inv.nextLe]

end TimerSet

end MiniOsv.Timer
