/-
# Mmu.FindHole -- the search for a free range of addresses

`find_hole` walks over the pairs of neighbours in `vma_range_set`, from the last range that
starts before the hint on, up to the upper limit.  The first pair may have room at the hint
itself; later ones have room from the end of their first range on.  A large request keeps such a
gap only as a fall-back while it looks for one with room from a huge page boundary on.  The
invariant of the loop is what it has passed over: `Passed` for each gap behind it.
-/
import MiniOsv.Mmu.VmaInvariant

namespace MiniOsv.Mmu

open Mempool (wrap64 sub64 alignDown alignUp)

open List Nat

/-! ## Ranges and gaps -/

/-- Ranges in the order of the set, disjoint as far as the upper limit. -/
structure Ordered (all : List (ℕ × ℕ)) : Prop where
  starts : all.Pairwise fun r q => r.1 < q.1
  apart : all.Pairwise fun r q => q.1 ≤ upperVmaLimit → r.2 ≤ q.1
  proper : ∀ r ∈ all, r.1 < upperVmaLimit → r.1 ≤ r.2

/-- The gap between two neighbours, the second of which starts within the limit. -/
structure Gap (all : List (ℕ × ℕ)) (i : ℕ) (p n : ℕ × ℕ) : Prop where
  left : all[i]? = some p
  right : all[i + 1]? = some n
  within : n.1 ≤ upperVmaLimit

/-- The range of `size` bytes at `a` lies in a gap, at or above `start`; it begins at `start`, at
a huge page boundary or where the gap does. -/
def FitsAt (all : List (ℕ × ℕ)) (start size a : ℕ) : Prop :=
  start ≤ a ∧ ∃ i p n, Gap all i p n ∧ (p.2 ≤ a ∧ a + size ≤ n.1) ∧
    (a = start ∨ hugePageSize ∣ a ∨ a = p.2)

variable {all : List (ℕ × ℕ)} {start size : ℕ} {p n : ℕ × ℕ} {i : ℕ}

section

variable (ordered : Ordered all)

include ordered

theorem Ordered.of_lt {j k : ℕ} {r q : ℕ × ℕ} (lt : j < k) (first : all[j]? = some r)
    (second : all[k]? = some q) : r.1 < q.1 ∧ (q.1 ≤ upperVmaLimit → r.2 ≤ q.1) := by
  obtain ⟨inFirst, rfl⟩ := List.getElem?_eq_some_iff.1 first
  obtain ⟨inSecond, rfl⟩ := List.getElem?_eq_some_iff.1 second
  exact ⟨pairwise_iff_getElem.1 ordered.starts j k inFirst inSecond lt,
    pairwise_iff_getElem.1 ordered.apart j k inFirst inSecond lt⟩

theorem Gap.le (gap : Gap all i p n) : p.2 ≤ n.1 :=
  (ordered.of_lt (lt_succ_self i) gap.left gap.right).2 gap.within

/-- What lies in a gap meets no range. -/
theorem FitsAt.disjoint {a : ℕ} (fits : FitsAt all start size a) :
    a + size ≤ upperVmaLimit ∧ ∀ r ∈ all, r.2 ≤ a ∨ a + size ≤ r.1 := by
  obtain ⟨-, i, p, n, gap, ⟨after, before⟩, -⟩ := fits
  refine ⟨before.trans gap.within, fun r mem => ?_⟩
  obtain ⟨j, here⟩ := mem_iff_getElem?.1 mem
  have lower : p.1 < n.1 := (ordered.of_lt (lt_succ_self i) gap.left gap.right).1
  have proper : p.1 ≤ p.2 :=
    ordered.proper p (mem_of_getElem? gap.left) (lower.trans_le gap.within)
  rcases lt_trichotomy j i with left | rfl | right
  · have := (ordered.of_lt left here gap.left).2 (lower.le.trans gap.within)
    omega
  · obtain rfl : r = p := Option.some.inj (here.symm.trans gap.left)
    exact .inl after
  · rcases lt_or_eq_of_le (succ_le_of_lt right) with beyond | rfl
    · have := (ordered.of_lt beyond gap.right here).1
      omega
    · obtain rfl : r = n := Option.some.inj (here.symm.trans gap.right)
      exact .inr before

end

/-! ## Arithmetic within the limit -/

theorem sub64_of_le {a b : ℕ} (le : b ≤ a) (small : a ≤ upperVmaLimit) : sub64 a b = a - b := by
  simp only [sub64, upperVmaLimit] at *
  omega

/-- A gap of a huge page's size has a huge page boundary in it. -/
theorem alignUp_huge {a : ℕ} (small : a ≤ upperVmaLimit) :
    a ≤ alignUp a hugePageSize ∧ alignUp a hugePageSize < a + hugePageSize ∧
      hugePageSize ∣ alignUp a hugePageSize := by
  have huge : hugePageSize = 2097152 := rfl
  have limit : upperVmaLimit = 70368744177664 := rfl
  rw [limit] at small
  rw [alignUp, alignDown, wrap64, huge, mod_eq_of_lt (by omega)]
  exact ⟨by omega, by omega, dvd_mul_left _ _⟩

/-! ## The loop -/

/-- What is known of a gap that the loop has left behind. -/
structure Passed (start size goodEnough : ℕ) (p n : ℕ × ℕ) : Prop where
  noRoom : goodEnough = 0 → ¬max start p.2 + size ≤ n.1
  notAligned : start ≤ p.2 → ¬alignUp p.2 hugePageSize + size ≤ n.1

def HoleSpec (all : List (ℕ × ℕ)) (start size : ℕ) : Option (Except Errno ℕ) → Prop
  | none => True
  | some (.ok a) => FitsAt all start size a ∧
      (hugePageSize ≤ size → a ≠ start → ¬hugePageSize ∣ a →
        ∀ i p n, Gap all i p n → start ≤ p.2 → ¬alignUp p.2 hugePageSize + size ≤ n.1)
  | some (.error e) => e = .enomem ∧ ∀ i p n, Gap all i p n → ¬max start p.2 + size ≤ n.1

theorem findHoleLoop_spec (ordered : Ordered all) (pos : 0 < start) (small : start + size < 2 ^ 64)
    (list : List (ℕ × ℕ)) {k goodEnough : ℕ} (rest : all.drop k = p :: list)
    (good : goodEnough = 0 ∨ FitsAt all start size goodEnough)
    (passed : ∀ i < k, ∀ q m, Gap all i q m → Passed start size goodEnough q m) :
    HoleSpec all start size (Mm.findHoleLoop start size p goodEnough list) := by
  induction list generalizing k p goodEnough with
  | nil => trivial
  | cons n list ih =>
    have atP : all[k]? = some p := by
      rw [← List.head?_drop, rest, List.head?_cons]
    have rest' : all.drop (k + 1) = n :: list := by
      rw [← tail_drop, rest, tail_cons]
    have atN : all[k + 1]? = some n := by
      rw [← List.head?_drop, rest', List.head?_cons]
    have before : ∀ {g : ℕ}, (∀ i < k, ∀ q m, Gap all i q m → Passed start size g q m) →
        Passed start size g p n → ∀ i < k + 1, ∀ q m, Gap all i q m → Passed start size g q m := by
      intro g old new i lt q m gap
      rcases Nat.lt_succ_iff_lt_or_eq.1 lt with lower | rfl
      · exact old i lower q m gap
      · obtain rfl := Option.some.inj (atP.symm.trans gap.left)
        obtain rfl := Option.some.inj (atN.symm.trans gap.right)
        exact new
    rw [Mm.findHoleLoop]
    split
    case isTrue within =>
      have gap : Gap all k p n := ⟨atP, atN, within⟩
      have le := gap.le ordered
      have wrap : wrap64 (start + size) = start + size := mod_eq_of_lt small
      rw [wrap, sub64_of_le le within]
      split
      case isTrue atStart =>
        exact ⟨⟨le_refl _, k, p, n, gap, atStart, .inl rfl⟩, fun _ other => absurd rfl other⟩
      case isFalse notStart =>
        split
        case isTrue room =>
          have fits : FitsAt all start size p.2 :=
            ⟨room.1, k, p, n, gap, ⟨le_refl _, by omega⟩, .inr (.inr rfl)⟩
          obtain ⟨above, below, divides⟩ := alignUp_huge (le.trans within)
          split
          case isTrue smallSize => exact ⟨fits, fun large => absurd smallSize (by omega)⟩
          case isFalse large =>
            rw [sub64_of_le (by omega) within]
            split
            case isTrue aligned =>
              exact ⟨⟨by omega, k, p, n, gap, ⟨above, by omega⟩, .inr (.inl divides)⟩,
                fun _ _ other => absurd divides other⟩
            case isFalse unaligned =>
              refine ih rest' (.inr fits) (before ?_ ⟨by omega, by omega⟩)
              intro i lt q m gap'
              exact ⟨by omega, (passed i lt q m gap').notAligned⟩
        case isFalse noRoom =>
          refine ih rest' good (before passed ⟨fun _ => by omega, fun later => ?_⟩)
          have := (alignUp_huge (le.trans within)).1
          omega
    case isFalse beyond =>
      -- The gaps that count all lie behind.
      have behind : ∀ {i q m}, Gap all i q m → i < k := by
        intro i q m gap
        by_contra ahead
        have := gap.within
        rcases Nat.lt_or_eq_of_le (Nat.succ_le_succ (Nat.le_of_not_lt ahead)) with later | same
        · have := (ordered.of_lt later atN gap.right).1
          omega
        · rw [Nat.succ.inj same] at atN
          obtain rfl := Option.some.inj (atN.symm.trans gap.right)
          omega
      split
      case isTrue found =>
        exact ⟨good.resolve_left found, fun _ _ _ i q m gap =>
          (passed i (behind gap) q m gap).notAligned⟩
      case isFalse none =>
        exact ⟨rfl, fun i q m gap => (passed i (behind gap) q m gap).noRoom (by omega)⟩

/-! ## The search -/

theorem findHole_spec {s : Mm} (ordered : Ordered s.ranges) (pos : 0 < start) (some_ : 0 < size)
    (small : start + size < 2 ^ 64) : HoleSpec s.ranges start size (s.findHole start size) := by
  rw [Mm.findHole]
  split
  case h_1 p last =>
    obtain ⟨front, shape⟩ := List.getLast?_eq_some_iff.1 last
    have whole := takeWhile_append_dropWhile (p := fun r : ℕ × ℕ => decide (r.1 < start))
      (l := s.ranges)
    rw [shape, append_assoc, singleton_append] at whole
    refine findHoleLoop_spec ordered pos small _ (k := front.length) ?_ (.inl rfl) ?_
    · nth_rewrite 1 [← whole]
      exact drop_left
    · intro i lt q m gap
      have le := gap.le ordered
      have early : m ∈ s.ranges.takeWhile fun r => decide (r.1 < start) := by
        have here := gap.right
        rw [← whole, append_cons, List.getElem?_append_left (by simp; omega)] at here
        rw [shape]
        exact mem_of_getElem? here
      have low := mem_takeWhile_imp early
      rw [decide_eq_true_eq] at low
      exact ⟨fun _ => by omega, fun later => by omega⟩
  case h_2 =>
    split
    · trivial
    next p rest shape =>
      exact findHoleLoop_spec ordered pos small rest (k := 0) shape (.inl rfl)
        fun i lt => absurd lt (not_lt_zero i)

/-- The loop ends at a range beyond the limit. -/
theorem findHoleLoop_ne_none (list : List (ℕ × ℕ)) (goodEnough : ℕ)
    (beyond : ∃ r ∈ list, upperVmaLimit < r.1) :
    Mm.findHoleLoop start size p goodEnough list ≠ none := by
  induction list generalizing p goodEnough with
  | nil =>
    obtain ⟨r, mem, -⟩ := beyond
    cases mem
  | cons n list ih =>
    obtain ⟨r, mem, above⟩ := beyond
    rw [Mm.findHoleLoop]
    split
    case isTrue within =>
      have later : ∃ r ∈ list, upperVmaLimit < r.1 := by
        rcases mem_cons.1 mem with rfl | inRest
        · omega
        · exact ⟨r, inRest, above⟩
      split
      · simp
      · split
        · split
          · simp
          · split
            · simp
            · exact ih _ later
        · exact ih _ later
    case isFalse => split <;> simp

/-- With the marker at the lower edge and a range beyond the upper limit and the hint, the walk
meets no end of the set. -/
theorem findHole_ne_none {s : Mm} (pos : 0 < start)
    (marker : (lowerVmaLimit, lowerVmaLimit) ∈ s.ranges) (ordered : Ordered s.ranges)
    (beyond : ∃ r ∈ s.ranges, upperVmaLimit < r.1 ∧ start ≤ r.1) :
    s.findHole start size ≠ none := by
  obtain ⟨r, mem, above, after⟩ := beyond
  have inRest : r ∈ s.ranges.dropWhile fun r => decide (r.1 < start) := by
    have either := takeWhile_append_dropWhile (p := fun r : ℕ × ℕ => decide (r.1 < start))
      (l := s.ranges) ▸ mem
    rcases mem_append.1 either with early | late
    · have low := mem_takeWhile_imp early
      simp only [decide_eq_true_eq] at low
      omega
    · exact late
  rw [Mm.findHole]
  split
  case h_1 p last => exact findHoleLoop_ne_none _ _ ⟨r, inRest, above⟩
  case h_2 none =>
    -- The marker is the first element, and it starts before the hint.
    exfalso
    rw [List.getLast?_eq_none_iff] at none
    cases shape : s.ranges with
    | nil =>
      rw [shape] at mem
      cases mem
    | cons q rest =>
      rw [shape] at none marker
      have low : q.1 < start := by
        rcases mem_cons.1 marker with rfl | inTail
        · exact pos
        · have starts := ordered.starts
          rw [shape] at starts
          exact absurd ((pairwise_cons.1 starts).1 _ inTail) (not_lt_zero _)
      rw [takeWhile_cons, if_pos (by simpa using low)] at none
      cases none

/-- **`find_hole`** on ranges that are disjoint below the upper limit: an answer lies at or above
the hint and below the limit and meets no range; for a large size it is the hint or aligned
unless no gap has room from its first boundary on; and `ENOMEM` means that no gap has room.  The
markers and a range beyond the limit keep the walk inside the set. -/
theorem findHole_correct {s : Mm} (ordered : Ordered s.ranges) (pos : 0 < start)
    (some_ : 0 < size) (small : start + size < 2 ^ 64) :
    (∀ a, s.findHole start size = some (.ok a) →
      start ≤ a ∧ a + size ≤ upperVmaLimit ∧ ∀ r ∈ s.ranges, r.2 ≤ a ∨ a + size ≤ r.1) ∧
    (∀ a, s.findHole start size = some (.ok a) → hugePageSize ≤ size → a ≠ start →
      ¬hugePageSize ∣ a → ∀ i p n, Gap s.ranges i p n → start ≤ p.2 →
        ¬alignUp p.2 hugePageSize + size ≤ n.1) ∧
    (∀ e, s.findHole start size = some (.error e) →
      e = .enomem ∧ ∀ i p n, Gap s.ranges i p n → ¬max start p.2 + size ≤ n.1) ∧
    ((lowerVmaLimit, lowerVmaLimit) ∈ s.ranges →
      (∃ r ∈ s.ranges, upperVmaLimit < r.1 ∧ start ≤ r.1) → s.findHole start size ≠ none) := by
  have spec := findHole_spec ordered pos some_ small
  refine ⟨fun a found => ?_, fun a found => ?_, fun e failed => ?_,
    fun marker beyond => findHole_ne_none pos marker ordered beyond⟩
  · rw [found] at spec
    exact ⟨spec.1.1, spec.1.disjoint ordered⟩
  · rw [found] at spec
    exact spec.2
  · rw [failed] at spec
    exact spec

/-- The markers, one area of a page at the hint's place, and a linear map beyond the limit. -/
def oneArea : Mm where
  vmaList := [⟨0, 0, 0, 0⟩, ⟨0x200000000000, 0x200000001000, 3, 0⟩,
    ⟨upperVmaLimit, upperVmaLimit, 0, 0⟩]
  vmaRangeSet := [.vma 0, .vma 0x200000000000, .vma upperVmaLimit,
    .linear ⟨0x500000000000, 0x100000000000⟩]
  linearVmaSet := [⟨0x500000000000, 0x100000000000⟩]

/-- A request of a huge page goes to the boundary behind the area. -/
theorem oneArea_hole : oneArea.findHole 0x200000000000 0x200000 = some (.ok 0x200000200000) ∧
    ∀ r ∈ oneArea.ranges, r.2 ≤ 0x200000200000 ∨ 0x200000200000 + 0x200000 ≤ r.1 := by
  have found : oneArea.findHole 0x200000000000 0x200000 = some (.ok 0x200000200000) := by
    decide +kernel
  have ordered : Ordered oneArea.ranges := ⟨by decide +kernel, by decide +kernel, by decide +kernel⟩
  exact ⟨found, ((findHole_correct ordered (by decide) (by decide) (by decide)).1 _ found).2.2⟩

end MiniOsv.Mmu
