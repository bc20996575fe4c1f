/-
# Mmu.VmaSweep -- the areas that meet a range, and loops over them

`find_intersecting_vmas` cuts the list in three: the areas before the range, those that
meet it and those behind it (`Wf.slice`).  On such a cut `ismapped` is right, and the loop
of `evacuate` and `protect` cuts every area of the middle part into its part before the
range, its part inside, which is acted on, and its part behind (`Wf.sweepRange`).
-/
import MiniOsv.Mmu.VmaInvariant

namespace MiniOsv.Mmu

open Theory List Option Nat
open Mempool (pageSize wrap64)

namespace Mm

variable {s : Mm} {start stop : ℕ}

/-! ## The slice -/

/-- A non-empty range above address 0 and below the upper limit. -/
structure UserRange (start stop : ℕ) : Prop where
  pos : 0 < start
  nonempty : start < stop
  inside : stop ≤ upperVmaLimit

/-- The list cut at the range from `start` to `stop`. -/
structure Slice (s : Mm) (start stop : ℕ) (before slice after : List Vma) : Prop where
  list : s.vmaList = before ++ slice ++ after
  notFirst : before ≠ []
  below : ∀ v ∈ before, v.stop ≤ start
  meets : ∀ v ∈ slice, v.Proper ∧ v.start < stop ∧ start < v.stop
  above : ∀ v ∈ after, stop ≤ v.start

/-- What `find_intersecting_vmas` returns for such a cut. -/
def sliceEnds (slice after : List Vma) : Option ℕ × Option ℕ :=
  match slice with
  | [] => (none, none)
  | v :: _ => (some v.start, after.head?.map Vma.start)

/-- An area that starts in a range between the limits is not a marker. -/
theorem Wf.proper_of_inside (wf : s.Wf) {v : Vma} (mem : v ∈ s.vmaList) (pos : 0 < v.stop)
    (inside : v.start < upperVmaLimit) : v.Proper := by
  rcases wf.proper v mem with rfl | rfl | proper
  · exact absurd pos (by simp [lowerEdge, lowerVmaLimit])
  · exact absurd inside (lt_irrefl _)
  · exact proper

theorem Wf.start_le_stop (wf : s.Wf) {v : Vma} (mem : v ∈ s.vmaList) : v.start ≤ v.stop := by
  rcases wf.proper v mem with rfl | rfl | proper
  · exact le_rfl
  · exact le_rfl
  · exact proper.nonempty.le

/-- Every list can be cut at a range between the limits. -/
theorem Wf.exists_slice (wf : s.Wf) (range : UserRange start stop) :
    ∃ before slice after, s.Slice start stop before slice after ∧ after ≠ [] := by
  obtain ⟨pos, nonempty, inside⟩ := range
  obtain ⟨front, after, list, under, beyond, -⟩ := wf.keyedList.lowerBound stop
  have sorted := wf.sorted
  rw [list, pairwise_append] at sorted
  have memFront : ∀ v ∈ front, v ∈ s.vmaList := fun v mem => by rw [list]; simp [mem]
  have split : front = front.takeWhile (fun v => decide (v.stop ≤ start)) ++
      front.dropWhile (fun v => decide (v.stop ≤ start)) := takeWhile_append_dropWhile.symm
  have past : ∀ v ∈ front.dropWhile (fun v => decide (v.stop ≤ start)), start < v.stop := by
    intro v mem
    have := not_of_mem_dropWhile sorted.1 (p := fun v => decide (v.stop ≤ start)) ?_ v mem
    · simpa using this
    · intro u _ w memW order above
      have := wf.start_le_stop (memFront w memW)
      simp only [decide_eq_false_iff_not, Vma.Before] at above order ⊢
      omega
  have lowerFirst : lowerEdge ∈ front := by
    have lower := wf.lower
    rw [list, mem_append] at lower
    refine lower.resolve_right fun high => ?_
    exact absurd (beyond _ high) (by simp only [lowerEdge, lowerVmaLimit]; omega)
  refine ⟨_, _, after, ⟨by rw [← split]; exact list, ?_, ?_, ?_, beyond⟩, ?_⟩
  · intro none
    rw [none, nil_append] at split
    exact absurd (past lowerEdge (split ▸ lowerFirst)) (by simp [lowerEdge, lowerVmaLimit])
  · intro v mem
    simpa using mem_takeWhile_imp mem
  · intro v mem
    have memV : v ∈ front := by
      rw [split]
      exact mem_append_right _ mem
    have beyond := past v mem
    have low := under v memV
    exact ⟨wf.proper_of_inside (memFront v memV) (by omega) (by omega), low, beyond⟩
  · rintro rfl
    rw [append_nil] at list
    have := under _ (list ▸ wf.upper)
    simp only [upperEdge] at this
    omega

section Cut

variable {before slice after : List Vma}

theorem Slice.mem_list (cut : s.Slice start stop before slice after) {v : Vma}
    (mem : v ∈ before ∨ v ∈ slice ∨ v ∈ after) : v ∈ s.vmaList := by
  rw [cut.list]
  simp only [mem_append]
  tauto

theorem Slice.last_before (cut : s.Slice start stop before slice after) :
    ∃ p, before.getLast? = some p ∧ p.stop ≤ start :=
  ⟨_, List.getLast?_eq_some_getLast cut.notFirst, cut.below _ (getLast_mem cut.notFirst)⟩

variable (wf : s.Wf) (range : UserRange start stop) (cut : s.Slice start stop before slice after)
include wf range cut

theorem Slice.before_start : ∀ v ∈ before, v.start < start := by
  intro v mem
  have stops := cut.below v mem
  obtain ⟨pos, nonempty, inside⟩ := range
  rcases wf.proper v (cut.mem_list (.inl mem)) with rfl | rfl | proper
  · exact pos
  · simp only [upperEdge] at stops
    omega
  · have := proper.nonempty
    omega

theorem Slice.find_nil (notLast : after ≠ []) (empty : slice = []) :
    s.findIntersectingVmas start stop = some (none, none) := by
  subst empty
  obtain ⟨v, rest, rfl⟩ := exists_cons_of_ne_nil notLast
  have list : s.vmaList = before ++ v :: rest := by simpa using cut.list
  have behind := cut.above v mem_cons_self
  have found : s.lowerBound start = some v := by
    rw [lowerBound, list]
    refine find_le_append (cut.before_start wf range) fun w mem => ?_
    exact range.nonempty.le.trans (cut.above w mem)
  obtain ⟨p, last, stops⟩ := cut.last_before
  have later : v.start > start := range.nonempty.trans_le behind
  have inFront : ¬p.stop > start := by omega
  simp only [findIntersectingVmas, if_neg (not_le.2 range.nonempty), found, if_pos later,
    wf.prev list, last, if_neg inFront, bind_eq_bind, bind_some, if_pos behind]

theorem Slice.lowerBound_stop : s.lowerBound stop = after.head? := by
  rw [lowerBound, cut.list]
  refine find_le_append (fun v mem => ?_) cut.above
  rcases mem_append.1 mem with first | middle
  · exact (cut.before_start wf range v first).trans range.nonempty
  · exact (cut.meets v middle).2.1

theorem Slice.find_cons (notLast : after ≠ []) {v : Vma} {rest : List Vma}
    (nonempty : slice = v :: rest) :
    s.findIntersectingVmas start stop = some (some v.start, after.head?.map Vma.start) := by
  subst nonempty
  obtain ⟨proper, starts, stops⟩ := cut.meets v mem_cons_self
  have list : s.vmaList = before ++ v :: (rest ++ after) := by simpa using cut.list
  obtain ⟨-, -, -, order, -⟩ := wf.around list
  have early : ¬v.start ≥ stop := not_le.2 starts
  by_cases overlap : v.start < start
  · -- The first area begins before the range, so it is found as the one before the bound.
    obtain ⟨x, tail, rest_eq⟩ : ∃ x tail, rest ++ after = x :: tail :=
      exists_cons_of_ne_nil (by simp [notLast])
    rw [rest_eq] at list order
    have list' : s.vmaList = (before ++ [v]) ++ x :: tail := by simpa using list
    have later : x.start > start := stops.trans_le (order x mem_cons_self).2
    have found : s.lowerBound start = some x := by
      rw [lowerBound, list']
      refine find_le_append (fun w mem => ?_) fun w mem => ?_
      · rcases mem_append.1 mem with first | last
        · exact cut.before_start wf range w first
        · rw [mem_singleton.1 last]
          exact overlap
      · exact stops.le.trans (order w mem).2
    have last : (before ++ [v]).getLast? = some v := by simp
    simp only [findIntersectingVmas, if_neg (not_le.2 range.nonempty), found, if_pos later,
      wf.prev list', last, if_pos stops, bind_eq_bind, bind_some, if_neg early,
      cut.lowerBound_stop wf range]
  · have found : s.lowerBound start = some v := by
      rw [lowerBound, list]
      refine find_le_append (cut.before_start wf range) fun w mem => ?_
      rcases mem_cons.1 mem with rfl | deep
      · exact Nat.le_of_not_lt overlap
      · exact (Nat.le_of_not_lt overlap).trans (order w deep).1.le
    obtain ⟨p, last, front⟩ := cut.last_before
    have inFront : ¬p.stop > start := by omega
    by_cases later : v.start > start
    · simp only [findIntersectingVmas, if_neg (not_le.2 range.nonempty), found, if_pos later,
        wf.prev list, last, if_neg inFront, bind_eq_bind, bind_some, if_neg early,
        cut.lowerBound_stop wf range]
    · simp only [findIntersectingVmas, if_neg (not_le.2 range.nonempty), found, if_neg later,
        bind_eq_bind, bind_some, if_neg early, cut.lowerBound_stop wf range]

end Cut

/-- **`find_intersecting_vmas`** for a range between the limits. -/
theorem Wf.slice (wf : s.Wf) (range : UserRange start stop) :
    ∃ before slice after, s.Slice start stop before slice after ∧
      s.findIntersectingVmas start stop = some (sliceEnds slice after) := by
  obtain ⟨before, slice, after, cut, notLast⟩ := wf.exists_slice range
  refine ⟨before, slice, after, cut, ?_⟩
  cases slice with
  | nil => exact cut.find_nil wf range notLast rfl
  | cons v rest => exact cut.find_cons wf range notLast rfl

/-! ## `ismapped` -/

theorem Slice.between {before slice after : List Vma} (wf : s.Wf)
    (cut : s.Slice start stop before slice after) :
    s.between (sliceEnds slice after).1 (sliceEnds slice after).2 = slice := by
  cases slice with
  | nil => simp [sliceEnds, Mm.between]
  | cons v rest =>
    have list : s.vmaList = before ++ v :: (rest ++ after) := by simpa using cut.list
    obtain ⟨-, -, below, -, -⟩ := wf.around list
    have dropped : s.vmaList.dropWhile (fun u => decide (some u.start ≠ some v.start)) =
        v :: rest ++ after := by
      rw [list, dropWhile_append_of_pos, dropWhile_cons_of_neg (by simp)]
      · rfl
      · intro u mem
        simpa using (below u mem).1.ne
    rw [Mm.between, sliceEnds, dropped]
    have ends : ∀ u ∈ v :: rest, some u.start ≠ after.head?.map Vma.start := by
      intro u mem
      cases after with
      | nil => simp
      | cons w after =>
        have := (cut.meets u mem).2.1
        have := cut.above w mem_cons_self
        simp only [List.head?_cons, map_some, ne_eq, Option.some.injEq]
        omega
    rw [takeWhile_append_of_pos fun u mem => decide_eq_true (ends u mem)]
    cases after with
    | nil => simp
    | cons w after => simp

/-- The loop of `ismapped` runs over sorted areas that end behind `start`. -/
theorem ismappedLoop_eq_true {slice : List Vma} (sorted : slice.Pairwise Vma.Before)
    (full : ∀ v ∈ slice, v.start < v.stop) (meets : ∀ v ∈ slice, start < v.stop)
    (nonempty : start < stop) :
    ismappedLoop stop start slice = true ↔
      ∀ x, start ≤ x → x < stop → ∃ v ∈ slice, v.start ≤ x ∧ x < v.stop := by
  induction slice generalizing start with
  | nil =>
    simp only [ismappedLoop, Bool.false_eq_true, not_mem_nil, false_and, exists_false,
      false_iff, not_forall]
    exact ⟨start, le_rfl, nonempty, id⟩
  | cons p rest ih =>
    obtain ⟨order, sortedRest⟩ := pairwise_cons.1 sorted
    have stops := meets p mem_cons_self
    unfold ismappedLoop
    by_cases gap : p.start > start
    · -- The first address is not mapped.
      simp only [if_pos gap, Bool.false_eq_true, false_iff, not_forall]
      refine ⟨start, le_rfl, nonempty, ?_⟩
      rintro ⟨v, mem, starts, -⟩
      rcases mem_cons.1 mem with rfl | deep
      · omega
      · have := (order v deep).1
        omega
    · rw [if_neg gap]
      by_cases enough : p.stop ≥ stop
      · simp only [if_pos enough, true_iff]
        exact fun x low high => ⟨p, mem_cons_self, by omega, by omega⟩
      · have beyond : ∀ v ∈ rest, p.stop < v.stop := by
          intro v mem
          have := (order v mem).2
          have := full v (mem_cons_of_mem _ mem)
          omega
        rw [if_neg enough, ih sortedRest (fun v mem => full v (mem_cons_of_mem _ mem))
          beyond (by omega)]
        constructor <;> intro mapped x low high
        · by_cases here : x < p.stop
          · exact ⟨p, mem_cons_self, by omega, here⟩
          · obtain ⟨v, mem, covers⟩ := mapped x (by omega) high
            exact ⟨v, mem_cons_of_mem _ mem, covers⟩
        · obtain ⟨v, mem, starts, stops'⟩ := mapped x (by omega) high
          rcases mem_cons.1 mem with rfl | deep
          · omega
          · exact ⟨v, deep, starts, stops'⟩

def Mapped (s : Mm) (x : ℕ) : Prop := ∃ v ∈ s.vmaList, v.start ≤ x ∧ x < v.stop

theorem Slice.mapped_iff {before slice after : List Vma}
    (cut : s.Slice start stop before slice after) {x : ℕ} (inside : start ≤ x ∧ x < stop) :
    s.Mapped x ↔ ∃ v ∈ slice, v.start ≤ x ∧ x < v.stop := by
  constructor <;> rintro ⟨v, mem, covers⟩
  · rw [cut.list, mem_append, mem_append] at mem
    rcases mem with (first | middle) | last
    · have := cut.below v first
      omega
    · exact ⟨v, middle, covers⟩
    · have := cut.above v last
      omega
  · exact ⟨v, cut.mem_list (.inr (.inl mem)), covers⟩

theorem UserRange.wrap {size : ℕ} (range : UserRange start (start + size)) :
    wrap64 (start + size) = start + size := by
  have := range.inside
  simp only [upperVmaLimit] at this
  exact mod_eq_of_lt (by omega)

/-- **`ismapped`** for a range between the limits. -/
theorem Wf.ismapped (wf : s.Wf) {size : ℕ} (range : UserRange start (start + size)) :
    ∃ result, s.ismapped start size = some result ∧
      (result = true ↔ ∀ x, start ≤ x → x < start + size → s.Mapped x) := by
  obtain ⟨before, slice, after, cut, found⟩ := wf.slice range
  have sorted : slice.Pairwise Vma.Before := by
    have sorted := wf.sorted
    rw [cut.list, pairwise_append, pairwise_append] at sorted
    exact sorted.1.2.1
  refine ⟨ismappedLoop (start + size) start slice, ?_, ?_⟩
  · rw [Mm.ismapped, range.wrap, found]
    simp only [bind_eq_bind, bind_some, cut.between wf]
  · rw [ismappedLoop_eq_true sorted (fun v mem => (cut.meets v mem).1.nonempty)
      (fun v mem => (cut.meets v mem).2.2) range.nonempty]
    refine forall_congr' fun x => forall_congr' fun low => forall_congr' fun high => ?_
    exact (cut.mapped_iff ⟨low, high⟩).symm

/-! ## The areas of the range -/

def meeting (s : Mm) (start stop : ℕ) : List Vma :=
  s.vmaList.filter fun v => decide (v.start < stop ∧ start < v.stop)

theorem Slice.meeting_eq {before areas after : List Vma}
    (cut : s.Slice start stop before areas after) : s.meeting start stop = areas := by
  rw [meeting, cut.list, filter_append, filter_append]
  have first : before.filter (fun v => decide (v.start < stop ∧ start < v.stop)) = [] := by
    refine filter_eq_nil_iff.2 fun v mem => ?_
    have := cut.below v mem
    simp only [decide_eq_true_eq]
    omega
  have last : after.filter (fun v => decide (v.start < stop ∧ start < v.stop)) = [] := by
    refine filter_eq_nil_iff.2 fun v mem => ?_
    have := cut.above v mem
    simp only [decide_eq_true_eq]
    omega
  have middle : areas.filter (fun v => decide (v.start < stop ∧ start < v.stop)) = areas :=
    filter_eq_self.2 fun v mem => decide_eq_true (cut.meets v mem).2
  rw [first, last, middle, nil_append, append_nil]

/-- The parts of an area before, inside and behind the range. -/
def partBefore (start : ℕ) (v : Vma) : List Vma :=
  if v.start < start then [{ v with stop := start }] else []

def partInside (start stop : ℕ) (v : Vma) : Vma :=
  { v with start := max v.start start, stop := min v.stop stop }

def partBehind (stop : ℕ) (v : Vma) : List Vma :=
  if stop < v.stop then [{ v with start := stop }] else []

/-- What a sweep makes of an area. -/
def swept (skip : Vma → Bool) (start stop : ℕ) (v : Vma) : List (Vma × Bool) :=
  if skip v then [(v, false)]
  else (partBefore start v).map (·, false) ++ (partInside start stop v, true) ::
    (partBehind stop v).map (·, false)

section Sweep

variable {skip : Vma → Bool} {v : Vma} {edge : ℕ}

theorem split_inside (proper : v.Proper) (aligned : edge % pageSize = 0)
    (inside : v.start < edge ∧ edge < v.stop) :
    v.split edge = ({ v with stop := edge }, [{ v with start := edge }]) := by
  have bound := proper.inside
  have startAligned := proper.startAligned
  have stopAligned := proper.stopAligned
  rw [Vma.split, if_neg (by omega)]
  simp only [Vma.set, Mempool.alignUp, Mempool.alignDown, wrap64, pageSize, upperVmaLimit] at *
  congr <;> omega

theorem split_outside (outside : edge ≤ v.start ∨ edge ≥ v.stop) : v.split edge = (v, []) :=
  if_pos outside

theorem sweep_cons (fuel : ℕ) (rest : List Vma) (taken : skip v = false) (atStop : stop ≤ v.start ∨ stop ≥ v.stop)
    (atStart : start ≤ v.start ∨ start ≥ v.stop) :
    sweep skip start stop (fuel + 1) (v :: rest) =
      (v, contains start stop v) :: sweep skip start stop fuel rest := by
  simp only [sweep, taken, split_outside atStop, split_outside atStart, Bool.false_eq_true, if_false,
    nil_append]

variable (cuts : ∀ v first last, skip { v with start := first, stop := last } = skip v)
  (range : start < stop)

section

include cuts range

theorem sweep_behind (taken : skip v = false) (fuel : ℕ) (rest : List Vma) :
    sweep skip start stop (fuel + (partBehind stop v).length) (partBehind stop v ++ rest) =
      (partBehind stop v).map (·, false) ++ sweep skip start stop fuel rest := by
  unfold partBehind
  split
  case isFalse => rfl
  case isTrue behind =>
    have outside : contains start stop { v with start := stop } = false :=
      decide_eq_false (by simp [behind])
    refine (sweep_cons (v := { v with start := stop }) fuel rest ((cuts v _ _).trans taken)
      (.inl le_rfl) (.inl range.le)).trans ?_
    rw [outside]
    rfl

end

variable (alignedStart : start % pageSize = 0) (alignedStop : stop % pageSize = 0)
  (proper : v.Proper) (meets : v.start < stop ∧ start < v.stop)

include cuts range alignedStart alignedStop proper meets

theorem sweep_area (rest : List Vma) : ∃ n ≤ 3, ∀ fuel,
    sweep skip start stop (fuel + n) (v :: rest) =
      swept skip start stop v ++ sweep skip start stop fuel rest := by
  have full := proper.nonempty
  cases taken : skip v with
  | true => exact ⟨1, by decide, fun fuel => by simp [sweep, swept, taken]⟩
  | false =>
    have atStop : v.split stop = ({ v with stop := min v.stop stop }, partBehind stop v) := by
      unfold partBehind
      split
      case isTrue behind =>
        rw [split_inside proper alignedStop ⟨meets.1, behind⟩, Nat.min_eq_right behind.le]
      case isFalse within =>
        rw [split_outside (.inr (Nat.le_of_not_lt within)), Nat.min_eq_left (Nat.le_of_not_lt within)]
    have length : (partBehind stop v).length ≤ 1 := by
      unfold partBehind
      split <;> simp
    have inside : contains start stop (partInside start stop v) = true :=
      decide_eq_true ⟨le_max_right _ _, min_le_right _ _⟩
    have takenInside : skip (partInside start stop v) = false := (cuts v _ _).trans taken
    rw [swept, if_neg (by simp [taken])]
    by_cases before : v.start < start
    · have cutProper : Vma.Proper { v with stop := min v.stop stop } := by
        refine ⟨proper.pos, lt_min full meets.1, (min_le_left _ _).trans proper.inside,
          proper.startAligned, ?_⟩
        rcases min_choice v.stop stop with same | same <;> rw [same]
        · exact proper.stopAligned
        · exact alignedStop
      have atStart := split_inside cutProper alignedStart ⟨before, lt_min meets.2 range⟩
      have outside : contains start stop { v with stop := start } = false :=
        decide_eq_false fun all => absurd all.1 (not_le.2 before)
      have middle : partInside start stop v = { v with start := start, stop := min v.stop stop } := by
        rw [partInside, Nat.max_eq_right before.le]
      refine ⟨(partBehind stop v).length + 1 + 1, by omega, fun fuel => ?_⟩
      rw [← Nat.add_assoc, ← Nat.add_assoc, sweep, if_neg (by simp [taken])]
      simp only [atStop, atStart, outside, cons_append, nil_append]
      rw [← middle, sweep_cons _ _ takenInside (.inr (min_le_right _ _)) (.inl (le_max_right _ _)),
        inside, sweep_behind cuts range taken, partBefore, if_pos before]
      rfl
    · have atStart : Vma.split { v with stop := min v.stop stop } start =
          ({ v with stop := min v.stop stop }, []) := split_outside (.inl (Nat.le_of_not_lt before))
      have middle : partInside start stop v = { v with stop := min v.stop stop } := by
        rw [partInside, Nat.max_eq_left (Nat.le_of_not_lt before)]
      refine ⟨(partBehind stop v).length + 1, by omega, fun fuel => ?_⟩
      rw [← Nat.add_assoc, sweep, if_neg (by simp [taken])]
      simp only [atStop, atStart, nil_append]
      rw [← middle, inside, sweep_behind cuts range taken, partBefore, if_neg before]
      rfl

end Sweep

/-- **The sweep** over areas that meet the range. -/
theorem sweep_eq {skip : Vma → Bool}
    (cuts : ∀ v first last, skip { v with start := first, stop := last } = skip v)
    (range : start < stop) (alignedStart : start % pageSize = 0) (alignedStop : stop % pageSize = 0)
    {areas : List Vma} (meets : ∀ v ∈ areas, v.Proper ∧ v.start < stop ∧ start < v.stop)
    {fuel : ℕ} (enough : 3 * areas.length ≤ fuel) :
    sweep skip start stop fuel areas = areas.flatMap (swept skip start stop) := by
  induction areas generalizing fuel with
  | nil => cases fuel <;> rfl
  | cons v areas ih =>
    obtain ⟨proper, meetsV⟩ := meets v mem_cons_self
    obtain ⟨n, small, visits⟩ := sweep_area cuts range alignedStart alignedStop proper meetsV areas
    rw [length_cons] at enough
    obtain ⟨fuel, rfl⟩ : ∃ left, fuel = left + n := ⟨fuel - n, by omega⟩
    rw [visits, ih (fun w mem => meets w (mem_cons_of_mem _ mem)) (by omega), flatMap_cons]

theorem actedRanges_swept (skip : Vma → Bool) (start stop : ℕ) (areas : List Vma) :
    actedRanges (areas.flatMap (swept skip start stop)) = (areas.filter fun v => !skip v).map fun v =>
      ((partInside start stop v).start, (partInside start stop v).size) := by
  have others : ∀ vs : List Vma, (vs.map (·, false)).filter Prod.snd = [] := fun vs =>
    filter_eq_nil_iff.2 fun p mem => by
      obtain ⟨v, -, rfl⟩ := mem_map.1 mem
      exact Bool.false_ne_true
  induction areas with
  | nil => rfl
  | cons v areas ih =>
    rw [actedRanges] at ih
    rw [flatMap_cons, actedRanges, filter_append, map_append, ih, swept]
    cases taken : skip v with
    | true => simp [taken]
    | false => simp [taken, others]

/-- **The sweep of a range** on a well-formed list: the areas that meet the range are cut at its ends,
and those in it are acted on. -/
theorem Wf.sweepRange (wf : s.Wf) (range : UserRange start stop) (skip : Vma → Bool)
    (act : Vma → List Vma)
    (cuts : ∀ v first last, skip { v with start := first, stop := last } = skip v)
    (alignedStart : start % pageSize = 0) (alignedStop : stop % pageSize = 0) :
    ∃ s', s.sweepRange skip act start stop =
      some (s', (s.meeting start stop).flatMap (swept skip start stop)) := by
  obtain ⟨before, areas, after, cut, found⟩ := wf.slice range
  have loop := sweep_eq cuts range.nonempty alignedStart alignedStop cut.meets le_rfl
  rw [Mm.sweepRange, found, cut.meeting_eq]
  simp only [bind_eq_bind, bind_some, cut.between wf, loop]
  exact ⟨_, rfl⟩

end Mm

end MiniOsv.Mmu
