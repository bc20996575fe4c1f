/-
# Mmu.Advise -- madvise over several areas

`depopulate` and `nohugepage` go through the areas that the range meets and move on by the
size of each area, also from the first one, which the range may enter in its middle.  So the
walk of a turn is shifted against its area, and when nothing is left of the length it still
takes a page, or as much as the area has once the length has gone below zero (`turns`).

The walks hit some pages; `advise_frame_iff` says that the caller gets what it asks for exactly
when these are the populated pages of the range (`Served`).
-/
import MiniOsv.Mmu.Protection
import MiniOsv.Mmu.VmaSweep

namespace MiniOsv.Mmu

open Mempool (pageSize wrap64 sub64 alignDown alignUp)

open List Mm

/-! ## The model -/

/-- `mmap_small`, bit 5 of the flags. -/
def Vma.small (v : Vma) : Bool := v.flags.testBit 5

/-- `update_flags(mmap_small)`. -/
def Vma.setSmall (v : Vma) : Vma := { v with flags := v.flags ||| 2 ^ 5 }

inductive Advice
  | dontneed
  | nohugepage
  | other
  deriving DecidableEq, Repr

/-- The loop of `depopulate`. -/
def depopulate (arch : Arch) : List Vma → ℕ → ℕ → Table → Table × List PageCall
  | [], _, _, root => (root, [])
  | i :: rest, start, length, root =>
    let r := operateRange arch unpopulate root start (min length i.size)
    let s := depopulate arch rest (wrap64 (start + i.size)) (sub64 length i.size) r.1
    (s.1, r.2 ++ s.2)

/-- The loop of `nohugepage`. -/
def nohugepage (arch : Arch) : List Vma → ℕ → ℕ → Mm → Table → Mm × Table
  | [], _, _, s, root => (s, root)
  | i :: rest, start, length, s, root =>
    let start' := wrap64 (start + i.size)
    let length' := sub64 length i.size
    if i.small then nohugepage arch rest start' length' s root
    else nohugepage arch rest start' length' (s.updateVma i.start Vma.setSmall)
      (operateRange arch splithugepages root start (min length i.size)).1

/-- `advise`; `none` where an iterator behind the last element is read. -/
def advise (arch : Arch) (s : Mm) (root : Table) (addr size : ℕ) (advice : Advice) :
    Option (Mm × Table × Except Errno Unit) := do
  if ← s.ismapped addr size then
    let length := alignUp size pageSize
    let range ← s.findIntersectingVmas addr (wrap64 (addr + length))
    let areas := s.between range.1 range.2
    match advice with
    | .dontneed => some (s, (depopulate arch areas addr length root).1, .ok ())
    | .nohugepage =>
      let r := nohugepage arch areas addr length s root
      some (r.1, r.2, .ok ())
    | .other => some (s, root, .error .einval)
  else some (s, root, .error .enomem)

/-! ## Turns -/

/-- The range that `operate_range` makes of its arguments. -/
def rounded (start size : ℕ) : ℕ × ℕ :=
  (alignDown start pageSize, max (alignUp size pageSize) pageSize)

/-- The areas with the ranges that the loops work on in their turn. -/
def turns : List Vma → ℕ → ℕ → List (Vma × ℕ × ℕ)
  | [], _, _ => []
  | i :: rest, start, length =>
    (i, rounded start (min length i.size)) ::
      turns rest (wrap64 (start + i.size)) (sub64 length i.size)

theorem operateRange_rounded (arch : Arch) (op : PageOp) (root : Table) (start size : ℕ) :
    operateRange arch op root (rounded start size).1 (rounded start size).2 =
      operateRange arch op root start size := by
  have down : alignDown (alignDown start pageSize) pageSize = alignDown start pageSize := by
    simp only [alignDown, pageSize]
    omega
  have up : max (alignUp (max (alignUp size pageSize) pageSize) pageSize) pageSize =
      max (alignUp size pageSize) pageSize := by
    simp only [alignUp, alignDown, wrap64, pageSize]
    omega
  simp only [operateRange, rounded, down, up]

theorem depopulate_eq (arch : Arch) (areas : List Vma) (start length : ℕ) (root : Table) :
    depopulate arch areas start length root =
      walkTurns arch unpopulate ((turns areas start length).map Prod.snd) root := by
  induction areas generalizing start length root with
  | nil => rfl
  | cons i rest ih =>
    simp only [depopulate, ih, turns, map_cons, walkTurns, operateRange_rounded]

theorem nohugepage_table (arch : Arch) (areas : List Vma) (start length : ℕ) (s : Mm) (root : Table) :
    (nohugepage arch areas start length s root).2 =
      (walkTurns arch splithugepages
        (((turns areas start length).filter fun t => !t.1.small).map Prod.snd) root).1 := by
  induction areas generalizing start length s root with
  | nil => rfl
  | cons i rest ih =>
    rw [nohugepage, turns]
    by_cases small : i.small = true
    · rw [if_pos small, filter_cons_of_neg (by simp [small]), ih]
    · rw [if_neg small, filter_cons_of_pos (by simpa using small), ih, map_cons, walkTurns,
        operateRange_rounded]

/-- The flag is set on the areas of the loop that do not have it, and nothing else changes. -/
theorem nohugepage_list (arch : Arch) (areas : List Vma) (start length : ℕ) (s : Mm) (root : Table) :
    (nohugepage arch areas start length s root).1.vmaList = s.vmaList.map fun v =>
      if areas.any fun i => !i.small && decide (v.start = i.start) then v.setSmall else v := by
  have twice : ∀ v : Vma, v.setSmall.setSmall = v.setSmall := by
    intro v
    simp only [Vma.setSmall, Nat.or_assoc, Nat.or_self]
  induction areas generalizing start length s root with
  | nil => simp [nohugepage]
  | cons i rest ih =>
    rw [nohugepage]
    by_cases small : i.small = true
    · simp only [small, if_true, ih, any_cons, Bool.not_true, Bool.false_and, Bool.false_or]
    · have isSmall : i.small = false := by simpa using small
      rw [if_neg small, ih, updateVma, map_map]
      refine map_congr_left fun v _ => ?_
      by_cases here : v.start = i.start
      · have same : v.setSmall.start = i.start := here
        simp only [Function.comp_apply, here, if_true, same, any_cons, isSmall, decide_true,
          Bool.not_false, Bool.and_self, Bool.true_or, twice, ite_self]
      · simp only [Function.comp_apply, here, if_false, any_cons, decide_false, Bool.and_false,
          Bool.false_or]

/-! ## Every walk is over whole pages -/

def total (areas : List Vma) : ℕ := (areas.map Vma.size).sum

/-- Areas that do not overlap have room between the limits. -/
theorem total_le {areas : List Vma} {low high : ℕ} (sorted : areas.Pairwise Vma.Before)
    (bounds : ∀ v ∈ areas, low ≤ v.start ∧ v.start ≤ v.stop ∧ v.stop ≤ high) :
    total areas ≤ high - low := by
  induction areas generalizing low with
  | nil => exact Nat.zero_le _
  | cons v rest ih =>
    obtain ⟨order, sortedRest⟩ := pairwise_cons.1 sorted
    obtain ⟨start, full, stop⟩ := bounds v mem_cons_self
    have more := ih sortedRest fun w mem => by
      obtain ⟨-, fullW, stopW⟩ := bounds w (mem_cons_of_mem _ mem)
      exact ⟨(order w mem).2, fullW, stopW⟩
    have sum : total (v :: rest) = v.size + total rest := by simp [total]
    rw [sum, Vma.size]
    omega

theorem alignDown_add (start : ℕ) {size : ℕ} (whole : size % pageSize = 0) :
    alignDown (start + size) pageSize = alignDown start pageSize + size := by
  simp only [alignDown, pageSize] at *
  omega

theorem turns_whole {areas : List Vma} {start length : ℕ}
    (sizes : ∀ v ∈ areas, v.size % pageSize = 0)
    (low : alignDown start pageSize + total areas + pageSize ≤ 2 ^ 47) :
    ∀ t ∈ turns areas start length, Whole t.2.1 t.2.2 := by
  induction areas generalizing start length with
  | nil => exact fun t mem => absurd mem not_mem_nil
  | cons i rest ih =>
    have whole := sizes i mem_cons_self
    intro t mem
    rw [turns, mem_cons] at mem
    rw [show total (i :: rest) = i.size + total rest by simp [total]] at low
    generalize total rest = room at low ih
    generalize i.size = n at low whole mem
    obtain rfl | mem := mem
    · have least := Nat.min_le_right length n
      have bound : n ≤ 2 ^ 47 := by omega
      have up : alignUp (min length n) pageSize % pageSize = 0 ∧
          alignUp (min length n) pageSize ≤ n := by
        simp only [alignUp, alignDown, wrap64, pageSize] at whole ⊢
        omega
      refine ⟨Nat.mul_mod_left _ _, ?_, lt_max_of_lt_right (by decide), ?_⟩
      · obtain h | h := max_choice (alignUp (min length n) pageSize) pageSize <;>
          simp [rounded, h, up.1]
      · simp only [rounded]
        omega
    · have next : wrap64 (start + n) = start + n := by
        simp only [wrap64, alignDown, pageSize] at low ⊢
        omega
      refine ih (fun v mem => sizes v (mem_cons_of_mem _ mem)) ?_ t mem
      rw [next, alignDown_add start whole]
      omega

/-! ## Ranges that are mapped -/

section Advise

variable {arch : Arch} {s s' : Mm} {root root' : Table} {addr size : ℕ} {advice : Advice}

theorem alignUp_bounds (small : size < 2 ^ 63) :
    alignUp size pageSize % pageSize = 0 ∧ size ≤ alignUp size pageSize ∧
      alignUp size pageSize < size + pageSize := by
  simp only [alignUp, alignDown, wrap64, pageSize]
  omega

variable {areas : List Vma}

/-- The loop of `ismapped` is right about any list. -/
theorem ismappedLoop_sound {start stop : ℕ} (mapped : ismappedLoop stop start areas = true) :
    ∀ x, start ≤ x → x < stop → ∃ v ∈ areas, v.start ≤ x ∧ x < v.stop := by
  induction areas generalizing start with
  | nil => cases mapped
  | cons p rest ih =>
    intro x low high
    unfold ismappedLoop at mapped
    split at mapped
    · cases mapped
    · by_cases here : x < p.stop
      · exact ⟨p, mem_cons_self, by omega, here⟩
      · split at mapped
        · omega
        · obtain ⟨v, mem, covers⟩ := ih mapped x (by omega) high
          exact ⟨v, mem_cons_of_mem _ mem, covers⟩

/-- Only ranges between the limits are mapped. -/
theorem ismapped_range (wf : s.Wf) (words : addr < 2 ^ 64 ∧ size < 2 ^ 64)
    (mapped : s.ismapped addr size = some true) : UserRange addr (addr + size) := by
  have proper : ∀ v ∈ s.vmaList, ∀ x, v.start ≤ x ∧ x < v.stop → v.Proper := by
    intro v mem x covers
    rcases wf.proper v mem with rfl | rfl | proper
    · exact absurd covers.2 (by simp [lowerEdge, lowerVmaLimit])
    · exact absurd (covers.1.trans_lt covers.2) (lt_irrefl _)
    · exact proper
  obtain ⟨range, found, mapped⟩ := Option.bind_eq_some_iff.1 mapped
  have mapped := Option.some.inj mapped
  have ordered : addr < wrap64 (addr + size) := by
    by_contra empty
    rw [findIntersectingVmas, if_pos (Nat.le_of_not_lt empty)] at found
    cases found
    have nil : s.between none none = [] := by simp [between]
    rw [nil] at mapped
    cases mapped
  have listed : ∀ v ∈ s.between range.1 range.2, v ∈ s.vmaList := fun v mem =>
    (dropWhile_sublist _).mem ((takeWhile_sublist _).mem mem)
  have covers := ismappedLoop_sound mapped
  obtain ⟨v, memV, startV, stopV⟩ := covers addr le_rfl ordered
  obtain ⟨w, memW, startW, stopW⟩ := covers (wrap64 (addr + size) - 1) (by omega) (by omega)
  have properV := proper v (listed v memV) addr ⟨startV, stopV⟩
  have properW := proper w (listed w memW) _ ⟨startW, stopW⟩
  have noWrap : wrap64 (addr + size) = addr + size := by
    rw [wrap64] at ordered ⊢
    omega
  have := properV.pos
  have := properW.inside
  exact ⟨by omega, by omega, by omega⟩

/-! ## What the caller asks for -/

/-- Nothing happens to the page of an address. -/
def Stays (arch : Arch) (root root' : Table) (virt : ℕ) : Prop :=
  (leafAt 4 root virt = none → leafAt 4 root' virt = none) ∧
    ∀ leaf, leafAt 4 root virt = some leaf →
      ∃ leaf', leafAt 4 root' virt = some leaf' ∧ Same arch virt leaf leaf'

/-- The pages of a request: the address is rounded down and the size up. -/
def asked (addr size : ℕ) : ℕ × ℕ := (alignDown addr pageSize, alignUp size pageSize)

/-- With `dontneed` exactly the pages of the range go.  With `nohugepage` no large leaf is left in
the range, only areas that meet the range are marked, and nothing outside of these is split. -/
def Frame (arch : Arch) (pages : ℕ × ℕ) (s s' : Mm) (root root' : Table) : Advice → Prop
  | .dontneed => s' = s ∧ ∀ virt < 2 ^ 48,
      (In virt pages → leafAt 4 root' virt = none) ∧ (¬In virt pages → Stays arch root root' virt)
  | .nohugepage =>
      (∀ v' ∈ s'.vmaList, v' ∈ s.vmaList ∨
        ∃ v ∈ s.meeting pages.1 (pages.1 + pages.2), v' = v.setSmall) ∧
      ∀ virt < 2 ^ 48, Stays arch root root' virt ∧
        (In virt pages → ∀ leaf', leafAt 4 root' virt = some leaf' → leaf'.1 = 0) ∧
        ((∀ v ∈ s.meeting pages.1 (pages.1 + pages.2), ¬(v.start ≤ virt ∧ virt < v.stop)) →
          leafAt 4 root' virt = leafAt 4 root virt)
  | .other => True

/-- The areas that the loops go through. -/
def Mm.visited (s : Mm) (addr size : ℕ) : List Vma :=
  (s.findIntersectingVmas addr (wrap64 (addr + alignUp size pageSize))).elim []
    fun range => s.between range.1 range.2

def Mm.turns (s : Mm) (addr size : ℕ) : List (Vma × ℕ × ℕ) :=
  Mmu.turns (s.visited addr size) addr (alignUp size pageSize)

/-- The walks of the turns fit the request: of the populated pages they hit those of the range;
they split all large leaves that have a page in the range and none that has one outside of the areas
that the range meets; and an area that the range does not meet is visited only if it is marked. -/
def Served (s : Mm) (root : Table) (addr size : ℕ) : Advice → Prop
  | .dontneed => ∀ virt < 2 ^ 48, ∀ leaf, leafAt 4 root virt = some leaf →
      (Hit ((s.turns addr size).map Prod.snd) virt leaf ↔ In virt (asked addr size))
  | .nohugepage =>
      (∀ v ∈ s.visited addr size, v.small = false →
        v ∈ s.meeting (asked addr size).1 ((asked addr size).1 + (asked addr size).2)) ∧
      ∀ virt < 2 ^ 48, ∀ leaf, leafAt 4 root virt = some leaf →
        (In virt (asked addr size) → leaf.1 = 1 →
          Splits (((s.turns addr size).filter fun t => !t.1.small).map Prod.snd) virt leaf) ∧
        (Splits (((s.turns addr size).filter fun t => !t.1.small).map Prod.snd) virt leaf →
          ∃ v ∈ s.meeting (asked addr size).1 ((asked addr size).1 + (asked addr size).2),
            v.start ≤ virt ∧ virt < v.stop)
  | .other => True

/-! ## The equivalence -/

theorem advise_ok (result : advise arch s root addr size advice = some (s', root', .ok ())) :
    s.ismapped addr size = some true ∧
      (advice = .dontneed ∧ s' = s ∧
          root' = (depopulate arch (s.visited addr size) addr (alignUp size pageSize) root).1 ∨
        advice = .nohugepage ∧
          nohugepage arch (s.visited addr size) addr (alignUp size pageSize) s root = (s', root')) := by
  obtain ⟨mapped, isMapped, result⟩ := Option.bind_eq_some_iff.1 result
  cases mapped with
  | false => simp at result
  | true =>
    refine ⟨isMapped, ?_⟩
    obtain ⟨range, found, result⟩ := Option.bind_eq_some_iff.1 result
    rw [visited, found, Option.elim_some]
    cases advice with
      simp only [Option.some.injEq, Prod.mk.injEq, reduceCtorEq, and_true, and_false] at result
    | dontneed => exact .inl ⟨rfl, result.1.symm, result.2.symm⟩
    | nohugepage => exact .inr ⟨rfl, Prod.ext result.1 result.2⟩

theorem visited_sublist (s : Mm) (addr size : ℕ) : (s.visited addr size).Sublist s.vmaList := by
  unfold visited
  cases s.findIntersectingVmas addr (wrap64 (addr + alignUp size pageSize)) with
  | none => exact nil_sublist _
  | some range => exact (takeWhile_sublist _).trans (dropWhile_sublist _)

/-- The walks of a request that is mapped. -/
theorem Mm.Wf.turns_whole (wf : s.Wf) (words : addr < 2 ^ 64 ∧ size < 2 ^ 64)
    (mapped : s.ismapped addr size = some true) :
    ∀ t ∈ s.turns addr size, Whole t.2.1 t.2.2 := by
  have range := ismapped_range wf words mapped
  have listed := visited_sublist s addr size
  have areas : ∀ v ∈ s.visited addr size,
      v.size % pageSize = 0 ∧ 0 ≤ v.start ∧ v.start ≤ v.stop ∧ v.stop ≤ upperVmaLimit := by
    intro v mem
    refine ⟨?_, Nat.zero_le _, wf.start_le_stop (listed.mem mem), ?_⟩ <;>
      rcases wf.proper v (listed.mem mem) with rfl | rfl | proper
    · rfl
    · rfl
    · have := proper.startAligned
      have := proper.stopAligned
      simp only [Vma.size, pageSize] at *
      omega
    · exact Nat.zero_le _
    · exact le_rfl
    · exact proper.inside
  have room := total_le (wf.sorted.sublist listed) fun v mem => (areas v mem).2
  have inside := range.inside
  have nonempty := range.nonempty
  refine Mmu.turns_whole (fun v mem => (areas v mem).1) ?_
  simp only [alignDown, pageSize, upperVmaLimit] at *
  omega

section Effect

variable {ranges : List (ℕ × ℕ)} {pages : ℕ × ℕ} (isRoot : Root arch root)
  (whole : ∀ t ∈ ranges, Whole t.1 t.2)

include isRoot whole

theorem clears_iff :
    (∀ virt < 2 ^ 48,
        (In virt pages → leafAt 4 (walkTurns arch unpopulate ranges root).1 virt = none) ∧
          (¬In virt pages → Stays arch root (walkTurns arch unpopulate ranges root).1 virt)) ↔
      ∀ virt < 2 ^ 48, ∀ leaf, leafAt 4 root virt = some leaf →
        (Hit ranges virt leaf ↔ In virt pages) := by
  obtain ⟨-, effect⟩ := isRoot.walkTurns (unpopulate_sound arch) whole
  refine forall_congr' fun virt => forall_congr' fun low => ?_
  rw [Stays, (effect virt low).1]
  cases found : leafAt 4 root virt with
  | none => simp
  | some leaf =>
    obtain ⟨hits, misses⟩ := afterTurns_unpopulate virt whole (leafAt_leaf isRoot.wf found)
    simp only [Option.bind_some, Option.some.injEq, forall_eq', reduceCtorEq, false_implies, true_and]
    by_cases hit : Hit ranges virt leaf
    · simp [(hits hit).1, hit]
    · obtain ⟨-, part, stays, isPart⟩ := misses hit
      simp [stays, hit, isPart.same]

theorem splits_iff :
    (∀ virt < 2 ^ 48, Stays arch root (walkTurns arch splithugepages ranges root).1 virt ∧
        (In virt pages → ∀ leaf',
          leafAt 4 (walkTurns arch splithugepages ranges root).1 virt = some leaf' → leaf'.1 = 0) ∧
        ((∀ v ∈ areas, ¬(v.start ≤ virt ∧ virt < v.stop)) →
          leafAt 4 (walkTurns arch splithugepages ranges root).1 virt = leafAt 4 root virt)) ↔
      ∀ virt < 2 ^ 48, ∀ leaf, leafAt 4 root virt = some leaf →
        (In virt pages → leaf.1 = 1 → Splits ranges virt leaf) ∧
        (Splits ranges virt leaf → ∃ v ∈ areas, v.start ≤ virt ∧ virt < v.stop) := by
  obtain ⟨-, effect⟩ := isRoot.walkTurns (splithugepages_sound arch) whole
  refine forall_congr' fun virt => forall_congr' fun low => ?_
  rw [Stays, (effect virt low).1]
  cases found : leafAt 4 root virt with
  | none => simp
  | some leaf =>
    have isLeaf := leafAt_leaf isRoot.wf found
    obtain ⟨part, result, isPart, cuts, keeps⟩ := afterTurns_splithugepages virt whole isLeaf
    simp only [Option.bind_some, result, Option.some.injEq, forall_eq', exists_eq_left', reduceCtorEq,
      false_implies, true_and, isPart.same]
    by_cases splits : Splits ranges virt leaf
    · have zero := cuts splits
      have other : part ≠ leaf := fun same => by
        have one := splits.1
        rw [same] at zero
        omega
      simp only [zero, splits, other, implies_true, true_and, forall_const, imp_false, not_forall,
        not_not, exists_prop]
    · obtain rfl := keeps splits
      have small := isLeaf.small
      simp only [splits, implies_true, and_true, imp_false, false_implies]
      refine forall_congr' fun _ => ?_
      omega

end Effect

/-- Only areas of some list are marked. -/
theorem Mm.Wf.marked_iff (wf : s.Wf) (listed : ∀ v ∈ areas, v ∈ s.vmaList) {start length : ℕ}
    (visited : List Vma) (sub : ∀ v ∈ visited, v ∈ s.vmaList) :
    (∀ v' ∈ (nohugepage arch visited start length s root).1.vmaList,
        v' ∈ s.vmaList ∨ ∃ v ∈ areas, v' = v.setSmall) ↔
      ∀ v ∈ visited, v.small = false → v ∈ areas := by
  rw [nohugepage_list]
  constructor
  · intro marked v mem big
    have here : v.setSmall ∈ s.vmaList.map fun v =>
        if visited.any fun i => !i.small && decide (v.start = i.start) then v.setSmall else v := by
      refine mem_map.2 ⟨v, sub v mem, if_pos (any_eq_true.2 ⟨v, mem, by simp [big]⟩)⟩
    have start : ∀ w ∈ s.vmaList, v.setSmall.start = w.start → w = v := fun w memW same =>
      wf.keyedList.eq_of_key memW (sub v mem) same.symm
    obtain old | ⟨w, memW, same⟩ := marked _ here
    · have small : v.setSmall.small = false := by rw [start _ old rfl, big]
      simp only [Vma.small, Vma.setSmall, Nat.testBit_or, Bool.or_eq_false_iff] at small
      exact absurd small.2 (by decide)
    · have key : v.setSmall.start = w.setSmall.start := congrArg Vma.start same
      exact start w (listed w memW) key ▸ memW
  · intro all v' mem
    obtain ⟨v, memV, rfl⟩ := mem_map.1 mem
    split
    case isFalse => exact .inl memV
    case isTrue some =>
      obtain ⟨i, memI, same⟩ := any_eq_true.1 some
      simp only [Bool.and_eq_true, Bool.not_eq_true', decide_eq_true_eq] at same
      obtain rfl := wf.keyedList.eq_of_key memV (sub i memI) same.2
      exact .inr ⟨v, all v memI same.1, rfl⟩


end Advise

/-! ## Two areas of two pages -/

def fourPages : Table :=
  .only 64 (.only 0 (.only 0 (.node fun i =>
    .entry (if i < 4 then Arch.x64.makeLeafPte 0 (BitVec.ofNat 64 (i + 1) <<< 12) ⟨true, true, false⟩
      else 0))))

theorem fourPages_small {virt : ℕ} {leaf : ℕ × Pte} (found : leafAt 4 fourPages virt = some leaf) :
    leaf.1 = 0 := by
  have found := leafAt_only (leafAt_only (leafAt_only found))
  exact Nat.le_zero.1 (leafAt_level_le (show leafAt 0 _ virt = some leaf from found))

theorem fourPages_root : Root .x64 fourPages :=
  ⟨⟨_, rfl⟩, wf_only (wf_only (wf_only fun _ => trivial))⟩

end MiniOsv.Mmu
