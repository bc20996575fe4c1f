/-
# Mmu.Walks -- walks over ranges, one after the other

`mprotect`, `munmap` and `madvise` make one walk for each area that their range meets.  What
becomes of a leaf is what the walks do to it in their turn (`Root.walkTurns`).

A walk that does not call `page()` for an address leaves its leaf, or the piece of a large
leaf that is for the address (`Part`).  It calls `page()` if its range holds the address
(`Hit`), but for one case: a large page that is not valid and lies only partly in the range
(`Hidden`), because the walker does not split what is not valid.
-/
import MiniOsv.Mmu.SplitLarge

namespace MiniOsv.Mmu

open Mempool (pageSize alignDown alignUp)

open List Mmu.Arch

/-! ## One walk -/

/-- The root of a page table. -/
structure Root (arch : Arch) (root : Table) : Prop where
  node : ∃ sub, root = .node sub
  wf : root.Wf arch 4

/-- Whole pages in the lower half of the address space. -/
structure Whole (start size : ℕ) : Prop where
  first : start % pageSize = 0
  pages : size % pageSize = 0
  pos : 0 < size
  low : start + size ≤ 2 ^ 47

/-- A leaf entry. -/
structure Leaf (arch : Arch) (leaf : ℕ × Pte) : Prop where
  there : leaf.2 ≠ 0
  small : leaf.1 ≤ 1
  huge : leaf.1 = 1 → arch.Huge leaf.2

section Range

variable {arch : Arch} {op : PageOp} {root : Table} {start size : ℕ}

theorem Pages.ofWhole (whole : Whole start size) : Pages start (start + size - 1) := by
  obtain ⟨first, last, pos, -⟩ := whole
  refine ⟨first, ?_, by omega⟩
  simp only [pageSize] at *
  omega

theorem Root.walk (sound : op.Sound arch) (isRoot : Root arch root)
    (whole : Whole start size) :
    Walked arch op 4 0 start (start + size - 1) root (operateRange arch op root start size).1
        (operateRange arch op root start size).2 ∧
      Root arch (operateRange arch op root start size).1 := by
  have pages := Pages.ofWhole whole
  obtain ⟨first, page, pos, low⟩ := whole
  have down : alignDown start pageSize = start :=
    Nat.div_mul_cancel (Nat.dvd_of_mod_eq_zero first)
  have up : max (alignUp size pageSize) pageSize = size := by
    simp only [alignUp, alignDown, Mempool.wrap64, pageSize] at *
    omega
  have walked := mapLevel_walked sound pages (by omega) isRoot.wf (Nat.dvd_zero _)
    (Nat.zero_le _) (show start + size - 1 < 0 + 2 ^ 48 by omega) (.inl isRoot.node)
  rw [operateRange, down, up]
  refine ⟨walked, ?_, walked.wf⟩
  obtain ⟨sub, rfl⟩ := isRoot.node
  exact ⟨_, rfl⟩

theorem blockOf_root {virt : ℕ} (low : virt < 2 ^ 48) : blockOf 4 virt = 0 :=
  (blockOf_eq_iff (Nat.dvd_zero _)).2 ⟨Nat.zero_le _, by rw [Nat.zero_add]; exact low⟩

theorem leafAt_leaf {level virt : ℕ} {node : Table} {leaf : ℕ × Pte} (wf : node.Wf arch level)
    (found : leafAt level node virt = some leaf) : Leaf arch leaf := by
  obtain ⟨-, there, entry⟩ := leafAt_found found
  have entryWf := entry arch wf
  obtain ⟨_ | level, pte⟩ := leaf
  · exact ⟨there, Nat.zero_le 1, fun large => absurd large Nat.zero_ne_one⟩
  · obtain ⟨rfl, huge⟩ := entryWf.resolve_left there
    exact ⟨there, le_rfl, fun _ => huge⟩

/-- A page that the range touches is inside. -/
theorem Pages.inside_zero {lo hi virt : ℕ} (pages : Pages lo hi)
    (touched : Overlaps lo hi virt 0) : Inside lo hi virt 0 := by
  obtain ⟨first, last, -⟩ := pages
  have page := dvd_page (dvd_blockOf 0 virt)
  simp only [Inside, Overlaps, show pageSizeLevel 0 = 4096 from rfl, pageSize] at *
  omega

theorem Inside.mem {lo hi virt level : ℕ} (inside : Inside lo hi virt level) :
    lo ≤ virt ∧ virt ≤ hi := by
  have below := blockOf_le level virt
  have above := lt_blockOf level virt
  exact ⟨inside.1.trans below, by have := inside.2; omega⟩

theorem overlaps_of_mem {lo hi virt : ℕ} (level : ℕ) (mem : lo ≤ virt ∧ virt ≤ hi) :
    Overlaps lo hi virt level :=
  ⟨mem.1.trans_lt (lt_blockOf level virt), (blockOf_le level virt).trans mem.2⟩

end Range

/-! ## What stays of a leaf -/

/-- The same frame and the same permissions. -/
def Same (arch : Arch) (virt : ℕ) (leaf leaf' : ℕ × Pte) : Prop :=
  arch.translate leaf' virt = arch.translate leaf virt ∧ arch.permits leaf'.2 = arch.permits leaf.2

/-- A large page that the walker does not split. -/
def Hidden (leaf : ℕ × Pte) : Prop := leaf.1 = 1 ∧ valid leaf.2 = false

/-- The leaf, or the piece of it for the address. -/
structure Part (arch : Arch) (virt : ℕ) (leaf part : ℕ × Pte) : Prop where
  same : Same arch virt leaf part
  cow : arch.cow part.2 = arch.cow leaf.2
  whole : part = leaf ∨ leaf.1 = 1 ∧ valid leaf.2 = true ∧ part.1 = 0 ∧ valid part.2 = true

theorem ne_zero_of_valid {x : Pte} (valid : valid x = true) : x ≠ 0 := by
  rintro rfl
  exact absurd valid (by decide)

section Part

variable {arch : Arch} {virt : ℕ} {leaf part : ℕ × Pte}

theorem Part.refl (leaf : ℕ × Pte) : Part arch virt leaf leaf := ⟨⟨rfl, rfl⟩, rfl, .inl rfl⟩

theorem Part.hidden (isPart : Part arch virt leaf part) : Hidden part ↔ Hidden leaf := by
  obtain rfl | ⟨one, isValid, zero, -⟩ := isPart.whole
  · rfl
  · simp [Hidden, zero, isValid]

theorem Part.isLeaf (isPart : Part arch virt leaf part) (isLeaf : Leaf arch leaf) :
    Leaf arch part := by
  obtain rfl | ⟨-, -, zero, isValid⟩ := isPart.whole
  · exact isLeaf
  · exact ⟨ne_zero_of_valid isValid, by omega, fun one => absurd one (by omega)⟩

theorem Part.trans {part' : ℕ × Pte} (first : Part arch virt leaf part)
    (second : Part arch virt part part') : Part arch virt leaf part' := by
  refine ⟨⟨second.same.1.trans first.same.1, second.same.2.trans first.same.2⟩,
    second.cow.trans first.cow, ?_⟩
  obtain rfl | ⟨one, isValid, zero, -⟩ := first.whole
  · exact second.whole
  · obtain rfl | ⟨large, -, -, -⟩ := second.whole
    · exact first.whole
    · omega

variable {op : PageOp} {lo hi : ℕ}

theorem cut_part (pages : Pages lo hi) (sizes : 1 ≤ op.nrPageSizes) (isLeaf : Leaf arch leaf) :
    Part arch virt leaf (cut arch op lo hi virt leaf) := by
  unfold cut
  split
  case isFalse => exact .refl leaf
  case isTrue all =>
    obtain ⟨isValid, overlaps, idle⟩ := all
    have one : leaf.1 = 1 := by
      by_contra other
      have zero : leaf.1 = 0 := by have := isLeaf.small; omega
      rw [zero] at overlaps idle
      exact idle ⟨sizes, pages.inside_zero overlaps⟩
    obtain ⟨level, pte⟩ := leaf
    subst one
    have index := ptIndex_lt virt 0
    exact ⟨⟨arch.translate_piece (isLeaf.huge rfl), permits_piece (fun _ => isValid) index⟩,
      cow_piece (fun _ => isValid) index, .inr ⟨rfl, isValid, rfl, arch.piece_valid isValid _⟩⟩

/-- Where `page()` is called for large pages too, it is called for every address of the range, but
for those of a hidden page that is only partly in it. -/
theorem acts_cut_iff (two : op.nrPageSizes = 2) (pages : Pages lo hi) (isLeaf : Leaf arch leaf) :
    Acts op lo hi virt (cut arch op lo hi virt leaf).1 ↔
      (lo ≤ virt ∧ virt ≤ hi) ∧ (Hidden leaf → Inside lo hi virt 1) := by
  have small := isLeaf.small
  constructor
  · intro acts
    refine ⟨acts.2.mem, fun hidden => ?_⟩
    rw [cut, if_neg fun all => by simp [hidden.2] at all, hidden.1] at acts
    exact acts.2
  · rintro ⟨mem, hidden⟩
    have page := pages.inside_zero (overlaps_of_mem 0 mem)
    by_cases acts : Acts op lo hi virt leaf.1
    · rw [cut, if_neg fun all => all.2.2 acts]
      exact acts
    · have one : leaf.1 = 1 := by
        by_contra other
        have zero : leaf.1 = 0 := by omega
        exact acts ⟨by omega, by rw [zero]; exact page⟩
      have isValid : valid leaf.2 = true := by
        by_contra no
        exact acts ⟨by omega, by rw [one]; exact hidden ⟨one, Bool.eq_false_iff.2 no⟩⟩
      rw [cut, if_pos ⟨isValid, overlaps_of_mem _ mem, acts⟩]
      exact ⟨by omega, page⟩

end Part

/-! ## Walks in a row -/

def walkTurns (arch : Arch) (op : PageOp) : List (ℕ × ℕ) → Table → Table × List PageCall
  | [], root => (root, [])
  | turn :: rest, root =>
    let r := operateRange arch op root turn.1 turn.2
    let s := walkTurns arch op rest r.1
    (s.1, r.2 ++ s.2)

/-- What the walks leave of a leaf. -/
def afterTurns (arch : Arch) (op : PageOp) (virt : ℕ) : List (ℕ × ℕ) → ℕ × Pte → Option (ℕ × Pte)
  | [], leaf => some leaf
  | turn :: rest, leaf =>
    (after arch op turn.1 (turn.1 + turn.2 - 1) virt leaf).bind (afterTurns arch op virt rest)

/-- The calls of `page()` for a leaf. -/
def calledTurns (arch : Arch) (op : PageOp) (virt : ℕ) : List (ℕ × ℕ) → ℕ × Pte → List PageCall
  | [], _ => []
  | turn :: rest, leaf =>
    called arch op turn.1 (turn.1 + turn.2 - 1) virt leaf ++
      (after arch op turn.1 (turn.1 + turn.2 - 1) virt leaf).elim [] (calledTurns arch op virt rest)

def In (virt : ℕ) (turn : ℕ × ℕ) : Prop := turn.1 ≤ virt ∧ virt < turn.1 + turn.2

/-- One of the walks calls `page()` for the address, if it does so for large pages. -/
def Hit (turns : List (ℕ × ℕ)) (virt : ℕ) (leaf : ℕ × Pte) : Prop :=
  ∃ turn ∈ turns, In virt turn ∧ (Hidden leaf → Inside turn.1 (turn.1 + turn.2 - 1) virt 1)

section Turns

variable {arch : Arch} {op : PageOp} {turns : List (ℕ × ℕ)} {turn : ℕ × ℕ} {virt : ℕ}
  {leaf part : ℕ × Pte}

theorem hit_cons : Hit (turn :: turns) virt leaf ↔ Hit [turn] virt leaf ∨ Hit turns virt leaf := by
  simp [Hit]

theorem Part.hit (isPart : Part arch virt leaf part) : Hit turns virt part ↔ Hit turns virt leaf := by
  simp only [Hit, isPart.hidden]

/-- **The walks do to each leaf what each of them does to it in turn.** -/
theorem Root.walkTurns (sound : op.Sound arch) {root : Table} (isRoot : Root arch root)
    (whole : ∀ turn ∈ turns, Whole turn.1 turn.2) :
    Root arch (Mmu.walkTurns arch op turns root).1 ∧ ∀ virt < 2 ^ 48,
      leafAt 4 (Mmu.walkTurns arch op turns root).1 virt =
          (leafAt 4 root virt).bind (afterTurns arch op virt turns) ∧
        (Mmu.walkTurns arch op turns root).2.filter (PageCall.covers virt) =
          (leafAt 4 root virt).elim [] (calledTurns arch op virt turns) := by
  induction turns generalizing root with
  | nil =>
    refine ⟨isRoot, fun virt _ => ?_⟩
    change leafAt 4 root virt = _ ∧ [] = _
    cases leafAt 4 root virt <;> exact ⟨rfl, rfl⟩
  | cons turn rest ih =>
    obtain ⟨walked, isRoot₁⟩ := isRoot.walk sound (whole turn mem_cons_self)
    obtain ⟨isRoot₂, effect⟩ := ih isRoot₁ fun t mem => whole t (mem_cons_of_mem _ mem)
    refine ⟨isRoot₂, fun virt low => ?_⟩
    obtain ⟨leaf, calls⟩ := effect virt low
    rw [walked.leaf virt (blockOf_root low)] at leaf calls
    simp only [Mmu.walkTurns, filter_append, leaf, calls, walked.once virt (blockOf_root low)]
    cases leafAt 4 root virt <;> exact ⟨rfl, rfl⟩

variable (op virt) in
/-- One walk of an operation that takes large pages too. -/
theorem after_turn (two : op.nrPageSizes = 2) (whole : Whole turn.1 turn.2)
    (isLeaf : Leaf arch leaf) :
    ∃ part, Part arch virt leaf part ∧
      (Hit [turn] virt leaf ∧ after arch op turn.1 (turn.1 + turn.2 - 1) virt leaf =
            kept part.1 (op.page part.1 part.2) ∧
          called arch op turn.1 (turn.1 + turn.2 - 1) virt leaf =
            [⟨part.1, blockOf part.1 virt, part.2⟩] ∨
        ¬Hit [turn] virt leaf ∧
          after arch op turn.1 (turn.1 + turn.2 - 1) virt leaf = some part ∧
          called arch op turn.1 (turn.1 + turn.2 - 1) virt leaf = []) := by
  have pages := Pages.ofWhole whole
  refine ⟨cut arch op turn.1 (turn.1 + turn.2 - 1) virt leaf, cut_part pages (by omega) isLeaf, ?_⟩
  have hit : Hit [turn] virt leaf ↔
      Acts op turn.1 (turn.1 + turn.2 - 1) virt
        (cut arch op turn.1 (turn.1 + turn.2 - 1) virt leaf).1 := by
    have pos := whole.pos
    rw [acts_cut_iff two pages isLeaf]
    simp only [Hit, mem_singleton, exists_eq_left, In]
    refine and_congr_left' ?_
    omega
  rw [hit]
  by_cases acts : Acts op turn.1 (turn.1 + turn.2 - 1) virt
      (cut arch op turn.1 (turn.1 + turn.2 - 1) virt leaf).1
  · exact .inl ⟨acts, if_pos acts, if_pos acts⟩
  · exact .inr ⟨acts, if_neg acts, if_neg acts⟩

end Turns

/-! ## Pages that go -/

/-- The operation `unpopulate`: `unmap` of an anonymous page clears the entry. -/
def unpopulate : PageOp where
  page _ _ := 0
  releases := true
  nrPageSizes := 2

def splithugepages : PageOp where
  page _ pte := pte
  releases := false
  nrPageSizes := 1

section Operations

variable {arch : Arch} {turns : List (ℕ × ℕ)} {virt : ℕ} {leaf : ℕ × Pte}

theorem unpopulate_sound (arch : Arch) : unpopulate.Sound arch :=
  ⟨⟨Nat.le_succ 1, le_rfl⟩, fun _ _ => .inl rfl, fun _ _ => rfl⟩

theorem splithugepages_sound (arch : Arch) : splithugepages.Sound arch :=
  ⟨⟨le_rfl, Nat.le_succ 1⟩, fun _ large => .inr large, nofun⟩

variable (virt) in
/-- **Walks of `unpopulate`** take away exactly the pages that they hit, each with one call. -/
theorem afterTurns_unpopulate (whole : ∀ turn ∈ turns, Whole turn.1 turn.2)
    (isLeaf : Leaf arch leaf) :
    (Hit turns virt leaf → afterTurns arch unpopulate virt turns leaf = none ∧
        ∃ c, calledTurns arch unpopulate virt turns leaf = [c] ∧
          arch.translate (c.level, c.pte) virt = arch.translate leaf virt) ∧
      (¬Hit turns virt leaf → calledTurns arch unpopulate virt turns leaf = [] ∧
        ∃ part, afterTurns arch unpopulate virt turns leaf = some part ∧
          Part arch virt leaf part) := by
  induction turns generalizing leaf with
  | nil => exact ⟨fun ⟨_, mem, _⟩ => absurd mem not_mem_nil, fun _ => ⟨rfl, leaf, rfl, .refl leaf⟩⟩
  | cons turn rest ih =>
    obtain ⟨part, isPart, taken⟩ := after_turn unpopulate virt rfl (whole turn mem_cons_self)
      isLeaf
    simp only [afterTurns, calledTurns]
    rcases taken with ⟨hit, gone, calls⟩ | ⟨miss, stays, calls⟩ <;> rw [hit_cons]
    · rw [gone, calls]
      exact ⟨fun _ => ⟨rfl, _, rfl, isPart.same.1⟩, fun no => absurd (.inl hit) no⟩
    · obtain ⟨hits, misses⟩ := ih (fun t mem => whole t (mem_cons_of_mem _ mem))
        (isPart.isLeaf isLeaf)
      rw [isPart.hit] at hits misses
      rw [stays, calls, or_iff_right miss]
      refine ⟨fun hit => ?_, fun miss => ?_⟩
      · obtain ⟨gone, c, once, same⟩ := hits hit
        exact ⟨gone, c, once, same.trans isPart.same.1⟩
      · obtain ⟨quiet, part', stays', isPart'⟩ := misses miss
        exact ⟨quiet, part', stays', isPart.trans isPart'⟩

def Splits (turns : List (ℕ × ℕ)) (virt : ℕ) (leaf : ℕ × Pte) : Prop :=
  leaf.1 = 1 ∧ valid leaf.2 = true ∧
    ∃ turn ∈ turns, Overlaps turn.1 (turn.1 + turn.2 - 1) virt 1

theorem splits_cons {turn : ℕ × ℕ} :
    Splits (turn :: turns) virt leaf ↔ Splits [turn] virt leaf ∨ Splits turns virt leaf := by
  simp only [Splits, mem_cons, not_mem_nil, or_false, exists_eq_or_imp, exists_eq_left,
    ← and_or_left]

variable (virt) in
theorem after_splithugepages {turn : ℕ × ℕ} (whole : Whole turn.1 turn.2)
    (isLeaf : Leaf arch leaf) :
    ∃ part, after arch splithugepages turn.1 (turn.1 + turn.2 - 1) virt leaf = some part ∧
      Part arch virt leaf part ∧ (Splits [turn] virt leaf → part.1 = 0) ∧
      (¬Splits [turn] virt leaf → part = leaf) := by
  have isPart : Part arch virt leaf
      (cut arch splithugepages turn.1 (turn.1 + turn.2 - 1) virt leaf) :=
    cut_part (Pages.ofWhole whole) le_rfl isLeaf
  obtain ⟨level, pte⟩ := leaf
  refine ⟨_, ?_, isPart, ?_, fun keep => isPart.whole.resolve_right ?_⟩
  · simp only [after]
    split
    · exact if_neg (isPart.isLeaf isLeaf).there
    · rfl
  · rintro ⟨rfl, isValid, t, mem, overlaps⟩
    obtain rfl := mem_singleton.1 mem
    rw [cut, if_pos ⟨isValid, overlaps, fun acts => absurd acts.1 (lt_irrefl 1)⟩]
  · rintro ⟨rfl, isValid, zero, -⟩
    have apart : ¬Overlaps turn.1 (turn.1 + turn.2 - 1) virt 1 := fun overlaps =>
      keep ⟨rfl, isValid, turn, mem_singleton_self _, overlaps⟩
    rw [cut, if_neg fun all => apart all.2.1] at zero
    exact absurd zero one_ne_zero

variable (virt) in
/-- **Walks of `splithugepages`** split exactly the valid large pages that they touch. -/
theorem afterTurns_splithugepages (whole : ∀ turn ∈ turns, Whole turn.1 turn.2)
    (isLeaf : Leaf arch leaf) :
    ∃ part, afterTurns arch splithugepages virt turns leaf = some part ∧ Part arch virt leaf part ∧
      (Splits turns virt leaf → part.1 = 0) ∧ (¬Splits turns virt leaf → part = leaf) := by
  induction turns generalizing leaf with
  | nil =>
    exact ⟨leaf, rfl, .refl leaf, fun ⟨_, _, _, mem, _⟩ => absurd mem not_mem_nil, fun _ => rfl⟩
  | cons turn rest ih =>
    obtain ⟨part, first, isPart, cuts, keeps⟩ :=
      after_splithugepages virt (whole turn mem_cons_self) isLeaf
    obtain ⟨part', result, isPart', cuts', keeps'⟩ := ih
      (fun t mem => whole t (mem_cons_of_mem _ mem)) (isPart.isLeaf isLeaf)
    refine ⟨part', by rw [afterTurns, first]; exact result, isPart.trans isPart', ?_, ?_⟩ <;>
      rw [splits_cons]
    · intro split
      by_cases here : Splits [turn] virt leaf
      · -- What is small stays small.
        have zero := cuts here
        obtain rfl | ⟨large, -⟩ := isPart'.whole <;> omega
      · exact cuts' (keeps here ▸ split.resolve_left here)
    · intro keep
      obtain ⟨here, later⟩ := not_or.1 keep
      obtain rfl := keeps here
      exact keeps' later

end Operations

end MiniOsv.Mmu
