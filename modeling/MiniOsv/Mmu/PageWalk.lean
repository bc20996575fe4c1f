/-
# Mmu.PageWalk -- what a walk does, address by address

For one address a walk over `[lo, hi]` splits the large page that maps it if the range
takes only a part of it, and then calls `page()` on the leaf entry if the range holds all of
it.  `cut` and `after` say this for one leaf, and `mapLevel_walked` says that the walk does
exactly this to every leaf, with exactly one call for each leaf that it acts on.
-/
import Mathlib.Tactic.Ring
import MiniOsv.Mmu.PageTable

namespace MiniOsv.Mmu

open Mempool (pageSize)

open Function List Nat Option

/-! ## Blocks -/

theorem pageSizeLevel_pos (level : ℕ) : 0 < pageSizeLevel level := Nat.two_pow_pos _

theorem pageSizeLevel_succ (level : ℕ) : pageSizeLevel (level + 1) = pageSizeLevel level * 512 := by
  rw [pageSizeLevel, pageSizeLevel, show 12 + 9 * (level + 1) = 12 + 9 * level + 9 by ring, pow_add]
  rfl

theorem pageSizeLevel_dvd {j k : ℕ} (le : j ≤ k) : pageSizeLevel j ∣ pageSizeLevel k :=
  pow_dvd_pow 2 (by omega)

def blockOf (level virt : ℕ) : ℕ := virt / pageSizeLevel level * pageSizeLevel level

theorem blockOf_le (level virt : ℕ) : blockOf level virt ≤ virt := div_mul_le_self _ _

theorem lt_blockOf (level virt : ℕ) : virt < blockOf level virt + pageSizeLevel level := by
  have := div_add_mod virt (pageSizeLevel level)
  have := mod_lt virt (pageSizeLevel_pos level)
  rw [mul_comm] at *
  rw [blockOf]
  omega

theorem blockOf_eq_iff {level virt base : ℕ} (aligned : pageSizeLevel level ∣ base) :
    blockOf level virt = base ↔ base ≤ virt ∧ virt < base + pageSizeLevel level := by
  constructor
  · rintro rfl
    exact ⟨blockOf_le level virt, lt_blockOf level virt⟩
  · rintro ⟨low, high⟩
    obtain ⟨m, rfl⟩ := aligned
    have : virt / pageSizeLevel level = m := by
      refine Nat.div_eq_of_lt_le ?_ ?_
      · rw [Nat.mul_comm]
        exact low
      · rw [Nat.add_mul, Nat.one_mul, Nat.mul_comm m]
        exact high
    rw [blockOf, this, mul_comm]

theorem dvd_blockOf (level virt : ℕ) : pageSizeLevel level ∣ blockOf level virt :=
  dvd_mul_left _ _

/-- A block of a lower level lies in the block of the higher one. -/
theorem blockOf_mono {j k : ℕ} (le : j ≤ k) (virt : ℕ) :
    blockOf k virt ≤ blockOf j virt ∧
      blockOf j virt + pageSizeLevel j ≤ blockOf k virt + pageSizeLevel k := by
  obtain ⟨m, same⟩ := pageSizeLevel_dvd le
  have low := blockOf_le k virt
  have high := lt_blockOf k virt
  have pos := pageSizeLevel_pos j
  constructor
  · have : virt / pageSizeLevel k * m ≤ virt / pageSizeLevel j := by
      rw [le_div_iff_mul_le pos]
      calc virt / pageSizeLevel k * m * pageSizeLevel j
          = virt / pageSizeLevel k * pageSizeLevel k := by rw [same]; ring
        _ ≤ virt := low
    calc blockOf k virt = virt / pageSizeLevel k * m * pageSizeLevel j := by
          rw [blockOf, same]; ring
      _ ≤ _ := mul_le_mul_right _ this
  · have : virt / pageSizeLevel j < (virt / pageSizeLevel k + 1) * m := by
      rw [div_lt_iff_lt_mul pos]
      calc virt < blockOf k virt + pageSizeLevel k := high
        _ = (virt / pageSizeLevel k + 1) * m * pageSizeLevel j := by rw [blockOf, same]; ring
    calc blockOf j virt + pageSizeLevel j
        = (virt / pageSizeLevel j + 1) * pageSizeLevel j := by rw [blockOf]; ring
      _ ≤ (virt / pageSizeLevel k + 1) * m * pageSizeLevel j := mul_le_mul_right _ this
      _ = _ := by rw [blockOf, same]; ring

theorem blockOf_blockOf {j k : ℕ} (le : j ≤ k) (virt : ℕ) :
    blockOf k (blockOf j virt) = blockOf k virt := by
  obtain ⟨low, high⟩ := blockOf_mono le virt
  have pos := pageSizeLevel_pos j
  exact (blockOf_eq_iff (dvd_blockOf k virt)).2 ⟨low, by omega⟩

theorem blockOf_succ (level virt : ℕ) :
    blockOf level virt = blockOf (level + 1) virt + ptIndex virt level * pageSizeLevel level := by
  have split := Nat.div_add_mod (virt / pageSizeLevel level) 512
  rw [Nat.div_div_eq_div_mul, ← pageSizeLevel_succ] at split
  calc blockOf level virt
      = (512 * (virt / pageSizeLevel (level + 1)) + ptIndex virt level) * pageSizeLevel level := by
        rw [ptIndex, split, blockOf]
    _ = _ := by rw [blockOf, pageSizeLevel_succ]; ring

theorem dvd_page {level base : ℕ} (aligned : pageSizeLevel level ∣ base) : base % pageSize = 0 :=
  mod_eq_zero_of_dvd (dvd_trans (pageSizeLevel_dvd (j := 0) (zero_le level)) aligned)

/-! ## Bits -/

theorem getLsbD_setBit (x : Pte) {nr : ℕ} (small : nr < 64) (v : Bool) (j : ℕ) :
    (setBit x nr v).getLsbD j = if j = nr then v else x.getLsbD j := by
  by_cases inWord : j < 64
  · by_cases same : j = nr
    · subst same
      cases v <;> simp [setBit, inWord]
    · rw [if_neg same]
      by_cases below : j < nr
      · simp [setBit, inWord, below]
      · have above : j - nr ≠ 0 := by omega
        cases v <;> simp [setBit, inWord, below, above]
  · have outside : 64 ≤ j := Nat.le_of_not_lt inWord
    rw [if_neg (by omega), BitVec.getLsbD_of_ge _ _ outside, BitVec.getLsbD_of_ge _ _ outside]

theorem Arch.piece_valid (arch : Arch) {pte : Pte} (valid : Arch.valid pte = true) (i : ℕ) :
    Arch.valid (arch.piece pte i) = true := by
  rw [Arch.valid] at valid ⊢
  cases arch with
  | x64 =>
    have org : (setBit pte 7 false).getLsbD 0 = true := by
      rw [getLsbD_setBit _ (by decide), if_neg (by decide), valid]
    simp only [Arch.piece, Arch.setAddr, Arch.setLarge, BitVec.getLsbD_or, BitVec.getLsbD_and, org]
    rfl
  | aarch64 => simp [Arch.piece, Arch.setAddr]

/-! ## One leaf -/

section Leaf

variable (arch : Arch) (op : PageOp) (lo hi virt : ℕ)

def Inside (level : ℕ) : Prop :=
  lo ≤ blockOf level virt ∧ blockOf level virt + pageSizeLevel level ≤ hi + 1

def Overlaps (level : ℕ) : Prop :=
  lo < blockOf level virt + pageSizeLevel level ∧ blockOf level virt ≤ hi

instance (level : ℕ) : Decidable (Inside lo hi virt level) := inferInstanceAs (Decidable (_ ∧ _))

instance (level : ℕ) : Decidable (Overlaps lo hi virt level) :=
  inferInstanceAs (Decidable (_ ∧ _))

def Acts (level : ℕ) : Prop := level < op.nrPageSizes ∧ Inside lo hi virt level

instance (level : ℕ) : Decidable (Acts op lo hi virt level) := inferInstanceAs (Decidable (_ ∧ _))

/-- The leaf when the large page has been split, if it has to be. -/
def cut (leaf : ℕ × Pte) : ℕ × Pte :=
  if Arch.valid leaf.2 ∧ Overlaps lo hi virt leaf.1 ∧ ¬Acts op lo hi virt leaf.1 then
    (0, arch.piece leaf.2 (ptIndex virt 0))
  else leaf

/-- A leaf with an empty word is none. -/
def kept (level : ℕ) (pte : Pte) : Option (ℕ × Pte) := if pte = 0 then none else some (level, pte)

def after (leaf : ℕ × Pte) : Option (ℕ × Pte) :=
  let l := cut arch op lo hi virt leaf
  if Acts op lo hi virt l.1 then kept l.1 (op.page l.1 l.2) else some l

/-- The calls of `page()` for the leaf. -/
def called (leaf : ℕ × Pte) : List PageCall :=
  let l := cut arch op lo hi virt leaf
  if Acts op lo hi virt l.1 then [⟨l.1, blockOf l.1 virt, l.2⟩] else []

end Leaf

def PageCall.covers (virt : ℕ) (c : PageCall) : Bool := blockOf c.level virt = c.base

section Restrict

variable {arch : Arch} {op : PageOp} {lo hi virt level : ℕ} {leaf : ℕ × Pte}

theorem overlaps_of_inside (le : Inside lo hi virt level) : Overlaps lo hi virt level := by
  have pos := pageSizeLevel_pos level
  exact ⟨by have := le.1; omega, by have := le.2; omega⟩

theorem Overlaps.mono {j : ℕ} (le : j ≤ level) (overlaps : Overlaps lo hi virt j) :
    Overlaps lo hi virt level := by
  obtain ⟨low, high⟩ := blockOf_mono le virt
  exact ⟨by have := overlaps.1; omega, by have := overlaps.2; omega⟩

/-- Nothing changes for a leaf that the range does not touch. -/
theorem after_of_not_overlaps (le : leaf.1 ≤ level) (apart : ¬Overlaps lo hi virt level) :
    after arch op lo hi virt leaf = some leaf ∧ called arch op lo hi virt leaf = [] := by
  have apart' : ¬Overlaps lo hi virt leaf.1 := fun overlaps => apart (overlaps.mono le)
  have same : cut arch op lo hi virt leaf = leaf := if_neg fun all => apart' all.2.1
  have idle : ¬Acts op lo hi virt leaf.1 := fun acts => apart' (overlaps_of_inside acts.2)
  simp only [after, called, same, if_neg idle, and_self]

section

variable {lo' hi' : ℕ} (first : lo' = max lo (blockOf level virt))
  (last : hi' = min hi (blockOf level virt + pageSizeLevel level - 1))

include first last

/-- Below a block only the part of the range in the block matters. -/
theorem restrict_iff {j : ℕ} (le : j ≤ level) :
    (Inside lo' hi' virt j ↔ Inside lo hi virt j) ∧
      (Overlaps lo' hi' virt j ↔ Overlaps lo hi virt j) := by
  obtain ⟨low, high⟩ := blockOf_mono le virt
  have pos := pageSizeLevel_pos j
  simp only [Inside, Overlaps]
  omega

theorem after_restrict (le : leaf.1 ≤ level) :
    after arch op lo' hi' virt leaf = after arch op lo hi virt leaf ∧
      called arch op lo' hi' virt leaf = called arch op lo hi virt leaf := by
  have below : (cut arch op lo hi virt leaf).1 ≤ level := by
    unfold cut
    split
    · exact zero_le _
    · exact le
  have same : cut arch op lo' hi' virt leaf = cut arch op lo hi virt leaf := by
    obtain ⟨inside, overlaps⟩ := restrict_iff first last le
    refine if_congr ?_ rfl rfl
    rw [Acts, Acts, inside, overlaps]
  simp only [after, called, same]
  have acts : Acts op lo' hi' virt (cut arch op lo hi virt leaf).1 ↔
      Acts op lo hi virt (cut arch op lo hi virt leaf).1 := by
    rw [Acts, Acts, (restrict_iff first last below).1]
  exact ⟨if_congr acts rfl rfl, if_congr acts rfl rfl⟩

end

end Restrict

/-! ## The loop over the entries -/

section Entries

variable {f : ℕ → Table → Table × List PageCall}

theorem mapEntries_fst (n idx : ℕ) (sub : ℕ → Table) (i : ℕ) :
    (mapEntries f n idx sub).1 i =
      if idx ≤ i ∧ i < idx + n then (f i (sub i)).1 else sub i := by
  induction n generalizing idx sub with
  | zero => rw [mapEntries, if_neg (by omega)]
  | succ n ih =>
    rw [mapEntries, ih]
    by_cases here : i = idx
    · subst here
      rw [if_neg (by omega), if_pos (by omega), update_self]
    · rw [update_of_ne here]
      refine if_congr ?_ rfl rfl
      omega

theorem mem_mapEntries {n idx : ℕ} {sub : ℕ → Table} {c : PageCall}
    (mem : c ∈ (mapEntries f n idx sub).2) : ∃ i, idx ≤ i ∧ i < idx + n ∧ c ∈ (f i (sub i)).2 := by
  induction n generalizing idx sub with
  | zero => simp [mapEntries] at mem
  | succ n ih =>
    rw [mapEntries, mem_append] at mem
    obtain mem | mem := mem
    · exact ⟨idx, le_rfl, by omega, mem⟩
    · obtain ⟨i, low, high, mem⟩ := ih mem
      rw [update_of_ne (by omega)] at mem
      exact ⟨i, by omega, by omega, mem⟩

/-- Only one entry makes calls that the predicate is about. -/
theorem filter_mapEntries {p : PageCall → Bool} {i : ℕ} (n idx : ℕ) (sub : ℕ → Table)
    (others : ∀ j, idx ≤ j → j < idx + n → j ≠ i → (f j (sub j)).2.filter p = []) :
    (mapEntries f n idx sub).2.filter p =
      if idx ≤ i ∧ i < idx + n then (f i (sub i)).2.filter p else [] := by
  induction n generalizing idx sub with
  | zero => rw [mapEntries, if_neg (by omega), filter_nil]
  | succ n ih =>
    have rest := ih (idx + 1) (update sub idx (f idx (sub idx)).1)
      fun j low high other => by
        rw [update_of_ne (by omega)]
        exact others j (by omega) (by omega) other
    rw [mapEntries, filter_append, rest]
    by_cases here : i = idx
    · subst here
      rw [if_neg (by omega), if_pos (by omega), append_nil]
    · rw [update_of_ne here, others idx le_rfl (by omega) (Ne.symm here), nil_append]
      refine if_congr ?_ rfl rfl
      omega

end Entries

/-! ## The walk -/

theorem leafAt_entry (level : ℕ) (pte : Pte) (virt : ℕ) :
    leafAt level (.entry pte) virt = kept level pte := by
  cases level <;> rfl

/-- A leaf that is found is a present entry of its level. -/
theorem leafAt_found {level virt : ℕ} {node : Table} {leaf : ℕ × Pte}
    (found : leafAt level node virt = some leaf) :
    leaf.1 ≤ level ∧ leaf.2 ≠ 0 ∧
      ∀ arch, node.Wf arch level → (Table.entry leaf.2).Wf arch leaf.1 := by
  cases node with
  | entry pte =>
    rw [leafAt_entry, kept] at found
    split at found
    · cases found
    next there =>
      cases found
      exact ⟨le_rfl, there, fun _ wf => wf⟩
  | node sub =>
    cases level with
    | zero => cases found
    | succ level =>
      have below : leafAt level (sub (ptIndex virt level)) virt = some leaf := found
      obtain ⟨le, there, entry⟩ := leafAt_found below
      exact ⟨le.trans (le_succ level), there, fun arch wf => entry arch (wf _)⟩

theorem leafAt_level_le {level virt : ℕ} {node : Table} {leaf : ℕ × Pte}
    (found : leafAt level node virt = some leaf) : leaf.1 ≤ level :=
  (leafAt_found found).1

/-- What the walker needs to know about an operation. -/
structure PageOp.Sound (arch : Arch) (op : PageOp) : Prop where
  sizes : 1 ≤ op.nrPageSizes ∧ op.nrPageSizes ≤ 2
  huge : ∀ pte, arch.Huge pte → op.page 1 pte = 0 ∨ arch.Huge (op.page 1 pte)
  releases : op.releases = true → ∀ pte, op.page 0 pte = 0

/-- The walk over `[lo, hi]` below an entry of the level, whose block begins at `base`. -/
structure Walked (arch : Arch) (op : PageOp) (level base lo hi : ℕ) (node node' : Table)
    (calls : List PageCall) : Prop where
  leaf : ∀ virt, blockOf level virt = base →
    leafAt level node' virt = (leafAt level node virt).bind (after arch op lo hi virt)
  once : ∀ virt, blockOf level virt = base → calls.filter (PageCall.covers virt) =
    (leafAt level node virt).elim [] (called arch op lo hi virt)
  within : ∀ c ∈ calls, c.level ≤ level ∧ blockOf level c.base = base ∧
    blockOf c.level c.base = c.base
  wf : node'.Wf arch level

/-- A range of whole pages. -/
structure Pages (lo hi : ℕ) : Prop where
  low : lo % pageSize = 0
  high : hi % pageSize = pageSize - 1
  le : lo ≤ hi

section Walk

variable {arch : Arch} {op : PageOp} {level base lo hi : ℕ} {node node' : Table}
  {calls : List PageCall}

/-- The calls made below a block are about addresses of the block. -/
theorem Walked.apart (walked : Walked arch op level base lo hi node node' calls) {virt : ℕ}
    (other : blockOf level virt ≠ base) : calls.filter (PageCall.covers virt) = [] := by
  refine filter_eq_nil_iff.2 fun c mem covers => other ?_
  obtain ⟨le, inBlock, -⟩ := walked.within c mem
  rw [← inBlock, ← of_decide_eq_true covers, blockOf_blockOf le]

theorem Walked.restrict (walked : Walked arch op level base (max lo base)
    (min hi (base + pageSizeLevel level - 1)) node node' calls) :
    Walked arch op level base lo hi node node' calls := by
  refine ⟨fun virt block => ?_, fun virt block => ?_, walked.within, walked.wf⟩
  · rw [walked.leaf virt block]
    cases found : leafAt level node virt with
    | none => rfl
    | some leaf =>
      subst block
      exact (after_restrict rfl rfl (leafAt_level_le found)).1
  · rw [walked.once virt block]
    cases found : leafAt level node virt with
    | none => rfl
    | some leaf =>
      subst block
      exact (after_restrict rfl rfl (leafAt_level_le found)).2

theorem Pages.clamp (pages : Pages lo hi) (aligned : pageSizeLevel level ∣ base)
    (overlap : lo < base + pageSizeLevel level ∧ base ≤ hi) :
    Pages (max lo base) (min hi (base + pageSizeLevel level - 1)) := by
  obtain ⟨low, high, le⟩ := pages
  have first := dvd_page aligned
  have whole : pageSizeLevel level % pageSize = 0 := dvd_page (dvd_refl _)
  have pos := pageSizeLevel_pos level
  refine ⟨?_, ?_, by omega⟩ <;> simp only [pageSize] at *
  · omega
  · omega

/-- An entry that `page()` is called on, or that is empty. -/
theorem walked_entry (sound : op.Sound arch) {pte : Pte} (wf : (Table.entry pte).Wf arch level)
    (fits : level < op.nrPageSizes) (inside : lo ≤ base ∧ base + pageSizeLevel level ≤ hi + 1)
    (aligned : pageSizeLevel level ∣ base) :
    Walked arch op level base lo hi (.entry pte)
      (if pte = 0 then .entry pte else .entry (op.page level pte))
      (if pte = 0 then [] else [⟨level, base, pte⟩]) := by
  by_cases empty : pte = 0
  · subst empty
    simp only [if_true]
    refine ⟨fun virt _ => ?_, fun virt _ => ?_, by simp, wf⟩ <;> rw [leafAt_entry]
    · rfl
    · rfl
  · simp only [if_neg empty]
    have facts : ∀ virt, blockOf level virt = base → Acts op lo hi virt level ∧
        cut arch op lo hi virt (level, pte) = (level, pte) := by
      intro virt block
      have acts : Acts op lo hi virt level := ⟨fits, by rw [Inside, block]; exact inside⟩
      exact ⟨acts, if_neg fun all => all.2.2 acts⟩
    refine ⟨fun virt block => ?_, fun virt block => ?_, ?_, ?_⟩
    · obtain ⟨acts, same⟩ := facts virt block
      rw [leafAt_entry, leafAt_entry, kept, kept, if_neg empty, bind_some, after]
      simp only [same, if_pos acts]
      rfl
    · obtain ⟨acts, same⟩ := facts virt block
      rw [leafAt_entry, kept, if_neg empty, elim_some, called]
      simp only [same, if_pos acts, block]
      exact filter_cons_of_pos (decide_eq_true block)
    · have own : blockOf level base = base := (blockOf_eq_iff aligned).2
        ⟨le_rfl, by have := pageSizeLevel_pos level; omega⟩
      intro c mem
      obtain rfl := mem_singleton.1 mem
      exact ⟨le_rfl, own, own⟩
    · cases level with
      | zero => trivial
      | succ level =>
        have one : level = 0 := by have := sound.sizes.2; omega
        subst one
        exact (sound.huge pte (wf.resolve_left empty).2).imp id fun huge => ⟨rfl, huge⟩

/-- All leaves of a table of level 1 go when the range holds its block and `page()` empties. -/
theorem Walked.release (sound : op.Sound arch) (releases : op.releases = true)
    (fits : level < op.nrPageSizes) (inside : lo ≤ base ∧ base + pageSizeLevel level ≤ hi + 1)
    {sub : ℕ → Table} (walked : Walked arch op level base lo hi (.node sub) node' calls) :
    Walked arch op level base lo hi (.node sub) (.entry 0) calls := by
  refine ⟨fun virt block => ?_, walked.once, walked.within, ?_⟩
  · cases level with
    | zero => rfl
    | succ level =>
      have one : level = 0 := by have := sound.sizes.2; omega
      subst one
      cases found : leafAt 1 (.node sub) virt with
      | none => rfl
      | some leaf =>
        obtain ⟨l, pte⟩ := leaf
        have zero : l = 0 := le_zero.1 (leafAt_level_le
          (show leafAt 0 (sub (ptIndex virt 0)) virt = some (l, pte) from found))
        subst zero
        have small : Inside lo hi virt 0 := by
          obtain ⟨low, high⟩ := blockOf_mono (zero_le 1) virt
          rw [block] at low high
          exact ⟨inside.1.trans low, high.trans inside.2⟩
        have acts : Acts op lo hi virt 0 := ⟨sound.sizes.1, small⟩
        have same : cut arch op lo hi virt (0, pte) = (0, pte) := if_neg fun all => all.2.2 acts
        rw [leafAt_entry, bind_some, after]
        simp only [same, if_pos acts, sound.releases releases]
        rfl
  · cases level with
    | zero => trivial
    | succ level => exact .inl rfl

/-- The walk below an entry is not called for a word that `page()` is called on. -/
def Descends (op : PageOp) (level base lo hi : ℕ) (node : Table) : Prop :=
  (∃ sub, node = .node sub) ∨
    ¬(level < op.nrPageSizes ∧ lo = base ∧ hi = base + pageSizeLevel level - 1)

/-- **One turn of the loop**, on an entry whose block the range touches. -/
theorem visit_walked (sound : op.Sound arch) {below : Table → ℕ → ℕ → ℕ → Table × List PageCall}
    (pages : Pages lo hi) (wf : node.Wf arch level) (aligned : pageSizeLevel level ∣ base)
    (overlap : lo < base + pageSizeLevel level ∧ base ≤ hi)
    (walk : ∀ lo' hi', Pages lo' hi' → hi' ≤ hi → base ≤ lo' → hi' < base + pageSizeLevel level →
      Descends op level base lo' hi' node →
      Walked arch op level base lo' hi' node (below node base lo' hi').1 (below node base lo' hi').2) :
    Walked arch op level base lo hi node (visit op below level lo hi base node).1
      (visit op below level lo hi base node).2 := by
  have low : lo / pageSize * pageSize = lo :=
    Nat.div_mul_cancel (Nat.dvd_of_mod_eq_zero pages.low)
  have high : hi / pageSize * pageSize + (pageSize - 1) = hi := by
    have last := pages.high
    simp only [pageSize] at last ⊢
    omega
  have walk' := walk _ _ (pages.clamp aligned overlap) (min_le_left _ _) (le_max_right _ _)
    (by omega)
  unfold visit
  simp only [low, high]
  split
  next full =>
    obtain ⟨fits, first, last⟩ := full
    have inside : lo ≤ base ∧ base + pageSizeLevel level ≤ hi + 1 := by omega
    cases node with
    | entry pte =>
      have walked := walked_entry sound wf fits inside aligned
      by_cases empty : pte = 0
      · simpa only [if_pos empty] using walked
      · simpa only [if_neg empty] using walked
    | node sub =>
      have walked := (walk' (.inl ⟨sub, rfl⟩)).restrict
      dsimp only
      split
      next releases => exact walked.release sound releases fits inside
      · exact walked
  next part => exact (walk' (.inr part)).restrict

theorem extend47_eq {virt : ℕ} (small : virt < 2 ^ 47) : extend47 virt = virt := by
  rw [extend47, testBit_lt_two_pow small]
  exact mod_eq_of_lt (small.trans (by decide))

theorem ptIndex_lt (virt level : ℕ) : ptIndex virt level < 512 := mod_lt _ (by decide)

/-- The range touches the entry of an address exactly if its index is between the ends. -/
theorem overlaps_iff_ptIndex {virt : ℕ} (first : blockOf (level + 1) lo = base)
    (last : blockOf (level + 1) hi = base) (block : blockOf (level + 1) virt = base) :
    Overlaps lo hi virt level ↔
      ptIndex lo level ≤ ptIndex virt level ∧ ptIndex virt level ≤ ptIndex hi level := by
  have atLo := blockOf_succ level lo
  have atHi := blockOf_succ level hi
  have atVirt := blockOf_succ level virt
  rw [first] at atLo
  rw [last] at atHi
  rw [block] at atVirt
  have lowLo := blockOf_le level lo
  have highLo := lt_blockOf level lo
  have lowHi := blockOf_le level hi
  have highHi := lt_blockOf level hi
  rw [Overlaps, atVirt]
  rw [atLo] at lowLo highLo
  rw [atHi] at lowHi highHi
  constructor <;> rintro ⟨left, right⟩
  · constructor
    · by_contra more
      have := Nat.mul_le_mul_right (pageSizeLevel level) (Nat.succ_le_of_lt (Nat.lt_of_not_le more))
      rw [Nat.succ_mul] at this
      omega
    · by_contra more
      have := Nat.mul_le_mul_right (pageSizeLevel level) (Nat.succ_le_of_lt (Nat.lt_of_not_le more))
      rw [Nat.succ_mul] at this
      omega
  · have := mul_le_mul_right (pageSizeLevel level) left
    have := mul_le_mul_right (pageSizeLevel level) right
    omega

theorem entries_walked {sub : ℕ → Table} {go : ℕ → Table → Table × List PageCall}
    (wf : ∀ i, (sub i).Wf arch level) (aligned : pageSizeLevel (level + 1) ∣ base)
    (le : lo ≤ hi) (low : base ≤ lo) (high : hi < base + pageSizeLevel (level + 1))
    (turn : ∀ i, ptIndex lo level ≤ i → i ≤ ptIndex hi level →
      Walked arch op level (base + i * pageSizeLevel level) lo hi (sub i) (go i (sub i)).1
        (go i (sub i)).2) :
    Walked arch op (level + 1) base lo hi (.node sub)
      (.node (mapEntries go (ptIndex hi level - ptIndex lo level + 1) (ptIndex lo level) sub).1)
      (mapEntries go (ptIndex hi level - ptIndex lo level + 1) (ptIndex lo level) sub).2 := by
  have first : blockOf (level + 1) lo = base := (blockOf_eq_iff aligned).2 ⟨low, by omega⟩
  have last : blockOf (level + 1) hi = base := (blockOf_eq_iff aligned).2 ⟨by omega, high⟩
  have pos := pageSizeLevel_pos level
  have order : ptIndex lo level ≤ ptIndex hi level :=
    ((overlaps_iff_ptIndex first last last).1
      ⟨le.trans_lt (lt_blockOf level hi), blockOf_le level hi⟩).1
  have count : ∀ i, (ptIndex lo level ≤ i ∧
      i < ptIndex lo level + (ptIndex hi level - ptIndex lo level + 1)) ↔
      ptIndex lo level ≤ i ∧ i ≤ ptIndex hi level := by
    intro i
    omega
  have place : ∀ virt, blockOf (level + 1) virt = base →
      blockOf level virt = base + ptIndex virt level * pageSizeLevel level := by
    intro virt block
    rw [blockOf_succ, block]
  refine ⟨fun virt block => ?_, fun virt block => ?_, fun c mem => ?_, fun i => ?_⟩
  · rw [leafAt, leafAt, mapEntries_fst]
    by_cases touched : Overlaps lo hi virt level
    · have range := (overlaps_iff_ptIndex first last block).1 touched
      rw [if_pos ((count _).2 range)]
      exact (turn _ range.1 range.2).leaf virt (place virt block)
    · rw [if_neg fun range => touched
        ((overlaps_iff_ptIndex first last block).2 ((count _).1 range))]
      cases found : leafAt level (sub (ptIndex virt level)) virt with
      | none => rfl
      | some leaf => exact (after_of_not_overlaps (leafAt_level_le found) touched).1.symm
  · rw [filter_mapEntries (i := ptIndex virt level)]
    · by_cases touched : Overlaps lo hi virt level
      · have range := (overlaps_iff_ptIndex first last block).1 touched
        rw [if_pos ((count _).2 range)]
        exact (turn _ range.1 range.2).once virt (place virt block)
      · rw [if_neg fun range => touched
          ((overlaps_iff_ptIndex first last block).2 ((count _).1 range))]
        rw [leafAt]
        cases found : leafAt level (sub (ptIndex virt level)) virt with
        | none => rfl
        | some leaf => exact (after_of_not_overlaps (leafAt_level_le found) touched).2.symm
    · intro j start stop other
      have range := (count j).1 ⟨start, stop⟩
      refine (turn j range.1 range.2).apart fun same => other ?_
      rw [place virt block] at same
      exact (eq_of_mul_eq_mul_right pos (add_left_cancel same)).symm
  · obtain ⟨i, start, stop, mem⟩ := mem_mapEntries mem
    have range := (count i).1 ⟨start, stop⟩
    obtain ⟨levelLe, inBlock, own⟩ := (turn i range.1 range.2).within c mem
    refine ⟨levelLe.trans (le_succ level), ?_, own⟩
    have index := ptIndex_lt hi level
    have fits : (i + 1) * pageSizeLevel level ≤ pageSizeLevel (level + 1) := by
      rw [pageSizeLevel_succ, mul_comm (pageSizeLevel level)]
      exact mul_le_mul_right _ (by omega)
    rw [← blockOf_blockOf (le_succ level), inBlock]
    rw [add_mul, one_mul] at fits
    exact (blockOf_eq_iff aligned).2 ⟨le_add_right _ _, by omega⟩
  · rw [mapEntries_fst]
    split
    next range =>
      have range := (count i).1 range
      exact (turn i range.1 range.2).wf
    · exact wf i

/-- The pieces of a large page are the leaves that it is cut into. -/
theorem after_piece {pte : Pte} (valid : Arch.valid pte = true) {virt : ℕ} (pages : Pages lo hi)
    (touched : Overlaps lo hi virt 1 ∧ ¬Acts op lo hi virt 1) (sizes : 1 ≤ op.nrPageSizes) :
    after arch op lo hi virt (1, pte) =
        after arch op lo hi virt (0, arch.piece pte (ptIndex virt 0)) ∧
      called arch op lo hi virt (1, pte) =
        called arch op lo hi virt (0, arch.piece pte (ptIndex virt 0)) := by
  have split : cut arch op lo hi virt (1, pte) = (0, arch.piece pte (ptIndex virt 0)) :=
    if_pos ⟨valid, touched⟩
  have stays : cut arch op lo hi virt (0, arch.piece pte (ptIndex virt 0)) =
      (0, arch.piece pte (ptIndex virt 0)) := by
    refine if_neg fun all => all.2.2 ⟨sizes, ?_⟩
    obtain ⟨low, high, le⟩ := pages
    have page := dvd_page (dvd_blockOf 0 virt)
    simp only [Overlaps, Inside, show pageSizeLevel 0 = 4096 from rfl, pageSize] at *
    omega
  simp only [after, called, split, stays, and_self]

theorem Walked.ofPieces (sound : op.Sound arch) {pte : Pte} (valid : Arch.valid pte = true)
    (pages : Pages lo hi) (touches : ∀ virt, blockOf 1 virt = base →
      Overlaps lo hi virt 1 ∧ ¬Acts op lo hi virt 1)
    (walked : Walked arch op 1 base lo hi (.node fun i => .entry (arch.piece pte i)) node' calls) :
    Walked arch op 1 base lo hi (.entry pte) node' calls := by
  have nonzero : ∀ {x : Pte}, Arch.valid x = true → x ≠ 0 := by
    rintro x there rfl
    exact absurd there (by decide)
  have cutUp : ∀ virt, leafAt 1 (.node fun i => .entry (arch.piece pte i)) virt =
      some (0, arch.piece pte (ptIndex virt 0)) := by
    intro virt
    rw [leafAt, leafAt_entry, kept, if_neg (nonzero (arch.piece_valid valid _))]
  have whole : ∀ virt, leafAt 1 (.entry pte) virt = some (1, pte) := by
    intro virt
    rw [leafAt_entry, kept, if_neg (nonzero valid)]
  refine ⟨fun virt block => ?_, fun virt block => ?_, walked.within, walked.wf⟩
  · rw [walked.leaf virt block, cutUp, whole]
    exact (after_piece valid pages (touches virt block) sound.sizes.1).1.symm
  · rw [walked.once virt block, cutUp, whole]
    exact (after_piece valid pages (touches virt block) sound.sizes.1).2.symm

/-- **The walk does to each leaf what `after` says, with the calls that `called` says.** -/
theorem mapLevel_walked (sound : op.Sound arch) (pages : Pages lo hi) (small : hi < 2 ^ 47)
    (wf : node.Wf arch level) (aligned : pageSizeLevel level ∣ base) (low : base ≤ lo)
    (high : hi < base + pageSizeLevel level) (descends : Descends op level base lo hi node) :
    Walked arch op level base lo hi node (mapLevel arch op level node base lo hi).1
      (mapLevel arch op level node base lo hi).2 := by
  induction level generalizing base lo hi node with
  | zero =>
    -- A page that the range touches is inside, so only an intermediate entry is left.
    have whole : lo = base ∧ hi = base + pageSizeLevel 0 - 1 := by
      obtain ⟨first, last, le⟩ := pages
      have page := dvd_page aligned
      simp only [show pageSizeLevel 0 = 4096 from rfl, pageSize] at first last page high ⊢
      omega
    obtain ⟨sub, rfl⟩ := descends.resolve_right fun part => part ⟨sound.sizes.1, whole⟩
    exact wf.elim
  | succ level ih =>
    have pos := pageSizeLevel_pos level
    have first : blockOf (level + 1) lo = base :=
      (blockOf_eq_iff aligned).2 ⟨low, pages.le.trans_lt high⟩
    have last : blockOf (level + 1) hi = base :=
      (blockOf_eq_iff aligned).2 ⟨low.trans pages.le, high⟩
    have start : extend47 (base + ptIndex lo level * pageSizeLevel level) =
        base + ptIndex lo level * pageSizeLevel level := by
      have := blockOf_succ level lo
      have := blockOf_le level lo
      have := pages.le
      exact extend47_eq (by omega)
    let turn := fun i => visit op (mapLevel arch op level) level lo hi
      (extend47 (base + ptIndex lo level * pageSizeLevel level) +
        (i - ptIndex lo level) * pageSizeLevel level)
    have loop : ∀ sub : ℕ → Table, (∀ i, (sub i).Wf arch level) →
        Walked arch op (level + 1) base lo hi (.node sub)
          (.node (mapEntries turn (ptIndex hi level - ptIndex lo level + 1)
            (ptIndex lo level) sub).1)
          (mapEntries turn (ptIndex hi level - ptIndex lo level + 1) (ptIndex lo level) sub).2 := by
      intro sub wf
      refine entries_walked wf aligned pages.le low high fun i begins ends => ?_
      have at_ : extend47 (base + ptIndex lo level * pageSizeLevel level) +
          (i - ptIndex lo level) * pageSizeLevel level = base + i * pageSizeLevel level := by
        rw [start, Nat.add_assoc, ← Nat.add_mul, Nat.add_sub_cancel' begins]
      have entry : pageSizeLevel level ∣ base + i * pageSizeLevel level :=
        Nat.dvd_add (Nat.dvd_trans (pageSizeLevel_dvd (Nat.le_succ level)) aligned)
          (Nat.dvd_mul_left _ _)
      have overlap : lo < base + i * pageSizeLevel level + pageSizeLevel level ∧
          base + i * pageSizeLevel level ≤ hi := by
        have atLo := blockOf_succ level lo
        have atHi := blockOf_succ level hi
        rw [first] at atLo
        rw [last] at atHi
        have afterLo := lt_blockOf level lo
        have beforeHi := blockOf_le level hi
        have := mul_le_mul_right (pageSizeLevel level) ends
        omega
      simp only [turn, at_]
      exact visit_walked sound pages (wf i) entry overlap fun lo' hi' pages' le low' high' =>
        ih pages' (le.trans_lt small) (wf i) entry low' high'
    cases node with
    | node sub => exact loop sub wf
    | entry pte =>
      have touches : ∀ virt, blockOf (level + 1) virt = base →
          Overlaps lo hi virt (level + 1) ∧ ¬Acts op lo hi virt (level + 1) := by
        intro virt block
        rw [Acts, Overlaps, Inside, block]
        refine ⟨⟨pages.le.trans_lt high, low.trans pages.le⟩, fun acts => ?_⟩
        refine descends.elim nofun fun part => part ⟨acts.1, ?_⟩
        omega
      by_cases valid : Arch.valid pte = true
      · have there : pte ≠ 0 := by
          rintro rfl
          exact absurd valid (by decide)
        obtain ⟨one, huge⟩ := wf.resolve_left there
        subst one
        have opened : openTable arch 1 (.entry pte) = some fun i => .entry (arch.piece pte i) := by
          rw [openTable, if_neg (not_not.2 valid), if_pos huge.large]
        have walked := loop (fun i => .entry (arch.piece pte i)) fun i => trivial
        rw [mapLevel, opened]
        exact walked.ofPieces sound valid pages touches
      · have opened : openTable arch (level + 1) (.entry pte) = none := by
          rw [openTable, if_pos valid]
        simp only [mapLevel, opened]
        have stays : ∀ virt, blockOf (level + 1) virt = base →
            after arch op lo hi virt (level + 1, pte) = some (level + 1, pte) ∧
              called arch op lo hi virt (level + 1, pte) = [] := by
          intro virt block
          have same : cut arch op lo hi virt (level + 1, pte) = (level + 1, pte) :=
            if_neg fun all => valid all.1
          simp only [after, called, same, if_neg (touches virt block).2, and_self]
        refine ⟨fun virt block => ?_, fun virt block => ?_, nofun, wf⟩ <;> rw [leafAt_entry, kept]
        · split
          · rfl
          · exact (stays virt block).1.symm
        · split
          · rfl
          · exact (stays virt block).2.symm

end Walk

end MiniOsv.Mmu
