/-
# Mmu.SplitLarge -- a large page in pieces

`split_large_page` puts 512 small entries in the place of a large one.  They are copies of the
large entry without its large bit, with the offset of their page in the address; the frame of a
large page leaves these address bits free.  A piece permits what the large page did and
translates the addresses of its page to the same frame.
-/
import Mathlib.Tactic.FinCases
import Mathlib.Tactic.IntervalCases
import MiniOsv.Mmu.PageWalk

namespace MiniOsv.Mmu

open BitVec

namespace Arch

variable {arch : Arch} {x : Pte}

/-! ## The model -/

def dirty (arch : Arch) (x : Pte) : Bool :=
  match arch with
  | .x64 => x.getLsbD 6
  | .aarch64 => x.getLsbD 55

def accessed (arch : Arch) (x : Pte) : Bool :=
  match arch with
  | .x64 => x.getLsbD 5
  | .aarch64 => x.getLsbD 10

/-- The memory attributes that the hardware reads: PAT, PCD and PWT on x64, where PAT of a large
page is bit 12, and the attribute index and shareability on aarch64. -/
def memAttr (arch : Arch) (level : ℕ) (x : Pte) : List Bool :=
  match arch with
  | .x64 => [x.getLsbD (if level = 1 then 12 else 7), x.getLsbD 4, x.getLsbD 3]
  | .aarch64 => [2, 3, 4, 8, 9].map x.getLsbD

/-- `make_intermediate_pte`.  `make_pte` of an entry that is not large does not ask for the
level. -/
def makeIntermediatePte (arch : Arch) (ptPage : Pte) : Pte :=
  arch.makeLeafPte 0 ptPage ⟨true, true, true⟩

/-- The physical address as `virt_to_phys_map` puts it together. -/
def translate (arch : Arch) (leaf : ℕ × Pte) (virt : ℕ) : Pte :=
  arch.addr leaf.1 leaf.2 ||| BitVec.ofNat 64 (virt % pageSizeLevel leaf.1)

/-- `split_large_page` with the page `ptPage` for the new table: the word that is written to the
entry, and the table. -/
def splitLargePage (arch : Arch) (pte ptPage : Pte) : Pte × (ℕ → Pte) :=
  (arch.makeIntermediatePte ptPage, arch.piece pte)

/-! ## A piece bit by bit -/

theorem getLsbD_index {i j : ℕ} (small : i < 512) (outside : j < 12 ∨ 21 ≤ j) :
    (BitVec.ofNat 64 i <<< 12).getLsbD j = false := by
  rw [getLsbD_shiftLeft, getLsbD_ofNat]
  obtain low | high := outside
  · simp [low]
  · rw [Nat.testBit_lt_two_pow (small.trans_le
      (show 2 ^ 9 ≤ 2 ^ (j - 12) from Nat.pow_le_pow_right (by decide) (by omega)))]
    simp

theorem large_setLarge (arch : Arch) (x : Pte) : arch.large 1 (arch.setLarge x false) = false := by
  cases arch with
  | x64 =>
    simp only [large, setLarge, getLsbD_setBit, Nat.reduceLT, if_true, Bool.and_false]
  | aarch64 =>
    simp only [large, setLarge, getLsbD_setBit, Nat.reduceLT, if_true,
      Bool.not_false, Bool.not_true, Bool.and_false]

/-- The bits of a piece outside of the address are those of the large page. -/
theorem getLsbD_piece (arch : Arch) (x : Pte) {i j : ℕ} (small : i < 512)
    (outside : j < 12 ∨ 21 ≤ j) (mask : (arch.addrMask false).getLsbD j = false) (word : j < 64) :
    (arch.piece x i).getLsbD j =
      ((arch.setLarge x false).getLsbD j || (arch = .aarch64 && decide (j < 2))) := by
  have notMask : (~~~arch.addrMask false).getLsbD j = true := by
    rw [getLsbD_not, mask]
    simpa using word
  have index := getLsbD_index small outside
  have narrow : (arch.addr 1 (arch.setLarge x false)).getLsbD j = false := by
    rw [addr, large_setLarge, getLsbD_and, mask, Bool.and_false]
  cases arch with
  | x64 =>
    simp only [piece, setAddr, getLsbD_or, getLsbD_and, notMask, narrow, index]
    simp
  | aarch64 =>
    simp only [piece, setAddr, getLsbD_or, getLsbD_and, notMask, narrow, index, mask]
    have three : ∀ j < 64, (3#64).getLsbD j = decide (j < 2) := by decide
    simp [three j word]

/-- Bits of a leaf entry that say the same in a large page and in its pieces. -/
def keptBits : Arch → List ℕ
  | .x64 => [0, 1, 3, 4, 5, 6, 51, 53, 63]
  | .aarch64 => [0, 2, 3, 4, 7, 8, 9, 10, 53, 55, 56]

theorem getLsbD_piece_kept {arch : Arch} {x : Pte} {i : ℕ}
    (valid : arch = .aarch64 → valid x = true) (small : i < 512) :
    ∀ j ∈ arch.keptBits, (arch.piece x i).getLsbD j = x.getLsbD j := by
  intro j kept
  cases arch with
  | x64 =>
    rw [getLsbD_piece _ _ small, setLarge, getLsbD_setBit _ (by decide)]
    · fin_cases kept <;> simp
    all_goals fin_cases kept <;> decide
  | aarch64 =>
    rw [getLsbD_piece _ _ small, setLarge, getLsbD_setBit _ (by decide)]
    · have set : x.getLsbD 0 = true := valid rfl
      fin_cases kept <;> simp [set]
    all_goals fin_cases kept <;> decide

theorem permits_piece {arch : Arch} {x : Pte} {i : ℕ}
    (valid : arch = .aarch64 → valid x = true) (small : i < 512) :
    arch.permits (arch.piece x i) = arch.permits x := by
  have bit := getLsbD_piece_kept valid small
  cases arch
  · simp only [permits, writable, executable, bit 0 (by decide), bit 1 (by decide),
      bit 51 (by decide), bit 63 (by decide)]
  · simp only [permits, writable, executable, bit 0 (by decide), bit 7 (by decide),
      bit 53 (by decide)]

theorem cow_piece {arch : Arch} {x : Pte} {i : ℕ} (valid : arch = .aarch64 → valid x = true)
    (small : i < 512) : arch.cow (arch.piece x i) = arch.cow x := by
  have bit := getLsbD_piece_kept valid small
  cases arch
  · exact bit 53 (by decide)
  · exact bit 56 (by decide)

/-! ## Translation -/

theorem getLsbD_offset (n j : ℕ) (virt : ℕ) (word : j < 64) :
    (BitVec.ofNat 64 (virt % 2 ^ n)).getLsbD j = (decide (j < n) && virt.testBit j) := by
  rw [getLsbD_ofNat, Nat.testBit_mod_two_pow]
  simp [word]

theorem getLsbD_ptIndex (virt j : ℕ) (word : j < 64) :
    (BitVec.ofNat 64 (ptIndex virt 0) <<< 12).getLsbD j =
      (decide (12 ≤ j) && decide (j < 21) && virt.testBit j) := by
  have index : ptIndex virt 0 = virt / 2 ^ 12 % 2 ^ 9 := rfl
  rw [getLsbD_shiftLeft, index, getLsbD_offset 9 _ _ (by omega), Nat.testBit_div_two_pow]
  by_cases low : j < 12
  · simp [low]
  · have same : j - 12 + 12 = j := by omega
    have bound : (j - 12 < 9) ↔ j < 21 := by omega
    simp [same, word, low, bound, Nat.le_of_not_lt low]

/-- The highest address bit and one. -/
def addrBits : Arch → ℕ
  | .x64 => 51
  | .aarch64 => 48

theorem getLsbD_addrMask (arch : Arch) (j : ℕ) (word : j < 64) :
    (arch.addrMask false).getLsbD j = decide (12 ≤ j ∧ j < arch.addrBits) := by
  have all : ∀ j < 64, (arch.addrMask false).getLsbD j = decide (12 ≤ j ∧ j < arch.addrBits) := by
    cases arch <;> decide
  exact all j word

theorem getLsbD_addr_piece (arch : Arch) (x : Pte) (i : ℕ) {j : ℕ} (word : j < 64) :
    (arch.addr 0 (arch.piece x i)).getLsbD j =
      (decide (12 ≤ j ∧ j < arch.addrBits) &&
        (x.getLsbD j || (BitVec.ofNat 64 i <<< 12).getLsbD j)) := by
  have mask := arch.getLsbD_addrMask j word
  have narrow : arch.addr 1 (arch.setLarge x false) =
      arch.setLarge x false &&& arch.addrMask false := by
    rw [addr, large_setLarge]
  have small : arch.large 0 (arch.piece x i) = false := rfl
  rw [addr, small, getLsbD_and, mask]
  by_cases inMask : 12 ≤ j ∧ j < arch.addrBits
  · have org : (arch.setLarge x false).getLsbD j = x.getLsbD j := by
      cases arch with
      | x64 => rw [setLarge, getLsbD_setBit _ (by decide), if_neg (by omega)]
      | aarch64 => rw [setLarge, getLsbD_setBit _ (by decide), if_neg (by omega)]
    have low : ∀ j < 64, 12 ≤ j → (3#64).getLsbD j = false := by decide
    cases arch with simp only [piece, narrow, setAddr, getLsbD_or, getLsbD_and, mask, org, inMask, getLsbD_not]
    | x64 =>
      simp
    | aarch64 =>
      simp [low j word inMask.1]
  · simp only [inMask, decide_false, Bool.and_false, Bool.false_and]

theorem getLsbD_addr_large (arch : Arch) {x : Pte} (huge : arch.Huge x) {j : ℕ} (word : j < 64) :
    (arch.addr 1 x).getLsbD j = (decide (12 ≤ j ∧ j < arch.addrBits) && x.getLsbD j) := by
  have mask : ∀ j < 64, (arch.addrMask true).getLsbD j =
      (decide (12 ≤ j ∧ j < arch.addrBits) && !(decide (j < 21) && !(arch.addrMask true).getLsbD j)) := by
    cases arch <;> decide
  rw [addr, huge.large, getLsbD_and, mask j word]
  by_cases part : 12 ≤ j ∧ j < 21
  · rw [huge.frame j part.1 part.2, Bool.false_and, Bool.and_false]
  · by_cases low : j < 12
    · simp [show ¬12 ≤ j by omega]
    · simp [show ¬j < 21 by omega, Bool.and_comm]

theorem translate_piece (arch : Arch) {x : Pte} {virt : ℕ} (huge : arch.Huge x) :
    arch.translate (0, arch.piece x (ptIndex virt 0)) virt = arch.translate (1, x) virt := by
  refine eq_of_getLsbD_eq fun j word => ?_
  have bits : 21 < arch.addrBits := by cases arch <;> decide
  rw [translate, translate, getLsbD_or, getLsbD_or,
    getLsbD_addr_piece _ _ _ word, getLsbD_addr_large _ huge word,
    getLsbD_ptIndex _ _ word]
  change (_ || (BitVec.ofNat 64 (virt % 2 ^ 12)).getLsbD j) =
    (_ || (BitVec.ofNat 64 (virt % 2 ^ 21)).getLsbD j)
  rw [getLsbD_offset 12 j virt word, getLsbD_offset 21 j virt word]
  by_cases low : j < 12
  · simp [low, show ¬12 ≤ j by omega, show j < 21 by omega]
  · by_cases middle : j < 21
    · simp [low, middle, show 12 ≤ j by omega, show j < arch.addrBits by omega,
        huge.frame j (by omega) middle]
    · simp [low, middle]

/-! ## The entry and the table -/

/-- What `make_pte` sets in an entry that points to a table. -/
def tableBits : Arch → Pte
  | .x64 => 0x67
  | .aarch64 => 0x80000000000713

theorem makeIntermediatePte_eq {ptPage : Pte} (frame : ptPage &&& arch.addrMask false = ptPage) :
    arch.makeIntermediatePte ptPage = ptPage ||| arch.tableBits := by
  refine eq_of_getLsbD_eq fun j word => ?_
  have bit : (ptPage.getLsbD j && (arch.addrMask false).getLsbD j) = ptPage.getLsbD j := by
    rw [← getLsbD_and, frame]
  cases arch <;>
    simp only [makeIntermediatePte, makeLeafPte, setAddr, setLarge, setExecutable, setWritable,
      setValid, getLsbD_or, getLsbD_and, getLsbD_setBit, getLsbD_not, Nat.reduceLT]
  all_goals
    generalize ptPage.getLsbD j = b at bit ⊢
    revert j b
    decide +kernel

theorem makeIntermediatePte_spec {ptPage : Pte} (frame : ptPage &&& arch.addrMask false = ptPage) :
    valid (arch.makeIntermediatePte ptPage) = true ∧
      arch.large 1 (arch.makeIntermediatePte ptPage) = false ∧
      arch.addr 1 (arch.makeIntermediatePte ptPage) = ptPage := by
  have small : arch.large 1 (ptPage ||| arch.tableBits) = false := by
    cases arch with
    | x64 =>
      have seven : ptPage.getLsbD 7 = false := by
        rw [← frame, getLsbD_and, Bool.and_comm]
        rfl
      simp only [large, getLsbD_or, seven]
      rfl
    | aarch64 => simp [large, tableBits]
  rw [makeIntermediatePte_eq frame]
  refine ⟨?_, small, ?_⟩
  · cases arch <;> simp [valid, tableBits]
  · have outside : arch.tableBits &&& arch.addrMask false = 0#64 := by cases arch <;> rfl
    rw [addr, small]
    refine eq_of_getLsbD_eq fun j _ => ?_
    have none : (arch.tableBits.getLsbD j && (arch.addrMask false).getLsbD j) = false := by
      rw [← getLsbD_and, outside, getLsbD_zero]
    rw [getLsbD_and, getLsbD_or, Bool.and_or_distrib_right, none, Bool.or_false, ← getLsbD_and, frame]

/-- On aarch64 only valid entries are large. -/
theorem Huge.valid (huge : arch.Huge x) : arch = .aarch64 → valid x = true := by
  rintro rfl
  exact (Bool.and_eq_true_iff.1 (Bool.and_eq_true_iff.1 huge.large).2).1

/-- What the hardware reads in a piece besides the address. -/
theorem Huge.piece (huge : arch.Huge x) {i : ℕ} (small : i < 512) :
    Arch.valid (arch.piece x i) = Arch.valid x ∧ arch.permits (arch.piece x i) = arch.permits x ∧
      arch.memAttr 0 (arch.piece x i) = arch.memAttr 1 x ∧
      arch.dirty (arch.piece x i) = arch.dirty x ∧
      arch.accessed (arch.piece x i) = arch.accessed x := by
  have bit := getLsbD_piece_kept huge.valid small
  refine ⟨?_, permits_piece huge.valid small, ?_, ?_, ?_⟩
  · cases arch <;> exact bit 0 (by decide)
  · cases arch with
    | x64 =>
      have pat : (x64.piece x i).getLsbD 7 = x.getLsbD 12 := by
        rw [huge.frame 12 (by decide) (by decide), getLsbD_piece _ _ small (by decide) (by decide)
          (by decide), setLarge, getLsbD_setBit _ (by decide)]
        rfl
      simp only [memAttr, zero_ne_one, if_true, if_false, pat, bit 4 (by decide), bit 3 (by decide)]
    | aarch64 =>
      simp only [memAttr, List.map_cons, bit 2 (by decide), bit 3 (by decide), bit 4 (by decide),
        bit 8 (by decide), bit 9 (by decide)]
      rfl
  · cases arch
    · exact bit 6 (by decide)
    · exact bit 55 (by decide)
  · cases arch
    · exact bit 5 (by decide)
    · exact bit 10 (by decide)

/-- **A split keeps the meaning of a large page**: the entry points to the table, and every address
is translated by the entry of the table that is for it as it was by the large page. -/
theorem splitLargePage_preserves (huge : arch.Huge x) {ptPage : Pte}
    (frame : ptPage &&& arch.addrMask false = ptPage) :
    (valid (arch.splitLargePage x ptPage).1 = true ∧
        arch.large 1 (arch.splitLargePage x ptPage).1 = false ∧
        arch.addr 1 (arch.splitLargePage x ptPage).1 = ptPage) ∧
      ∀ virt, ∃ pte, (arch.splitLargePage x ptPage).2 (ptIndex virt 0) = pte ∧
        arch.translate (0, pte) virt = arch.translate (1, x) virt ∧
        valid pte = valid x ∧ arch.permits pte = arch.permits x ∧
        arch.memAttr 0 pte = arch.memAttr 1 x ∧ arch.dirty pte = arch.dirty x ∧
        arch.accessed pte = arch.accessed x := by
  refine ⟨makeIntermediatePte_spec frame, fun virt => ?_⟩
  exact ⟨_, rfl, arch.translate_piece huge, huge.piece (ptIndex_lt virt 0)⟩

/-- A large page that permits nothing, on x64. -/
theorem hidden_split : ∃ pte,
    (x64.splitLargePage 0x8000000000a000e6 0x1000).2 (ptIndex 0x3456 0) = pte ∧
      x64.translate (0, pte) 0x3456 = x64.translate (1, 0x8000000000a000e6) 0x3456 ∧
      valid pte = false := by
  have huge : x64.Huge 0x8000000000a000e6 := by
    refine ⟨rfl, fun j low high => ?_⟩
    interval_cases j <;> rfl
  obtain ⟨pte, found, same, invalid, -⟩ :=
    (splitLargePage_preserves huge (show 0x1000#64 &&& _ = _ from rfl)).2 0x3456
  exact ⟨pte, found, same, invalid⟩

end Arch

end MiniOsv.Mmu
