/-
# Mmu.PageTable -- page table entries and the page walker

The words of both architectures, and `map_level` for the operations that do not allocate
(`protection`, `unpopulate`, `splithugepages`).  Tables form a tree: an entry is a word, or
an intermediate entry with the 512 entries of the table it points to.  The walker returns
the new tree and the calls of `page()` in their order, with the word that each one read.
-/
import MiniOsv.Mmu.VmaList

namespace MiniOsv.Mmu

open Mempool (pageSize alignDown alignUp)

/-! ## Words -/

inductive Arch
  | x64 | aarch64
  deriving DecidableEq, Repr

/-- `pt_element<N>`. -/
abbrev Pte := BitVec 64

/-- The subsets of `perm_read`, `perm_write` and `perm_exec`. -/
structure Perm where
  read : Bool
  write : Bool
  exec : Bool
  deriving DecidableEq, Repr

def Perm.none : Perm := ⟨false, false, false⟩

def setBit (x : Pte) (nr : ℕ) (v : Bool) : Pte :=
  (x &&& ~~~(1#64 <<< nr)) ||| ((BitVec.ofBool v).setWidth 64 <<< nr)

namespace Arch

variable (arch : Arch)

def valid (x : Pte) : Bool := x.getLsbD 0

def writable (x : Pte) : Bool :=
  match arch with
  | .x64 => x.getLsbD 1
  | .aarch64 => !x.getLsbD 7

def executable (x : Pte) : Bool :=
  match arch with
  | .x64 => !x.getLsbD 63
  | .aarch64 => !x.getLsbD 53

/-- `large`; only entries of level 1 can be. -/
def large (level : ℕ) (x : Pte) : Bool :=
  level = 1 && match arch with
    | .x64 => x.getLsbD 7
    | .aarch64 => x.getLsbD 0 && !x.getLsbD 1

/-- `sw_bit(pte_cow)`. -/
def cow (x : Pte) : Bool :=
  match arch with
  | .x64 => x.getLsbD 53
  | .aarch64 => x.getLsbD 56

def pteIsCow (level : ℕ) (x : Pte) : Bool := level = 0 && arch.cow x

def setValid (x : Pte) (v : Bool) : Pte := setBit x 0 v

def setWritable (x : Pte) (v : Bool) : Pte :=
  match arch with
  | .x64 => setBit x 1 v
  | .aarch64 => setBit x 7 !v

def setExecutable (x : Pte) (v : Bool) : Pte :=
  match arch with
  | .x64 => setBit x 63 !v
  | .aarch64 => setBit x 53 !v

def setLarge (x : Pte) (v : Bool) : Pte :=
  match arch with
  | .x64 => setBit x 7 v
  | .aarch64 => setBit x 1 !v

/-- `set_rsvd_bit(0, v)`. -/
def setRsvdBit (x : Pte) (v : Bool) : Pte :=
  match arch with
  | .x64 => setBit x 51 v
  | .aarch64 => x

def addrMask (large : Bool) : Pte :=
  match arch, large with
  | .x64, false => 0x0007fffffffff000
  | .x64, true => 0x0007ffffffffe000
  | .aarch64, false => 0x0000fffffffff000
  | .aarch64, true => 0x0000ffffffe00000

def addr (level : ℕ) (x : Pte) : Pte := x &&& arch.addrMask (arch.large level x)

def setAddr (x a : Pte) (large : Bool) : Pte :=
  match arch with
  | .x64 => (x &&& ~~~arch.addrMask large) ||| a
  | .aarch64 => (x &&& ~~~arch.addrMask large) ||| (a &&& arch.addrMask large) |||
      (if large then 1 else 3)

/-- What the hardware lets through: a set reserved bit faults on x64. -/
def permits (x : Pte) : Perm :=
  let present := match arch with
    | .x64 => x.getLsbD 0 && !x.getLsbD 51
    | .aarch64 => x.getLsbD 0
  ⟨present, present && arch.writable x, present && arch.executable x⟩

/-- `change_perm`: the new word, and whether a TLB flush is needed. -/
def changePerm (level : ℕ) (x : Pte) (perm : Perm) : Pte × Bool :=
  let old : Perm := ⟨valid x, arch.writable x, arch.executable x⟩
  let perm : Perm := if arch.pteIsCow level x then { perm with write := false } else perm
  let x := setValid x true
  let x := arch.setWritable x perm.write
  let x := arch.setExecutable x perm.exec
  let x := arch.setRsvdBit x (perm = Perm.none)
  (x, match arch with
    | .x64 => old.read && !perm.read || old.write && !perm.write || old.exec && !perm.exec
    | .aarch64 => old ≠ perm)

/-- Entry `i` of the table that replaces a large page. -/
def piece (x : Pte) (i : ℕ) : Pte :=
  let org := arch.setLarge x false
  arch.setAddr org (arch.addr 1 org ||| BitVec.ofNat 64 i <<< 12) false

/-- `make_leaf_pte(ptep, addr, perm)` of a level, with the default memory attributes. -/
def makeLeafPte (level : ℕ) (addr : Pte) (perm : Perm) : Pte :=
  let large : Bool := level = 1
  let x := setValid 0 (perm ≠ Perm.none)
  let x := arch.setWritable x perm.write
  let x := arch.setExecutable x perm.exec
  match arch with
  | .x64 =>
    let x := arch.setLarge (setBit x 6 true) large
    setBit (setBit (arch.setAddr x addr large) 2 true) 5 true
  | .aarch64 =>
    let x := arch.setLarge (setBit x 55 true) large
    let x := setBit (setBit (arch.setAddr x addr large) 6 false) 10 true
    -- `set_share(true)` and `set_attridx(4)`.
    (x &&& ~~~0x31c#64) ||| 0x310

end Arch

/-! ## Tables -/

inductive Table
  | entry (pte : Pte)
  /-- A valid entry that is not large, with the table it points to. -/
  | node (sub : ℕ → Table)

def pageSizeLevel (level : ℕ) : ℕ := 2 ^ (12 + 9 * level)

def ptIndex (virt level : ℕ) : ℕ := virt / pageSizeLevel level % 512

/-- The leaf entry that an address is translated by, with its level. -/
def leafAt : ℕ → Table → ℕ → Option (ℕ × Pte)
  | level, .entry pte, _ => if pte = 0 then none else some (level, pte)
  | 0, .node _, _ => none
  | level + 1, .node sub, virt => leafAt level (sub (ptIndex virt level)) virt

/-- The word of a large page; its frame is one too. -/
structure Arch.Huge (arch : Arch) (pte : Pte) : Prop where
  large : arch.large 1 pte = true
  frame : ∀ j, 12 ≤ j → j < 21 → pte.getLsbD j = false

/-- Words stand where leaf entries can be, and those of level 1 are large pages. -/
def Table.Wf (arch : Arch) : ℕ → Table → Prop
  | 0, .entry _ => True
  | 0, .node _ => False
  | level + 1, .entry pte => pte = 0 ∨ level = 0 ∧ arch.Huge pte
  | level + 1, .node sub => ∀ i, (sub i).Wf arch level

/-! ## The walker -/

/-- A page table operation with `allocate_intermediate_opt::no`, `skip_empty_opt::yes`,
`descend_opt::yes`, `once_opt::no` and `split_opt::yes`. -/
structure PageOp where
  /-- What `page()` leaves in an entry of some level. -/
  page : ℕ → Pte → Pte
  /-- `intermediate_page_post` gives up the table and empties the entry. -/
  releases : Bool
  nrPageSizes : ℕ

/-- A call of `page()`. -/
structure PageCall where
  level : ℕ
  base : ℕ
  pte : Pte
  deriving DecidableEq, Repr

/-- `(int64_t(base_virt) << 16) >> 16`. -/
def extend47 (virt : ℕ) : ℕ :=
  if virt.testBit 47 then virt % 2 ^ 48 + (2 ^ 64 - 2 ^ 48) else virt % 2 ^ 48

/-- The entries below a parent, where the walk goes on: those of the large page that is split or
those of the table. -/
def openTable (arch : Arch) (level : ℕ) : Table → Option (ℕ → Table)
  | .entry pte =>
    if ¬Arch.valid pte then none
    else if arch.large level pte then some fun i => .entry (arch.piece pte i)
    else none
  | .node sub => some sub

/-- One turn of the loop of `map_level`; `below` goes down one level. -/
def visit (op : PageOp) (below : Table → ℕ → ℕ → ℕ → Table × List PageCall) (level vcur vend : ℕ)
    (base : ℕ) (ptep : Table) : Table × List PageCall :=
  let vstart1 := max (vcur / pageSize * pageSize) base
  let vend1 := min (vend / pageSize * pageSize + (pageSize - 1)) (base + pageSizeLevel level - 1)
  if level < op.nrPageSizes ∧ vstart1 = base ∧ vend1 = base + pageSizeLevel level - 1 then
    match ptep with
    | .entry pte =>
      if pte = 0 then (ptep, []) else (.entry (op.page level pte), [⟨level, base, pte⟩])
    | .node _ =>
      let r := below ptep base vstart1 vend1
      (if op.releases then .entry 0 else r.1, r.2)
  else below ptep base vstart1 vend1

/-- The loop over `n` entries from `idx` on. -/
def mapEntries (f : ℕ → Table → Table × List PageCall) : ℕ → ℕ → (ℕ → Table) → (ℕ → Table) × List PageCall
  | 0, _, sub => (sub, [])
  | n + 1, idx, sub =>
    let r := f idx (sub idx)
    let rest := mapEntries f n (idx + 1) (Function.update sub idx r.1)
    (rest.1, r.2 ++ rest.2)

/-- `map_level<PageOp, level>` on the entry `parent`. -/
def mapLevel (arch : Arch) (op : PageOp) : ℕ → Table → ℕ → ℕ → ℕ → Table × List PageCall
  | 0, parent, _, _, _ => (parent, [])
  | level + 1, parent, baseVirt, vcur, vend =>
    match openTable arch (level + 1) parent with
    | none => (parent, [])
    | some sub =>
      let idx := ptIndex vcur level
      let eidx := ptIndex vend level
      let base := extend47 (baseVirt + idx * pageSizeLevel level)
      let r := mapEntries
        (fun i => visit op (mapLevel arch op level) level vcur vend (base + (i - idx) * pageSizeLevel level))
        (eidx - idx + 1) idx sub
      (.node r.1, r.2)

/-- `operate_range`: the walk. -/
def operateRange (arch : Arch) (op : PageOp) (root : Table) (start size : ℕ) : Table × List PageCall :=
  let start := alignDown start pageSize
  let size := max (alignUp size pageSize) pageSize
  mapLevel arch op 4 root 0 start (start + size - 1)

end MiniOsv.Mmu
