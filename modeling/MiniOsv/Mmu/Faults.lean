/-
# Mmu.Faults -- concurrent faults in one slot

Faults hold the lock of the areas for reading only, so several walkers may populate the same
2 MiB slot at once.  The model is one entry of level 1 with the tables it may point to; each read
and each compare-exchange of an entry is one step.  The area has permissions, so that its entries
carry the valid bit, and a walker that finds an entry in place skips it.  The entries of the
levels above hold no leaves; for them the steps from `test` to `follow` are all there is.

A walker that found the entry empty but got no large page goes on to install a table.  If another
walker installs a large page meanwhile, the compare-exchange fails, and the assertion of
`next_pt_addr` stops the system when the walker follows the entry.  If the large page comes earlier
the walker splits it.  Two walkers may both do so with the same large page; the store of the second
table then loses the first one.
-/
import MiniOsv.Theory.Tally
import MiniOsv.Theory.Transition

namespace MiniOsv.Mmu.Faults

open Theory (Reachable tally tally_update)
open Function Option Finset

set_option linter.unusedSectionVars false

/-! ## The model -/

def ptePerPage : ℕ := 512

/-- The entry of the slot.  Frames and tables are given by their page numbers. -/
inductive Entry where
  | empty
  | leaf (frame : ℕ)
  | table (page : ℕ)
  deriving DecidableEq, Repr

/-- Where a walker is; `i` and `j` are the first and the last page it populates. -/
inductive Pc where
  | idle
  /-- At the slot; `full` when a large page may be installed. -/
  | visit (full : Bool) (i j : Fin ptePerPage)
  | page (i j : Fin ptePerPage)
  | allocHuge (i j : Fin ptePerPage)
  | casHuge (frame : ℕ) (i j : Fin ptePerPage)
  /-- `map_level::operator()` before `read(parent).valid()`. -/
  | test (i j : Fin ptePerPage)
  | allocTable (i j : Fin ptePerPage)
  | casTable (table : ℕ) (i j : Fin ptePerPage)
  | testLarge (i j : Fin ptePerPage)
  | split (i j : Fin ptePerPage)
  | splitAlloc (orig : ℕ) (i j : Fin ptePerPage)
  | splitWrite (table orig : ℕ) (i j : Fin ptePerPage)
  | follow (i j : Fin ptePerPage)
  | small (table : ℕ) (i j : Fin ptePerPage)
  | casPage (table frame : ℕ) (i j : Fin ptePerPage)
  | done
  deriving DecidableEq, Repr

/-- The slot; `free` says how often the allocator has a page, `aborted` that an assertion failed. -/
structure Slot (Thread : Type) where
  entry : Entry
  tables : ℕ → Fin ptePerPage → Option ℕ
  free : ℕ → ℕ
  pcs : Thread → Pc
  aborted : Bool

inductive Event (Thread : Type) where
  | start (thread : Thread) (full : Bool) (i j : Fin ptePerPage)
  /-- The walker goes on; `page` is what an allocation would return. -/
  | go (thread : Thread) (page : Option ℕ)

/-- How often a frame of the size of the slot has the page. -/
def hugeCount (frame p : ℕ) : ℕ := if frame ≤ p ∧ p < frame + ptePerPage then 1 else 0

def pageCount (page p : ℕ) : ℕ := if page = p then 1 else 0

section Model

variable {Thread : Type} [DecidableEq Thread]

namespace Slot

def setPc (s : Slot Thread) (t : Thread) (pc : Pc) : Slot Thread :=
  { s with pcs := update s.pcs t pc }

def takePage (s : Slot Thread) (page : ℕ) : Slot Thread :=
  { s with free := fun p => s.free p - pageCount page p }

def freePage (s : Slot Thread) (page : ℕ) : Slot Thread :=
  { s with free := fun p => s.free p + pageCount page p }

def takeHuge (s : Slot Thread) (frame : ℕ) : Slot Thread :=
  { s with free := fun p => s.free p - hugeCount frame p }

def freeHuge (s : Slot Thread) (frame : ℕ) : Slot Thread :=
  { s with free := fun p => s.free p + hugeCount frame p }

/-- The loop over the pages goes on behind page `i`. -/
def nextPage (table : ℕ) (i j : Fin ptePerPage) : Pc :=
  if h : i.val + 1 < ptePerPage ∧ i < j then .small table ⟨i.val + 1, h.1⟩ j else .done

/-- The address in the word of the entry. -/
def addrOf : Entry → ℕ
  | .empty => 0
  | .leaf frame => frame
  | .table page => page

/-- `next_pt_addr`; a large entry fails the assertion. -/
def nextPtAddr : Entry → Option ℕ
  | .leaf _ => none
  | entry => some (addrOf entry)

def go (s : Slot Thread) (t : Thread) (page : Option ℕ) : Option (Slot Thread) :=
  match s.pcs t with
  | .idle | .done => none
  | .visit full i j =>
    -- `descend` of an entry that can hold a large page.
    match full, s.entry with
    | true, .table _ => some (s.setPc t (.test i j))
    | true, _ => some (s.setPc t (.page i j))
    | false, _ => some (s.setPc t (.test i j))
  | .page i j =>
    if s.entry = .empty then some (s.setPc t (.allocHuge i j)) else some (s.setPc t .done)
  | .allocHuge i j =>
    match page with
    | none => some (s.setPc t (.test i j))
    | some frame =>
      if frame % ptePerPage = 0 ∧ ∀ k < ptePerPage, 0 < s.free (frame + k) then
        some ((s.takeHuge frame).setPc t (.casHuge frame i j))
      else none
  | .casHuge frame _ _ =>
    if s.entry = .empty then some ({ s with entry := .leaf frame }.setPc t .done)
    else some ((s.freeHuge frame).setPc t .done)
  | .test i j =>
    if s.entry = .empty then some (s.setPc t (.allocTable i j)) else some (s.setPc t (.testLarge i j))
  | .allocTable i j =>
    match page with
    | none => none
    | some table =>
      if 0 < s.free table then
        let entries : Fin ptePerPage → Option ℕ := fun _ => none
        some ({ s.takePage table with tables := update s.tables table entries }.setPc t
          (.casTable table i j))
      else none
  | .casTable table i j =>
    if s.entry = .empty then some ({ s with entry := .table table }.setPc t (.follow i j))
    else some ((s.freePage table).setPc t (.follow i j))
  | .testLarge i j =>
    match s.entry with
    | .leaf _ => some (s.setPc t (.split i j))
    | _ => some (s.setPc t (.follow i j))
  | .split i j => some (s.setPc t (.splitAlloc (addrOf s.entry) i j))
  | .splitAlloc orig i j =>
    match page with
    | none => none
    | some table =>
      if 0 < s.free table then
        let entries : Fin ptePerPage → Option ℕ := fun k => some (orig ||| k.val)
        some ({ s.takePage table with tables := update s.tables table entries }.setPc t
          (.splitWrite table orig i j))
      else none
  -- A plain store, not a compare-exchange.
  | .splitWrite table _ i j => some ({ s with entry := .table table }.setPc t (.follow i j))
  | .follow i j =>
    match nextPtAddr s.entry with
    | some table => some (s.setPc t (.small table i j))
    | none => some { s with aborted := true }
  | .small table i j =>
    match s.tables table i, page with
    | some _, _ => some (s.setPc t (nextPage table i j))
    | none, none => none
    | none, some frame =>
      if 0 < s.free frame then some ((s.takePage frame).setPc t (.casPage table frame i j)) else none
  | .casPage table frame i j =>
    if s.tables table i = none then
      let entries := update (s.tables table) i (some frame)
      some ({ s with tables := update s.tables table entries }.setPc t (nextPage table i j))
    else some ((s.freePage frame).setPc t (nextPage table i j))

def step (s : Slot Thread) (event : Event Thread) : Option (Slot Thread) :=
  if s.aborted then none
  else match event with
    | .start t full i j =>
      if s.pcs t = .idle ∨ s.pcs t = .done then some (s.setPc t (.visit full i j)) else none
    | .go t page => s.go t page

end Slot

end Model

/-! ## Where the pages are -/

def Pc.held : Pc → ℕ → ℕ
  | .casHuge frame _ _, p => hugeCount frame p
  | .casTable table _ _, p => pageCount table p
  | .splitWrite table _ _ _, p => pageCount table p
  | .casPage _ frame _ _, p => pageCount frame p
  | _, _ => 0

def installed (tables : ℕ → Fin ptePerPage → Option ℕ) : Entry → ℕ → ℕ
  | .empty, _ => 0
  | .leaf frame, p => hugeCount frame p
  | .table table, p => pageCount table p + tally (fun e => if e = some p then 1 else 0) (tables table)

def Pc.splits : Pc → Bool
  | .split _ _ | .splitAlloc _ _ _ | .splitWrite _ _ _ _ => true
  | _ => false

def Pc.installsTable : Pc → Bool
  | .allocTable _ _ | .casTable _ _ _ => true
  | _ => false

def Pc.Ok (entry : Entry) (tables : ℕ → Fin ptePerPage → Option ℕ) : Pc → Prop
  | .casHuge frame _ _ => frame % ptePerPage = 0
  | .allocTable _ _ => ∀ frame, entry ≠ .leaf frame
  | .casTable table _ _ => (∀ frame, entry ≠ .leaf frame) ∧ ∀ k, tables table k = none
  | .testLarge _ _ => entry ≠ .empty
  | .split _ _ => ∃ frame, entry = .leaf frame
  | .splitAlloc orig _ _ => entry = .leaf orig
  | .splitWrite table orig _ _ => entry = .leaf orig ∧ ∀ k, tables table k = some (orig ||| k.val)
  | .follow _ _ => ∃ table, entry = .table table
  | .small table _ _ | .casPage table _ _ _ => entry = .table table
  | .done => entry ≠ .empty
  | _ => True

section Invariant

variable {Thread : Type} [Fintype Thread] [DecidableEq Thread]

def Slot.places (s : Slot Thread) (p : ℕ) : ℕ :=
  s.free p + installed s.tables s.entry p + tally (fun pc => Pc.held pc p) s.pcs

structure Inv (all : Finset ℕ) (s : Slot Thread) : Prop where
  places : ∀ p, s.places p = if p ∈ all then 1 else 0
  aligned : ∀ frame, s.entry = .leaf frame → frame % ptePerPage = 0
  ok : ∀ t, (s.pcs t).Ok s.entry s.tables
  one : ∀ t u, (s.pcs t).splits = true → (s.pcs u).splits = true → t = u
  sound : s.aborted = false

/-- A large page is installed only while no other walker is about to install a table, and only
one walker at a time splits a large page. -/
def Orderly (s : Slot Thread) : Event Thread → Prop
  | .start _ _ _ _ => True
  | .go t _ =>
    match s.pcs t with
    | .casHuge _ _ _ => s.entry = .empty → ∀ u, (s.pcs u).installsTable = false
    | .testLarge _ _ => (∃ frame, s.entry = .leaf frame) → ∀ u, (s.pcs u).splits = false
    | _ => True

variable {all : Finset ℕ} {s s' : Slot Thread} {t : Thread} {pc : Pc}

theorem Inv.move (inv : Inv all s) (pcs : s'.pcs = update s.pcs t pc)
    (places : ∀ p, s'.free p + installed s'.tables s'.entry p + pc.held p =
      s.free p + installed s.tables s.entry p + (s.pcs t).held p)
    (aligned : ∀ frame, s'.entry = .leaf frame → frame % ptePerPage = 0)
    (own : pc.Ok s'.entry s'.tables)
    (others : ∀ u, u ≠ t → (s.pcs u).Ok s'.entry s'.tables)
    (splits : pc.splits = true → (s.pcs t).splits = true ∨ ∀ u, (s.pcs u).splits = false)
    (sound : s'.aborted = false) : Inv all s' := by
  refine ⟨fun p => ?_, aligned, fun u => ?_, fun u v => ?_, sound⟩
  · have moved := tally_update (fun pc => Pc.held pc p) s.pcs t pc
    have before := inv.places p
    have same := places p
    rw [Slot.places] at before ⊢
    rw [pcs]
    omega
  · rw [pcs]
    by_cases here : u = t
    · subst here
      rwa [update_self]
    · rw [update_of_ne here]
      exact others u here
  · rw [pcs]
    by_cases hereU : u = t <;> by_cases hereV : v = t
    · exact fun _ _ => hereU.trans hereV.symm
    · subst hereU
      rw [update_self, update_of_ne hereV]
      intro own other
      rcases splits own with before | none
      · exact inv.one u v before other
      · rw [none v] at other
        cases other
    · subst hereV
      rw [update_self, update_of_ne hereU]
      intro other own
      rcases splits own with before | none
      · exact inv.one u v other before
      · rw [none u] at other
        cases other
    · rw [update_of_ne hereU, update_of_ne hereV]
      exact inv.one u v

theorem Inv.setPc (inv : Inv all s) {old pc : Pc} (here : s.pcs t = old)
    (held : ∀ p, pc.held p = old.held p) (ok : pc.Ok s.entry s.tables)
    (splits : pc.splits = true → old.splits = true ∨ ∀ u, (s.pcs u).splits = false) :
    Inv all (s.setPc t pc) := by
  subst here
  exact inv.move rfl (fun p => congrArg _ (held p)) inv.aligned ok (fun u _ => inv.ok u) splits
    inv.sound

theorem Inv.setFree (inv : Inv all s) {free : ℕ → ℕ}
    (held : ∀ p, free p + pc.held p = s.free p + (s.pcs t).held p) (ok : pc.Ok s.entry s.tables)
    (splits : pc.splits = false) : Inv all ({ s with free := free }.setPc t pc) := by
  refine inv.move rfl (fun p => ?_) inv.aligned ok (fun u _ => inv.ok u)
    (fun yes => absurd yes (by rw [splits]; decide)) inv.sound
  have := held p
  change free p + installed s.tables s.entry p + pc.held p = _
  omega

theorem Inv.places_le (inv : Inv all s) (p : ℕ) : s.places p ≤ 1 := by
  rw [inv.places]
  split <;> omega

/-! ## What the others may rely on -/

/-- The table that a walker has allocated and filled. -/
def Pc.ownTable : Pc → Option ℕ
  | .casTable table _ _ => some table
  | .splitWrite table _ _ _ => some table
  | _ => none

variable {table : ℕ}

theorem Pc.held_ownTable (own : pc.ownTable = some table) : pc.held table = 1 := by
  cases pc <;> simp_all [Pc.ownTable, Pc.held, pageCount]

theorem Pc.Ok.tables {entry : Entry} {tables tables' : ℕ → Fin ptePerPage → Option ℕ}
    (ok : pc.Ok entry tables) (same : ∀ table, pc.ownTable = some table → tables' table = tables table) :
    pc.Ok entry tables' := by
  cases pc with
  | casTable table i j => exact ⟨ok.1, fun k => (congrFun (same table rfl) k).trans (ok.2 k)⟩
  | splitWrite table orig i j => exact ⟨ok.1, fun k => (congrFun (same table rfl) k).trans (ok.2 k)⟩
  | _ => exact ok

variable {tables : ℕ → Fin ptePerPage → Option ℕ}

theorem Pc.Ok.advance {entry entry' : Entry}
    (ok : pc.Ok entry tables) (notTable : ∀ x, entry ≠ .table x) (filled : entry' ≠ .empty)
    (leaf : ∀ frame, entry' = .leaf frame → pc.installsTable = false)
    (splits : pc.splits = false) : pc.Ok entry' tables := by
  cases pc with
  | allocTable i j => exact fun frame eq => absurd (leaf frame eq) (by simp [Pc.installsTable])
  | casTable table i j => exact ⟨fun frame eq => absurd (leaf frame eq) (by simp [Pc.installsTable]), ok.2⟩
  | testLarge i j => exact filled
  | split i j => exact absurd splits (by simp [Pc.splits])
  | splitAlloc orig i j => exact absurd splits (by simp [Pc.splits])
  | splitWrite table orig i j => exact absurd splits (by simp [Pc.splits])
  | follow i j =>
    obtain ⟨table, eq⟩ := ok
    exact absurd eq (notTable table)
  | small table i j => exact absurd ok (notTable table)
  | casPage table frame i j => exact absurd ok (notTable table)
  | done => exact filled
  | casHuge frame i j => exact ok
  | idle | visit | page | allocHuge | test => trivial

theorem Pc.Ok.splits_empty (ok : pc.Ok .empty tables) : pc.splits = false := by
  cases pc with
  | split i j =>
    obtain ⟨_, eq⟩ := ok
    cases eq
  | splitAlloc orig i j => cases ok
  | splitWrite table orig i j => cases ok.1
  | _ => rfl

/-- A page of the allocator is no table of a walker and not the table of the slot. -/
theorem Inv.fresh (inv : Inv all s) (free : 0 < s.free table) :
    s.entry ≠ .table table ∧ ∀ u, (s.pcs u).ownTable ≠ some table := by
  have most := inv.places_le table
  rw [Slot.places] at most
  refine ⟨fun eq => ?_, fun u own => ?_⟩
  · rw [eq, installed, pageCount, if_pos rfl] at most
    omega
  · have := Theory.le_tally (fun pc => Pc.held pc table) s.pcs u
    have := Pc.held_ownTable own
    omega

theorem installed_update {entry : Entry}
    (other : entry ≠ .table table) (entries : Fin ptePerPage → Option ℕ) (p : ℕ) :
    installed (update tables table entries) entry p = installed tables entry p := by
  cases entry with
  | empty => rfl
  | leaf frame => rfl
  | table x =>
    have ne : x ≠ table := fun eq => other (by rw [eq])
    rw [installed, installed, update_of_ne ne]

theorem Inv.newTable (inv : Inv all s) (free : 0 < s.free table)
    (entries : Fin ptePerPage → Option ℕ) (none : ∀ p, (s.pcs t).held p = 0)
    (held : ∀ p, pc.held p = pageCount table p) (ok : pc.Ok s.entry (update s.tables table entries))
    (splits : pc.splits = true → (s.pcs t).splits = true) :
    Inv all ({ s.takePage table with tables := update s.tables table entries }.setPc t pc) := by
  obtain ⟨notEntry, notOwn⟩ := inv.fresh free
  refine inv.move rfl (fun p => ?_) inv.aligned ok (fun u _ => (inv.ok u).tables fun x own => ?_)
    (fun yes => .inl (splits yes)) inv.sound
  · change s.free p - pageCount table p +
      installed (update s.tables table entries) s.entry p + pc.held p = _
    rw [installed_update notEntry, held, none]
    have : pageCount table p ≤ s.free p := by
      rw [pageCount]
      split
      next eq => exact eq ▸ free
      · exact Nat.zero_le _
    omega
  · refine update_of_ne (fun eq => notOwn u ?_) _ _
    rw [own, eq]

/-- The pieces of a large page are its pages. -/
theorem tally_pieces {frame p : ℕ} (aligned : frame % ptePerPage = 0) :
    tally (fun e => if e = some p then 1 else 0)
      (fun k : Fin ptePerPage => some (frame ||| k.val)) = hugeCount frame p := by
  have piece : ∀ k : Fin ptePerPage, frame ||| k.val = frame + k.val := by
    intro k
    obtain ⟨c, rfl⟩ := Nat.dvd_of_mod_eq_zero aligned
    exact (Nat.two_pow_add_eq_or_of_lt (show k.val < 2 ^ 9 from k.isLt) c).symm
  rw [tally, hugeCount]
  split
  next within =>
    rw [sum_eq_single (⟨p - frame, by omega⟩ : Fin ptePerPage)]
    · rw [if_pos]
      rw [piece]
      congr 1
      dsimp only
      omega
    · intro k _ ne
      rw [if_neg]
      rw [piece]
      intro eq
      have := Option.some.inj eq
      exact ne (Fin.ext (by dsimp only; omega))
    · exact fun out => absurd (mem_univ _) out
  next outside =>
    refine sum_eq_zero fun k _ => if_neg fun eq => outside ?_
    rw [piece] at eq
    have := Option.some.inj eq
    omega

/-! ## Every step -/

theorem nextPage_held (table : ℕ) (i j : Fin ptePerPage) (p : ℕ) :
    (Slot.nextPage table i j).held p = 0 := by
  rw [Slot.nextPage]
  split <;> rfl

theorem nextPage_splits (table : ℕ) (i j : Fin ptePerPage) :
    (Slot.nextPage table i j).splits = false := by
  rw [Slot.nextPage]
  split <;> rfl

theorem nextPage_ok {entry : Entry} (here : entry = .table table) (i j : Fin ptePerPage) :
    (Slot.nextPage table i j).Ok entry tables := by
  rw [Slot.nextPage]
  split
  · exact here
  · rw [here]
    exact Entry.noConfusion

theorem pageCount_le {free : ℕ → ℕ} {page : ℕ} (there : 0 < free page) (p : ℕ) :
    pageCount page p ≤ free p := by
  rw [pageCount]
  split
  next eq => exact eq ▸ there
  · exact Nat.zero_le _

theorem hugeCount_le {free : ℕ → ℕ} {frame : ℕ} (there : ∀ k < ptePerPage, 0 < free (frame + k))
    (p : ℕ) : hugeCount frame p ≤ free p := by
  rw [hugeCount]
  split
  next within =>
    have := there (p - frame) (by omega)
    rwa [show frame + (p - frame) = p by omega] at this
  · exact Nat.zero_le _

theorem Inv.install (inv : Inv all s) {entry : Entry} {i j : Fin ptePerPage}
    (notTable : ∀ x, s.entry ≠ .table x) (filled : entry ≠ .empty)
    (places : ∀ p, installed s.tables entry p = installed s.tables s.entry p + (s.pcs t).held p)
    (aligned : ∀ frame, entry = .leaf frame → frame % ptePerPage = 0)
    (leaf : ∀ frame, entry = .leaf frame → ∀ u, (s.pcs u).installsTable = false)
    (splits : ∀ u, u ≠ t → (s.pcs u).splits = false)
    (next : pc = .done ∨ pc = .follow i j ∧ ∃ table, entry = .table table) :
    Inv all ({ s with entry := entry }.setPc t pc) := by
  have held : ∀ p, pc.held p = 0 := by
    rcases next with rfl | ⟨rfl, -⟩ <;> exact fun _ => rfl
  have calm : pc.splits = false := by
    rcases next with rfl | ⟨rfl, -⟩ <;> rfl
  refine inv.move rfl (fun p => ?_) aligned ?_ (fun u ne => ?_)
    (fun yes => absurd yes (by rw [calm]; decide)) inv.sound
  · have := places p
    have := held p
    change s.free p + installed s.tables entry p + pc.held p = _
    omega
  · rcases next with rfl | ⟨rfl, isTable⟩
    · exact filled
    · exact isTable
  · exact (inv.ok u).advance notTable filled (fun frame eq => leaf frame eq u) (splits u ne)

/-- **Every orderly step keeps the invariant.** -/
theorem Inv.go (inv : Inv all s) {page : Option ℕ} (orderly : Orderly s (.go t page))
    (taken : s.go t page = some s') : Inv all s' := by
  have ok := inv.ok t
  rw [Slot.go] at taken
  rw [Orderly] at orderly
  cases here : s.pcs t <;> rw [here] at ok <;> simp only [here] at taken
  case idle | done => cases taken
  case visit full i j =>
    have moves : ∀ pc, (pc = Pc.test i j ∨ pc = Pc.page i j) → Inv all (s.setPc t pc) := by
      rintro _ (rfl | rfl) <;> exact inv.setPc here (fun _ => rfl) trivial nofun
    split at taken <;> cases taken
    · exact moves _ (.inl rfl)
    · exact moves _ (.inr rfl)
    · exact moves _ (.inl rfl)
  case page i j =>
    split at taken <;> cases taken
    · exact inv.setPc here (fun _ => rfl) trivial nofun
    next filled =>
      exact inv.setPc here (fun _ => rfl) filled nofun
  case allocHuge i j =>
    split at taken
    · cases taken
      exact inv.setPc here (fun _ => rfl) trivial nofun
    next frame =>
      obtain ⟨⟨aligned, there⟩, taken⟩ := ite_none_right_eq_some.1 taken
      cases taken
      refine inv.setFree (fun p => ?_) aligned rfl
      have := hugeCount_le there p
      rw [here]
      change s.free p - hugeCount frame p + hugeCount frame p = s.free p + 0
      omega
  case casHuge frame i j =>
    simp only [here] at taken orderly
    split at taken <;> cases taken
    next empty =>
      refine inv.install (i := i) (j := j) (fun x eq => ?_) Entry.noConfusion (fun p => ?_)
        (fun f eq => ?_) (fun f _ => orderly empty) (fun u _ => ?_) (.inl rfl)
      · rw [empty] at eq
        cases eq
      · rw [empty, here]
        exact (Nat.zero_add _).symm
      · cases eq
        exact ok
      · have := inv.ok u
        rw [empty] at this
        exact this.splits_empty
    next filled =>
      refine inv.setFree (fun p => ?_) filled rfl
      rw [here]
      rfl
  case test i j =>
    split at taken <;> cases taken
    next empty =>
      exact inv.setPc here (fun _ => rfl)
        (fun f eq => by rw [empty] at eq; cases eq) nofun
    next filled =>
      exact inv.setPc here (fun _ => rfl) filled nofun
  case allocTable i j =>
    split at taken
    · cases taken
    next table =>
      obtain ⟨free, taken⟩ := ite_none_right_eq_some.1 taken
      cases taken
      exact inv.newTable free _ (fun p => by rw [here]; rfl) (fun p => rfl)
        ⟨ok, fun k => by rw [update_self]⟩ nofun
  case casTable table i j =>
    split at taken <;> cases taken
    next empty =>
      refine inv.install (fun x eq => ?_) Entry.noConfusion (fun p => ?_) (fun f eq => ?_)
        (fun f eq => ?_) (fun u _ => ?_) (.inr ⟨rfl, table, rfl⟩)
      · rw [empty] at eq
        cases eq
      · have none : tally (fun e => if e = some p then 1 else 0) (s.tables table) = 0 :=
          Theory.tally_eq_zero.2 fun k => by rw [ok.2 k, if_neg nofun]
        rw [empty, here]
        change pageCount table p + tally _ (s.tables table) = 0 + pageCount table p
        omega
      · cases eq
      · cases eq
      · have := inv.ok u
        rw [empty] at this
        exact this.splits_empty
    next filled =>
      refine inv.setFree (fun p => ?_) ?_ rfl
      · rw [here]
        rfl
      · cases entry : s.entry with
        | empty => exact absurd entry filled
        | leaf frame => exact absurd entry (ok.1 frame)
        | table x => exact ⟨x, rfl⟩
  case testLarge i j =>
    simp only [here] at taken orderly
    cases entry : s.entry with simp only [entry] at taken
    | leaf frame =>
      cases taken
      exact inv.setPc here (fun _ => rfl) ⟨frame, entry⟩
        fun _ => .inr (orderly ⟨frame, entry⟩)
    | empty => exact absurd entry ok
    | table x =>
      cases taken
      exact inv.setPc here (fun _ => rfl) ⟨x, entry⟩ nofun
  case split i j =>
    obtain ⟨frame, entry⟩ := ok
    cases taken
    refine inv.setPc here (fun _ => rfl) ?_ fun _ => .inl rfl
    rw [entry]
    rfl
  case splitAlloc orig i j =>
    split at taken
    · cases taken
    next table =>
      obtain ⟨free, taken⟩ := ite_none_right_eq_some.1 taken
      cases taken
      exact inv.newTable free _ (fun p => by rw [here]; rfl) (fun p => rfl)
        ⟨ok, fun k => by rw [update_self]⟩ fun _ => by rw [here]; rfl
  case splitWrite table orig i j =>
    obtain ⟨entry, pieces⟩ := ok
    cases taken
    refine inv.install (fun x eq => ?_) Entry.noConfusion (fun p => ?_) (fun f eq => ?_)
      (fun f eq => ?_) (fun u ne => ?_) (.inr ⟨rfl, table, rfl⟩)
    · rw [entry] at eq
      cases eq
    · rw [entry, here, installed, installed, funext pieces, tally_pieces (inv.aligned orig entry)]
      exact Nat.add_comm _ _
    · cases eq
    · cases eq
    · by_contra splitting
      exact ne (inv.one u t (by simpa using splitting) (by rw [here]; rfl))
  case follow i j =>
    obtain ⟨table, entry⟩ := ok
    simp only [entry, Slot.nextPtAddr] at taken
    cases taken
    exact inv.setPc here (fun _ => rfl) entry nofun
  case small table i j =>
    split at taken
    · cases taken
      exact inv.setPc here (fun p => nextPage_held table i j p) (nextPage_ok ok i j)
        fun yes => absurd yes (by rw [nextPage_splits]; decide)
    · cases taken
    next frame _ _ =>
      obtain ⟨free, taken⟩ := ite_none_right_eq_some.1 taken
      cases taken
      refine inv.setFree (fun p => ?_) ok rfl
      have := pageCount_le free p
      rw [here]
      change s.free p - pageCount _ p + pageCount _ p = s.free p + 0
      omega
  case casPage table frame i j =>
    split at taken <;> cases taken
    next empty =>
      have isEntry : s.entry = .table table := ok
      refine inv.move rfl (fun p => ?_) inv.aligned (nextPage_ok isEntry i j)
        (fun u _ => (inv.ok u).tables fun x own => ?_)
        (fun yes => absurd yes (by rw [nextPage_splits]; decide)) inv.sound
      · have moved := tally_update (fun e : Option ℕ => if e = some p then 1 else 0)
          (s.tables table) i (some frame)
        have count : (if some frame = some p then 1 else 0) = pageCount frame p := by
          simp [pageCount]
        rw [empty, if_neg nofun, count] at moved
        change s.free p + installed (update s.tables table _) s.entry p + _ = _
        rw [nextPage_held, isEntry, installed, installed, update_self, here]
        change _ = s.free p + _ + pageCount frame p
        omega
      · refine update_of_ne (fun eq => ?_) _ _
        -- The table of the slot is not one that a walker still holds.
        have most := inv.places_le table
        have := Theory.le_tally (fun pc => Pc.held pc table) s.pcs u
        have := Pc.held_ownTable (own.trans (congrArg some eq))
        rw [Slot.places, isEntry, installed, pageCount, if_pos rfl] at most
        omega
    · refine inv.setFree (fun p => ?_) (nextPage_ok ok i j) (nextPage_splits ..)
      rw [here, nextPage_held]
      rfl

theorem Inv.step (inv : Inv all s) {event : Event Thread} (orderly : Orderly s event)
    (taken : s.step event = some s') : Inv all s' := by
  have live : ¬s.aborted = true := by rw [inv.sound]; decide
  cases event with
  | start t full i j =>
    simp only [Slot.step, if_neg live] at taken
    obtain ⟨away, taken⟩ := ite_none_right_eq_some.1 taken
    cases taken
    rcases away with here | here <;> exact inv.setPc here (fun _ => rfl) trivial nofun
  | go t page =>
    simp only [Slot.step, if_neg live] at taken
    exact inv.go orderly taken

/-- Nobody is in the slot, and the allocator owns all pages. -/
structure Boot (all : Finset ℕ) (s : Slot Thread) : Prop where
  entry : s.entry = .empty
  free : ∀ p, s.free p = if p ∈ all then 1 else 0
  pcs : ∀ t, s.pcs t = .idle
  sound : s.aborted = false

theorem Boot.inv (boot : Boot all s) : Inv all s := by
  refine ⟨fun p => ?_, fun frame eq => ?_, fun t => ?_, fun t u yes => ?_, boot.sound⟩
  · have none : tally (fun pc => Pc.held pc p) s.pcs = 0 :=
      Theory.tally_eq_zero.2 fun t => by rw [boot.pcs t]; rfl
    rw [Slot.places, boot.entry, boot.free, none]
    rfl
  · rw [boot.entry] at eq
    cases eq
  · rw [boot.pcs t]
    trivial
  · rw [boot.pcs t] at yes
    cases yes

/-- **Concurrent faults.**  In every orderly run no walker comes to follow a large page and every
page is in one place; when all walkers have finished, the slot is filled and what they allocated
is installed or back with the allocator. -/
theorem orderly_faults
    (reached : Reachable (Boot all) (fun s s' => ∃ event, Orderly s event ∧ s.step event = some s')
      s) :
    s.aborted = false ∧ (∀ p, s.places p = if p ∈ all then 1 else 0) ∧
      ((∀ t, s.pcs t = .idle ∨ s.pcs t = .done) →
        (∀ p ∈ all, s.free p + installed s.tables s.entry p = 1) ∧
        ((∃ t, s.pcs t = .done) → s.entry ≠ .empty)) := by
  have inv := reached.invariant (I := Inv all) (fun _ boot => boot.inv)
    fun _ _ _ inv ⟨_, orderly, taken⟩ => inv.step orderly taken
  refine ⟨inv.sound, inv.places, fun away => ⟨fun p mem => ?_, fun ⟨t, finished⟩ => ?_⟩⟩
  · have none : tally (fun pc => Pc.held pc p) s.pcs = 0 := Theory.tally_eq_zero.2 fun t => by
      rcases away t with eq | eq <;> rw [eq] <;> rfl
    have here := inv.places p
    rw [Slot.places, none, if_pos mem] at here
    exact here
  · have ok := inv.ok t
    rw [finished] at ok
    exact ok

end Invariant

/-! ## Three walkers -/

/-- The third walker is `none`. -/
def atBoot : Slot (Option Bool) where
  entry := .empty
  tables _ _ := none
  free p := if p < 1024 then 1 else 0
  pcs _ := .idle
  aborted := false

theorem atBoot_boot : Boot (Finset.range 1024) atBoot :=
  ⟨rfl, fun _ => if_congr mem_range.symm rfl rfl, fun _ => rfl, rfl⟩

def firstPage : Fin ptePerPage := ⟨0, by decide⟩

def tests (t : Option Bool) : List (Event (Option Bool)) :=
  [.start t true firstPage firstPage, .go t none, .go t none, .go t none]

def installs (t : Option Bool) (frame : ℕ) : List (Event (Option Bool)) :=
  [.start t true firstPage firstPage, .go t none, .go t none, .go t (some frame), .go t none]

/-- A walker that has found a large page reads it again and fills a table. -/
def fills (t : Option Bool) (table : ℕ) : List (Event (Option Bool)) :=
  [.go t none, .go t none, .go t none, .go t (some table)]

/-- A walker stores its table and finds the page of the fault there. -/
def stores (t : Option Bool) : List (Event (Option Bool)) := [.go t none, .go t none, .go t none]

/-- Two walkers without large pages: the first installs its table and its page, the second gives
both back. -/
theorem twoWalkers_orderly : ∃ s : Slot (Option Bool), s.entry = .table 1 ∧
    ∀ p < 1024, s.free p + installed s.tables s.entry p = 1 := by
  let a := some false
  let b := some true
  have start : Reachable (Boot (Finset.range 1024))
      (fun s s' => ∃ event, Orderly s event ∧ s.step event = some s') atBoot := .start atBoot_boot
  have visitA := start.next ⟨.start a true firstPage firstPage, trivial, rfl⟩
  have pageA := visitA.next ⟨.go a none, trivial, rfl⟩
  have allocA := pageA.next ⟨.go a none, trivial, rfl⟩
  have testA := allocA.next ⟨.go a none, trivial, rfl⟩
  have visitB := testA.next ⟨.start b true firstPage firstPage, trivial, rfl⟩
  have pageB := visitB.next ⟨.go b none, trivial, rfl⟩
  have allocB := pageB.next ⟨.go b none, trivial, rfl⟩
  have testB := allocB.next ⟨.go b none, trivial, rfl⟩
  have emptyA := testB.next ⟨.go a none, trivial, rfl⟩
  have tableA := emptyA.next ⟨.go a (some 1), trivial, rfl⟩
  have emptyB := tableA.next ⟨.go b none, trivial, rfl⟩
  have tableB := emptyB.next ⟨.go b (some 2), trivial, rfl⟩
  have casA := tableB.next ⟨.go a none, trivial, rfl⟩
  have casB := casA.next ⟨.go b none, trivial, rfl⟩
  have followA := casB.next ⟨.go a none, trivial, rfl⟩
  have followB := followA.next ⟨.go b none, trivial, rfl⟩
  have smallA := followB.next ⟨.go a (some 3), trivial, rfl⟩
  have smallB := smallA.next ⟨.go b (some 4), trivial, rfl⟩
  have doneA := smallB.next ⟨.go a none, trivial, rfl⟩
  have doneB := doneA.next ⟨.go b none, trivial, rfl⟩
  have faults := (orderly_faults doneB).2.2 (by
    rintro (_ | _ | _)
    · exact .inl rfl
    · exact .inr rfl
    · exact .inr rfl)
  exact ⟨_, rfl, fun p below => faults.1 p (mem_range.2 below)⟩

/-- A large page is installed between the test and the exchange of a walker, whose assertion
fails.  With two walkers that find the large page, all finish, and the first table is neither
installed nor free. -/
theorem faults_abort_or_lose :
    (∃ s : Slot (Option Bool),
      Reachable (Boot (Finset.range 1024)) (fun s s' => ∃ event, s.step event = some s') s ∧
      s.entry = .leaf 512 ∧ s.aborted = true) ∧
    ∃ s : Slot (Option Bool),
      Reachable (Boot (Finset.range 1024)) (fun s s' => ∃ event, s.step event = some s') s ∧
      (∀ t, s.pcs t = .done) ∧ s.aborted = false ∧ s.free 1 + installed s.tables s.entry 1 = 0 := by
  constructor
  · have run : ((tests (some false) ++
        [Event.go (some false) none, .go (some false) (some 1)] ++ installs none 512 ++
        [Event.go (some false) none, .go (some false) none]).foldlM Slot.step atBoot).map
          (fun s => (s.entry, s.aborted)) = some (.leaf 512, true) := by
      decide +kernel
    obtain ⟨s, run, result⟩ := map_eq_some_iff.1 run
    obtain ⟨entry, aborted⟩ := Prod.mk.inj result
    exact ⟨s, Reachable.events (.start atBoot_boot) run, entry, aborted⟩
  · have run : ((tests (some false) ++ tests (some true) ++ installs none 512 ++
        fills (some false) 1 ++ fills (some true) 2 ++ stores (some false) ++
        stores (some true)).foldlM Slot.step atBoot).map (fun s => (decide (∀ t, s.pcs t = .done),
          s.aborted, s.free 1 + installed s.tables s.entry 1)) = some (true, false, 0) := by
      decide +kernel
    obtain ⟨s, run, result⟩ := map_eq_some_iff.1 run
    obtain ⟨done, rest⟩ := Prod.mk.inj result
    obtain ⟨aborted, lost⟩ := Prod.mk.inj rest
    exact ⟨s, Reachable.events (.start atBoot_boot) run, of_decide_eq_true done, aborted, lost⟩

end MiniOsv.Mmu.Faults
