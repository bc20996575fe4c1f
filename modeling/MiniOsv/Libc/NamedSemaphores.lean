/-
# Libc.NamedSemaphores -- the lifetime of named semaphores

`sem_open` hands out pointers to cells, each of which owns one `posix_semaphore`.  The
table maps names to cells.  When an object goes is decided by a reference count and a
flag: `sem_unlink` takes the name away and `sem_close` a reference, and whichever comes
last destroys the object.  The cells themselves are never freed, so a new cell is a new
address.

The mutex of the table makes each call one step.  The state records in addition how many
handles of a cell are open, whether its name was unlinked and how often its object was
destroyed.  A use of a destroyed object makes a call `none`.

`references` is an `int`.  `semaphores_live_as_long_as_needed` is about runs in which no
semaphore has 2^31 open handles at once.
-/
import Mathlib.Algebra.Order.Ring.Int
import MiniOsv.Theory.Transition

namespace MiniOsv.Libc.NamedSemaphores

open Theory
open Function

def semValueMax : ℕ := 0x7fffffff

/-- An `int` after an operation in two's complement. -/
def int32 (n : ℤ) : ℤ := n.bmod (2 ^ 32)

/-- `posix_semaphore`, without what waiting and posting use. -/
structure PosixSemaphore where
  references : ℤ
  named : Bool

open PosixSemaphore

namespace PosixSemaphore

def addReference (sem : PosixSemaphore) : PosixSemaphore :=
  { sem with references := int32 (sem.references + 1) }

def removeReference (sem : PosixSemaphore) : PosixSemaphore :=
  { sem with references := int32 (sem.references - 1) }

def notReferenced (sem : PosixSemaphore) : Bool := sem.references ≤ 0

def unlink (sem : PosixSemaphore) : PosixSemaphore := { sem with named := false }

end PosixSemaphore

structure State (κ : Type) where
  /-- How many cells were made; they are numbered in order. -/
  cells : ℕ
  /-- What a cell owns. -/
  objects : ℕ → Option PosixSemaphore
  table : κ → Option ℕ
  handles : ℕ → ℕ
  unlinked : ℕ → Bool
  destroyed : ℕ → ℕ

open State

def State.initial {κ : Type} : State κ :=
  ⟨0, fun _ => none, fun _ => none, fun _ => 0, fun _ => false, fun _ => 0⟩

/-- What a call returns. -/
inductive Result where
  | sem (p : ℕ)
  | ok
  | eexist
  | einval
  | enoent
  deriving DecidableEq

inductive Event (κ : Type) where
  | semOpen (name : κ) (creat excl : Bool) (value : ℕ)
  | semUnlink (name : κ)
  | semClose (p : ℕ)

variable {κ : Type} [DecidableEq κ]

namespace State

/-- `sem_destroy` on a cell. -/
def semDestroy (s : State κ) (p : ℕ) : Option (State κ) :=
  match s.objects p with
  | none => none
  | some _ =>
    some { s with
           objects := update s.objects p none
           destroyed := update s.destroyed p (s.destroyed p + 1) }

def semOpen (s : State κ) (name : κ) (creat excl : Bool) (value : ℕ) :
    Option (Result × State κ) :=
  match s.table name with
  | some p =>
    if excl && creat then some (.eexist, s)
    else
      match s.objects p with
      | none => none
      | some sem =>
        some (.sem p,
          { s with
            objects := update s.objects p (some sem.addReference)
            handles := update s.handles p (s.handles p + 1) })
  | none =>
    if creat then
      if semValueMax < value then some (.einval, s)
      else
        some (.sem s.cells,
          { s with
            cells := s.cells + 1
            objects := update s.objects s.cells (some ⟨1, true⟩)
            table := update s.table name (some s.cells)
            handles := update s.handles s.cells 1 })
    else some (.enoent, s)

def semUnlink (s : State κ) (name : κ) : Option (Result × State κ) :=
  match s.table name with
  | none => some (.enoent, s)
  | some p =>
    match s.objects p with
    | none => none
    | some sem =>
      let marked : State κ :=
        { s with
          objects := update s.objects p (some sem.unlink)
          unlinked := update s.unlinked p true }
      let destroyed := if sem.unlink.notReferenced then marked.semDestroy p else some marked
      destroyed.map fun s => (.ok, { s with table := update s.table name none })

def semClose (s : State κ) (p : ℕ) : Option (Result × State κ) :=
  match s.objects p with
  | none => none
  | some sem =>
    let sem := sem.removeReference
    let closed : State κ :=
      { s with
        objects := update s.objects p (some sem)
        handles := update s.handles p (s.handles p - 1) }
    let destroyed := if !sem.named && sem.notReferenced then closed.semDestroy p else some closed
    destroyed.map fun s => (.ok, s)

def step (s : State κ) : Event κ → Option (Result × State κ)
  | .semOpen name creat excl value => s.semOpen name creat excl value
  | .semUnlink name => s.semUnlink name
  | .semClose p => s.semClose p

end State

/-- Only open handles are closed. -/
def Allowed (s : State κ) : Event κ → Prop
  | .semClose p => 0 < s.handles p
  | _ => True

/-- The count of the semaphore that is opened does not overflow. -/
def Counts (s : State κ) : Event κ → Prop
  | .semOpen name _ _ _ => ∀ p, s.table name = some p → s.handles p + 1 < 2 ^ 31
  | _ => True

/-! ## The invariant -/

/-- Cell `p` has neither a name nor an open handle. -/
def State.Abandoned (s : State κ) (p : ℕ) : Prop := s.unlinked p = true ∧ s.handles p = 0

instance (s : State κ) (p : ℕ) : Decidable (s.Abandoned p) := inferInstanceAs (Decidable (_ ∧ _))

/-- What holds of the cell `p`. -/
structure CellInv (s : State κ) (p : ℕ) : Prop where
  /-- The object is there as long as somebody can reach it, and its fields say so. -/
  live : ¬ s.Abandoned p →
    s.objects p = some ⟨s.handles p, !s.unlinked p⟩ ∧ s.destroyed p = 0
  gone : s.Abandoned p → s.objects p = none ∧ s.destroyed p = 1
  bound : s.handles p < 2 ^ 31

structure Inv (s : State κ) : Prop where
  cell : ∀ p, p < s.cells → CellInv s p
  unused : ∀ p, s.cells ≤ p → s.objects p = none ∧ s.handles p = 0 ∧ s.unlinked p = false ∧
    s.destroyed p = 0
  /-- A name leads to a cell that was not unlinked. -/
  table : ∀ name p, s.table name = some p → p < s.cells ∧ s.unlinked p = false
  /-- Different names lead to different cells. -/
  single : ∀ name other p, s.table name = some p → s.table other = some p → name = other

omit [DecidableEq κ] in
theorem inv_initial : Inv (initial : State κ) where
  cell p below := absurd below (Nat.not_lt_zero p)
  unused _ _ := ⟨rfl, rfl, rfl, rfl⟩
  table _ _ entry := by cases entry
  single _ _ _ entry := by cases entry

theorem int32_eq {n : ℕ} (bound : n < 2 ^ 31) : int32 n = n := by
  rw [int32, Int.bmod_def]
  omega

omit [DecidableEq κ] in
/-- The other cells when cell `p` changes. -/
theorem CellInv.congr {s s' : State κ} {q : ℕ} (inv : CellInv s q)
    (objects : s'.objects q = s.objects q) (handles : s'.handles q = s.handles q)
    (unlinked : s'.unlinked q = s.unlinked q) (destroyed : s'.destroyed q = s.destroyed q) :
    CellInv s' q := by
  have same : s'.Abandoned q ↔ s.Abandoned q := by
    rw [Abandoned, Abandoned, handles, unlinked]
  refine ⟨fun held => ?_, fun left => ?_, ?_⟩
  · rw [objects, handles, unlinked, destroyed]
    exact inv.live (mt same.2 held)
  · rw [objects, destroyed]
    exact inv.gone (same.1 left)
  · rw [handles]
    exact inv.bound

variable {s : State κ}

omit [DecidableEq κ] in
theorem Inv.named_held (inv : Inv s) {name : κ} {p : ℕ}
    (entry : s.table name = some p) : ¬ s.Abandoned p := by
  intro abandoned
  rw [Abandoned, (inv.table name p entry).2] at abandoned
  cases abandoned.1

/-! ## The calls -/

/-- **What a call does.** -/
structure Served (s : State κ) (event : Event κ) (r : Result) (s' : State κ) : Prop where
  inv : Inv s'
  /-- Only `sem_unlink` of the name takes an entry out of the table. -/
  kept : ∀ name p, s.table name = some p → event ≠ .semUnlink name → s'.table name = some p
  /-- A successful open gives the semaphore of the name, or a cell that is new; then
  nothing happens to any other. -/
  opened : ∀ name creat excl value, event = .semOpen name creat excl value →
    (∀ q, r = .sem q → s'.table name = some q ∧ s'.handles q = s.handles q + 1) ∧
    (∀ p, s.table name = some p → (excl && creat) = false → r = .sem p) ∧
    (s.table name = none → creat = true → value ≤ semValueMax → r = .sem s.cells ∧
      ∀ p, p ≠ s.cells → s'.objects p = s.objects p ∧ s'.handles p = s.handles p)
  unlinks : ∀ name p, event = .semUnlink name → s.table name = some p →
    s'.table name = none ∧ s'.unlinked p = true ∧ s'.handles p = s.handles p
  closes : ∀ p, event = .semClose p → s'.handles p + 1 = s.handles p

omit [DecidableEq κ] in
/-- The cell whose object was destroyed or changed, among the others. -/
theorem Inv.change {s s' : State κ} (inv : Inv s) {p : ℕ} (below : p < s.cells)
    (cell : CellInv s' p) (cells : s'.cells = s.cells)
    (others : ∀ q, q ≠ p → s'.objects q = s.objects q ∧ s'.handles q = s.handles q ∧
      s'.unlinked q = s.unlinked q ∧ s'.destroyed q = s.destroyed q)
    (table : ∀ name q, s'.table name = some q →
      s.table name = some q ∧ s'.unlinked q = s.unlinked q) : Inv s' where
  cell q bound := by
    by_cases same : q = p
    · subst same
      exact cell
    · obtain ⟨objects, handles, unlinked, destroyed⟩ := others q same
      exact (inv.cell q (cells ▸ bound)).congr objects handles unlinked destroyed
  unused q above := by
    rw [cells] at above
    obtain ⟨objects, handles, unlinked, destroyed⟩ := others q (by omega)
    rw [objects, handles, unlinked, destroyed]
    exact inv.unused q above
  table name q entry := by
    obtain ⟨before, same⟩ := table name q entry
    rw [cells, same]
    exact inv.table name q before
  single name other q entry entry' :=
    inv.single name other q (table name q entry).1 (table other q entry').1

omit [DecidableEq κ] in
theorem Inv.reopened (inv : Inv s) {name : κ} {p : ℕ} (entry : s.table name = some p)
    (count : s.handles p + 1 < 2 ^ 31) :
    Inv { s with
      objects := update s.objects p
        (some (addReference ⟨s.handles p, !s.unlinked p⟩))
      handles := update s.handles p (s.handles p + 1) } := by
  obtain ⟨below, _⟩ := inv.table name p entry
  obtain ⟨_, intact⟩ := (inv.cell p below).live (inv.named_held entry)
  have references : int32 (s.handles p + 1) = ((s.handles p + 1 : ℕ) : ℤ) := int32_eq count
  refine inv.change below ⟨fun _ => ⟨?_, intact⟩, fun left => ?_, ?_⟩ rfl (fun q other => ?_)
    fun _ _ same => ⟨same, rfl⟩
  · simp [addReference, references]
  · simp [Abandoned] at left
  · simpa using count
  · simp [other]

theorem Inv.created (inv : Inv s) (name : κ) :
    Inv { s with
      cells := s.cells + 1
      objects := update s.objects s.cells (some ⟨1, true⟩)
      table := update s.table name (some s.cells)
      handles := update s.handles s.cells 1 } := by
  obtain ⟨_, _, linked, intact⟩ := inv.unused s.cells (Nat.le_refl _)
  -- An entry is the new one, or an old one that leads to an old cell.
  have entries : ∀ other q, update s.table name (some s.cells) other = some q →
      other = name ∧ q = s.cells ∨ s.table other = some q ∧ q ≠ s.cells := by
    intro other q same
    by_cases here : other = name
    · rw [here, update_self] at same
      exact .inl ⟨here, (Option.some.inj same).symm⟩
    · rw [update_of_ne here] at same
      have below := (inv.table other q same).1
      exact .inr ⟨same, by omega⟩
  refine ⟨fun q bound => ?_, fun q above => ?_, fun other q same => ?_,
    fun one other q same same' => ?_⟩
  · by_cases new : q = s.cells
    · subst new
      refine ⟨fun _ => ⟨by simp [linked], intact⟩, fun left => ?_, by simp⟩
      simp [Abandoned] at left
    · exact (inv.cell q (by dsimp only at bound; omega)).congr
        (update_of_ne new _ _) (update_of_ne new _ _) rfl rfl
  · dsimp only at above
    have new : q ≠ s.cells := by omega
    simpa [new] using inv.unused q (by omega)
  · rcases entries other q same with ⟨_, rfl⟩ | ⟨old, _⟩
    · exact ⟨Nat.lt_succ_self _, linked⟩
    · obtain ⟨below, linked⟩ := inv.table other q old
      exact ⟨Nat.lt_succ_of_lt below, linked⟩
  · rcases entries one q same with ⟨here, new⟩ | ⟨old, notNew⟩
    · rcases entries other q same' with ⟨there, _⟩ | ⟨_, notNew⟩
      · rw [here, there]
      · exact absurd new notNew
    · rcases entries other q same' with ⟨_, new⟩ | ⟨old', _⟩
      · exact absurd new notNew
      · exact inv.single one other q old old'

omit [DecidableEq κ] in
theorem Inv.refused (inv : Inv s) {name : κ} {creat excl : Bool} {value : ℕ} {r : Result}
    (failed : ∀ q, r ≠ .sem q) (present : ∀ p, s.table name = some p → (excl && creat) = true)
    (absent : s.table name = none → creat = true → semValueMax < value) :
    Served s (.semOpen name creat excl value) r s := by
  refine ⟨inv, fun _ _ same _ => same, ?_, nofun,
    nofun⟩
  intro _ _ _ _ same
  cases same
  refine ⟨fun q opened => absurd opened (failed q), fun p entry other => ?_,
    fun none create small => ?_⟩
  · rw [present p entry] at other
    cases other
  · exact absurd small (Nat.not_le_of_lt (absent none create))

attribute [local simp] semOpen

theorem semOpen_served (inv : Inv s) {name : κ} {creat excl : Bool} {value : ℕ}
    (counts : Counts s (.semOpen name creat excl value)) :
    ∃ r s', s.semOpen name creat excl value = some (r, s') ∧
      Served s (.semOpen name creat excl value) r s' := by
  cases entry : s.table name with
  | some p =>
    cases exclusive : excl && creat with
    | true =>
      refine ⟨.eexist, s, by simp [entry, exclusive], inv.refused
        nofun (fun _ _ => exclusive) fun none => ?_⟩
      rw [entry] at none
      cases none
    | false =>
      have below := (inv.table name p entry).1
      obtain ⟨object, _⟩ := (inv.cell p below).live (inv.named_held entry)
      refine ⟨.sem p, _, by simp [entry, exclusive, object],
        inv.reopened entry (counts p entry), fun _ _ same _ => same, ?_,
        nofun, nofun⟩
      intro _ _ _ _ same
      cases same
      refine ⟨fun q opened => ?_, fun _ same _ => ?_, fun none => ?_⟩
      · cases opened
        exact ⟨entry, update_self p _ _⟩
      · cases entry.symm.trans same
        rfl
      · rw [entry] at none
        cases none
  | none =>
    have absent : ∀ p, s.table name ≠ some p := fun p same => by
      rw [entry] at same
      cases same
    cases creat with
    | false =>
      exact ⟨.enoent, s, by simp [entry], inv.refused
        nofun (fun p same => absurd same (absent p))
        nofun⟩
    | true =>
      by_cases large : semValueMax < value
      · exact ⟨.einval, s, by simp [entry, large], inv.refused
          nofun (fun p same => absurd same (absent p))
          fun _ _ => large⟩
      · have noHandle := (inv.unused s.cells (Nat.le_refl _)).2.1
        refine ⟨.sem s.cells, _, by simp [entry, large], inv.created name,
          fun other q same _ => ?_, ?_, nofun,
          nofun⟩
        · have different : other ≠ name := fun equal => absent q (equal ▸ same)
          simpa [different] using same
        · intro _ _ _ _ same
          cases same
          refine ⟨fun q opened => ?_, fun p same => absurd same (absent p),
            fun _ _ _ => ⟨rfl, fun p other => ?_⟩⟩
          · cases opened
            simp [noHandle]
          · simp [other]

omit [DecidableEq κ] in
theorem notReferenced_iff (n : ℕ) (named : Bool) :
    (mk (n : ℤ) named).notReferenced = decide (n = 0) := by
  have sign : ((n : ℤ) ≤ 0) ↔ n = 0 := by omega
  rw [notReferenced, decide_eq_decide]
  exact sign

theorem semUnlink_served (inv : Inv s) (name : κ) :
    ∃ r s', s.semUnlink name = some (r, s') ∧ Served s (.semUnlink name) r s' := by
  cases entry : s.table name with
  | none =>
    refine ⟨.enoent, s, by simp [semUnlink, entry], inv, fun _ _ same _ => same,
      nofun, fun _ p same present => ?_,
      nofun⟩
    cases same
    rw [entry] at present
    cases present
  | some p =>
    obtain ⟨below, linked⟩ := inv.table name p entry
    obtain ⟨object, intact⟩ := (inv.cell p below).live (inv.named_held entry)
    have bound := (inv.cell p below).bound
    have counted := notReferenced_iff (s.handles p) false
    -- The entry goes, and no other one leads to the cell.
    have table : ∀ other q, update s.table name none other = some q →
        s.table other = some q ∧ update s.unlinked p true q = s.unlinked q := by
      intro other q same
      by_cases here : other = name
      · rw [here, update_self] at same
        cases same
      · rw [update_of_ne here] at same
        refine ⟨same, update_of_ne (fun equal => ?_) _ _⟩
        exact here (inv.single other name p (equal ▸ same) entry)
    have kept : ∀ other q, s.table other = some q → Event.semUnlink name ≠ .semUnlink other →
        update s.table name none other = some q := fun other q same different => by
      have here : other ≠ name := fun equal => different (by rw [equal])
      rw [update_of_ne here, same]
    by_cases last : s.handles p = 0
    · refine ⟨.ok, { s with
        objects := update (update s.objects p (some (unlink ⟨s.handles p, !s.unlinked p⟩))) p none
        table := update s.table name none
        unlinked := update s.unlinked p true
        destroyed := update s.destroyed p (s.destroyed p + 1) },
        ?_, ?_, kept, nofun, ?_,
        nofun⟩
      · simp only [semUnlink, entry, object, unlink, counted]
        simp [last, semDestroy]
      · refine inv.change below ⟨fun held => ?_, fun _ => ?_, bound⟩ rfl (fun q other => ?_) table
        · exact absurd ⟨update_self p _ _, last⟩ held
        · simp [intact]
        · simp [other]
      · intro _ q same present
        cases same
        cases entry.symm.trans present
        simp
    · refine ⟨.ok, { s with
        objects := update s.objects p
          (some (unlink ⟨s.handles p, !s.unlinked p⟩))
        table := update s.table name none
        unlinked := update s.unlinked p true },
        by simp [semUnlink, entry, object, unlink, counted, last], ?_, kept,
        nofun, ?_, nofun⟩
      · refine inv.change below ⟨fun _ => ⟨?_, intact⟩, fun left => ?_, bound⟩ rfl
          (fun q other => ?_) table
        · simp [unlink]
        · exact absurd left.2 last
        · simp [other]
      · intro _ q same present
        cases same
        cases entry.symm.trans present
        simp

omit [DecidableEq κ] in
theorem semClose_served (inv : Inv s) {p : ℕ} (opened : 0 < s.handles p) :
    ∃ r s', s.semClose p = some (r, s') ∧ Served s (.semClose p) r s' := by
  have below : p < s.cells := by
    by_contra above
    have none := (inv.unused p (Nat.le_of_not_lt above)).2.1
    omega
  have held : ¬ s.Abandoned p := fun abandoned => absurd abandoned.2 (by omega)
  obtain ⟨object, intact⟩ := (inv.cell p below).live held
  have bound := (inv.cell p below).bound
  have count : int32 ((s.handles p : ℤ) - 1) = ((s.handles p - 1 : ℕ) : ℤ) := by
    rw [← int32_eq (show s.handles p - 1 < 2 ^ 31 by omega)]
    congr 1
    omega
  have counted := notReferenced_iff (s.handles p - 1) (!s.unlinked p)
  have fewer : s.handles p - 1 + 1 = s.handles p := by omega
  by_cases last : s.unlinked p = true ∧ s.handles p - 1 = 0
  · refine ⟨.ok, { s with
      objects := update (update s.objects p
        (some ⟨((s.handles p - 1 : ℕ) : ℤ), !s.unlinked p⟩)) p none
      handles := update s.handles p (s.handles p - 1)
      destroyed := update s.destroyed p (s.destroyed p + 1) },
      ?_, ?_, fun _ _ same _ => same, nofun,
      nofun, fun q same => ?_⟩
    · simp only [semClose, object, removeReference, count, counted]
      simp [last.1, last.2, semDestroy]
    · refine inv.change below ⟨fun kept => ?_, fun _ => ?_, ?_⟩ rfl (fun q other => ?_)
        fun _ _ same => ⟨same, rfl⟩
      · exact absurd ⟨last.1, by simpa using last.2⟩ kept
      · simp [intact]
      · simp only [update_self]
        omega
      · simp [other]
    · cases same
      simpa using fewer
  · refine ⟨.ok, { s with
      objects := update s.objects p
        (some ⟨((s.handles p - 1 : ℕ) : ℤ), !s.unlinked p⟩)
      handles := update s.handles p (s.handles p - 1) },
      ?_, ?_, fun _ _ same _ => same, nofun,
      nofun, fun q same => ?_⟩
    · have stays : ¬ ((!(!s.unlinked p)) && decide (s.handles p - 1 = 0)) = true := by
        simpa using last
      simp only [semClose, object, removeReference, count, counted]
      rw [if_neg stays]
      rfl
    · refine inv.change below ⟨fun _ => ⟨?_, intact⟩, fun left => ?_, ?_⟩ rfl (fun q other => ?_)
        fun _ _ same => ⟨same, rfl⟩
      · simp
      · exact absurd ⟨left.1, by simpa using left.2⟩ last
      · simp only [update_self]
        omega
      · simp [other]
    · cases same
      simpa using fewer

/-! ## Runs -/

theorem step_served (inv : Inv s) {event : Event κ} (allowed : Allowed s event)
    (counts : Counts s event) : ∃ r s', s.step event = some (r, s') ∧ Served s event r s' := by
  cases event with
  | semOpen name creat excl value => exact semOpen_served inv counts
  | semUnlink name => exact semUnlink_served inv name
  | semClose p => exact semClose_served inv allowed

def Steps (s s' : State κ) : Prop := ∃ event r, Allowed s event ∧ s.step event = some (r, s')

def CountedSteps (s s' : State κ) : Prop :=
  ∃ event r, Allowed s event ∧ Counts s event ∧ s.step event = some (r, s')

theorem reached_inv (run : Reachable (· = initial) CountedSteps s) : Inv s :=
  run.invariant (fun _ initial => initial ▸ inv_initial)
    fun s s' _ inv ⟨event, r, allowed, counts, taken⟩ => by
      obtain ⟨_, _, call, served⟩ := step_served inv allowed counts
      cases taken.symm.trans call
      exact served.inv

/-- **Semaphores live as long as they are needed.**  In every state reached: a name leads to
one live object, and different names to different ones; an object was destroyed, once,
exactly if its name was unlinked and it has no open handle, and else it is there; and the
next call is served as `Served` says. -/
theorem semaphores_live_as_long_as_needed {s : State κ}
    (run : Reachable (· = initial) CountedSteps s) :
    (∀ name p, s.table name = some p → (s.objects p).isSome = true ∧ s.unlinked p = false) ∧
    (∀ name other p, s.table name = some p → s.table other = some p → name = other) ∧
    (∀ p, p < s.cells →
      s.destroyed p = (if s.unlinked p = true ∧ s.handles p = 0 then 1 else 0) ∧
      ((s.objects p).isSome = true ↔ ¬ (s.unlinked p = true ∧ s.handles p = 0))) ∧
    ∀ event, Allowed s event → Counts s event →
      ∃ r s', s.step event = some (r, s') ∧ Served s event r s' := by
  have inv := reached_inv run
  refine ⟨fun name p entry => ?_, inv.single, fun p below => ?_,
    fun event allowed counts => step_served inv allowed counts⟩
  · obtain ⟨below, linked⟩ := inv.table name p entry
    rw [((inv.cell p below).live (inv.named_held entry)).1]
    exact ⟨rfl, linked⟩
  · by_cases left : s.unlinked p = true ∧ s.handles p = 0
    · obtain ⟨gone, once⟩ := (inv.cell p below).gone left
      rw [gone, once, if_pos left]
      exact ⟨rfl, nofun, fun h => absurd left h⟩
    · obtain ⟨object, intact⟩ := (inv.cell p below).live left
      rw [object, intact, if_neg left]
      exact ⟨rfl, fun _ => left, fun _ => rfl⟩

/-- One semaphore, opened twice, unlinked and closed twice. -/
theorem closedTwice_destroyed :
    ∃ s : State Unit,
      [Event.semOpen () true false 0, .semOpen () false false 0, .semUnlink (), .semClose 0,
        .semClose 0].foldlM (fun s event => (s.step event).map Prod.snd) initial = some s ∧
      s.destroyed 0 = (if s.unlinked 0 = true ∧ s.handles 0 = 0 then 1 else 0) ∧
      s.unlinked 0 = true ∧ s.handles 0 = 0 := by
  have begun : Reachable (· = (initial : State Unit)) CountedSteps initial := .start rfl
  have created := begun.next ⟨.semOpen () true false 0, _, trivial, nofun, rfl⟩
  have again := created.next ⟨.semOpen () false false 0, _, trivial, fun p h => by
    cases h
    decide, rfl⟩
  have unlinked := again.next ⟨.semUnlink (), _, trivial, trivial, rfl⟩
  have one := unlinked.next ⟨.semClose 0, _, Nat.zero_lt_succ 1, trivial, rfl⟩
  have two := one.next ⟨.semClose 0, _, Nat.zero_lt_succ 0, trivial, rfl⟩
  exact ⟨_, rfl, ((semaphores_live_as_long_as_needed two).2.2.1 0 (by decide)).1, rfl, rfl⟩

/-! ## The count overflows -/

/-- One semaphore with `k` open handles. -/
def held (k : ℕ) : State Unit where
  cells := 1
  objects := update (fun _ => none) 0 (some ⟨int32 k, true⟩)
  table := update (fun _ => none) () (some 0)
  handles := update (fun _ => 0) 0 k
  unlinked _ := false
  destroyed _ := 0

theorem held_opened (k : ℕ) :
    (held k).step (.semOpen () false false 0) = some (.sem 0, held (k + 1)) := by
  have count : int32 (int32 k + 1) = int32 ((k + 1 : ℕ) : ℤ) := by
    rw [int32, int32, Int.bmod_add_bmod, int32, Int.natCast_add]
    rfl
  simp [step, held, addReference, count]

theorem held_reached (k : ℕ) : Reachable (· = initial) Steps (held (k + 1)) := by
  induction k with
  | zero =>
    have created : Steps (initial : State Unit) (held 1) :=
      ⟨.semOpen () true false 0, .sem 0, trivial, rfl⟩
    exact Reachable.next (.start rfl) created
  | succ k ih =>
    exact ih.next ⟨.semOpen () false false 0, .sem 0, trivial, held_opened (k + 1)⟩

/-- 2^31 opens and an unlink: the count is negative, and the object goes with all its
handles open. -/
theorem overflow_destroys_open :
    ∃ s : State Unit, Reachable (· = initial) Steps s ∧
      s.handles 0 = 2 ^ 31 ∧ s.objects 0 = none ∧ s.destroyed 0 = 1 := by
  have full := held_reached (2 ^ 31 - 1)
  exact ⟨_, full.next ⟨.semUnlink (), _, trivial, rfl⟩, rfl, rfl, rfl⟩

end MiniOsv.Libc.NamedSemaphores
