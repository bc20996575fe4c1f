/-
# Mmu.TableDetach -- page tables are freed by RCU, not behind a flush

`unpopulate::intermediate_page_post` queues the page table with `rcu_defer` and then clears the
entry that pointed to it.  The callback frees the table at any time after that, on another
thread, while leaf frames go through `tlb_gather` and are freed behind a flush.  The model takes
the walk of `TlbGather` apart into the steps that a callback can come between; `Phase` is not in
the code, it says how far the flush for a table has come.

A flush at the end of `operate_range` covers every table that the walk detached
(`Inv.go`).  It is missing when the walk found no leaf, and it may come too late for a callback
that does not wait for the end of the walk.
-/
import MiniOsv.Mmu.TlbGather
import MiniOsv.Theory.Transition

namespace MiniOsv.Mmu.TableDetach

open Theory (Reachable)
open Mmu.Unpopulate (Call maxPages)

open List Function

/-! ## The model -/

/-- The entry still points to the table; it was cleared; a `flush_tlb_all` has started since;
one has ended. -/
inductive Phase
  | linked | cleared | flushing | flushed
  deriving DecidableEq, Repr

/-- A callback that frees a page table, with the operation that queued it. -/
structure Deferred where
  table : ℕ
  op : ℕ
  phase : Phase
  deriving DecidableEq, Repr

/-- Where the thread in `operate_range` is, with the calls that the walker has still to make. -/
inductive WalkPc
  | idle
  | walk (calls : List Call)
  /-- In `page`: the leaf entry is cleared, `push` comes next. -/
  | gather (page : TlbPage) (calls : List Call)
  /-- In `push`: the gather was full and is being flushed. -/
  | flushFull (page : TlbPage) (calls : List Call)
  /-- In `intermediate_page_post`: the callback is queued, the entry is not yet cleared. -/
  | detach (ptep : ℕ) (calls : List Call)
  /-- In the flush that `tlb_flush_needed` makes or asks for. -/
  | flushLast
  deriving DecidableEq, Repr

structure State where
  ptes : ℕ → ℕ
  pages : List TlbPage
  doFlush : Bool
  pc : WalkPc
  op : ℕ
  deferred : List Deferred
  /-- The tables that were freed, with their phase at that time. -/
  freed : List Deferred

inductive Event
  /-- `operate_range(unpopulate(..), ..)` for a walk that makes these calls. -/
  | operate (calls : List Call)
  | go
  /-- RCU runs the callback at this place of the queue. -/
  | callback (i : ℕ)

def Phase.clear : Phase → Phase
  | .linked => .cleared
  | p => p

def Phase.flushBegin : Phase → Phase
  | .cleared => .flushing
  | p => p

def Phase.flushEnd : Phase → Phase
  | .flushing => .flushed
  | p => p

namespace State

/-- The phases of all queued tables change. -/
def advance (s : State) (f : Phase → Phase) : State :=
  { s with deferred := s.deferred.map fun d => { d with phase := f d.phase } }

def go (s : State) : Option State :=
  match s.pc with
  | .idle => none
  | .walk (.page level ptep :: calls) =>
    some { s with ptes := update s.ptes ptep 0,
                  pc := .gather ⟨s.ptes ptep, level.size⟩ calls }
  | .gather page calls =>
    if s.pages.length = maxPages then
      some { s.advance Phase.flushBegin with pc := .flushFull page calls }
    else some { s with pages := s.pages ++ [page], doFlush := true, pc := .walk calls }
  | .flushFull page calls =>
    some { s.advance Phase.flushEnd with pages := [page], doFlush := false, pc := .walk calls }
  | .walk (.intermediatePagePost ptep :: calls) =>
    some { s with deferred := ⟨s.ptes ptep, s.op, .linked⟩ :: s.deferred, pc := .detach ptep calls }
  | .detach ptep calls =>
    some { s.advance Phase.clear with ptes := update s.ptes ptep 0, pc := .walk calls }
  | .walk [] =>
    if s.pages = [] ∧ s.doFlush = false then some { s with pc := .idle }
    else some { s.advance Phase.flushBegin with pc := .flushLast }
  | .flushLast => some { s.advance Phase.flushEnd with pages := [], pc := .idle }

def operate (s : State) (calls : List Call) : Option State :=
  match s.pc with
  | .idle => some { s with pages := [], doFlush := false, pc := .walk calls, op := s.op + 1 }
  | _ => none

def callback (s : State) (i : ℕ) : Option State :=
  s.deferred[i]?.map fun d => { s with deferred := s.deferred.eraseIdx i, freed := d :: s.freed }

def step (s : State) : Event → Option State
  | .operate calls => s.operate calls
  | .go => s.go
  | .callback i => s.callback i

def Initial (s : State) : Prop := s.pc = .idle ∧ s.op = 0 ∧ s.deferred = [] ∧ s.freed = []

/-- RCU runs a callback only when the operation that queued it has ended, and an operation that
comes to a page table also comes to a leaf. -/
def Allowed (s : State) : Event → Prop
  | .operate calls => (∃ ptep, .intermediatePagePost ptep ∈ calls) → ∃ level ptep, .page level ptep ∈ calls
  | .go => True
  | .callback i => ∀ d, s.deferred[i]? = some d → d.op = s.op → s.pc = .idle

/-- The states of the runs whose steps are all allowed. -/
def ReachedAllowed (s : State) : Prop :=
  Reachable Initial (fun s t => ∃ event, s.Allowed event ∧ s.step event = some t) s

/-! ## The invariant -/

end State

/-- The phases that a queued table can be in. -/
def WalkPc.phases : WalkPc → List Phase
  | .idle => [.flushed]
  | .detach _ _ => [.linked, .cleared, .flushed]
  | .flushFull _ _ | .flushLast => [.flushing, .flushed]
  | .walk _ | .gather _ _ => [.cleared, .flushed]

/-- A page table is still to come. -/
def WalkPc.PostToCome : WalkPc → Prop
  | .walk calls | .gather _ calls | .flushFull _ calls | .detach _ calls =>
    ∃ ptep, .intermediatePagePost ptep ∈ calls
  | .idle | .flushLast => False

/-- A leaf is still to be gathered, or its flush is under way. -/
def WalkPc.PageToCome : WalkPc → Prop
  | .walk calls | .detach _ calls => ∃ level ptep, .page level ptep ∈ calls
  | .gather _ _ | .flushFull _ _ | .flushLast => True
  | .idle => False

structure Inv (s : State) : Prop where
  begun : ∀ d ∈ s.deferred, d.op ≤ s.op
  past : ∀ d ∈ s.deferred, d.op < s.op → d.phase = .flushed
  phases : ∀ d ∈ s.deferred, d.phase ∈ s.pc.phases
  gathers : s.pc ≠ .idle → (∃ d ∈ s.deferred, d.op = s.op) ∨ s.pc.PostToCome →
    s.pages ≠ [] ∨ s.pc.PageToCome
  freed : ∀ d ∈ s.freed, d.phase = .flushed

section Steps

variable {s s' : State}

/-- A step of the walk that moves the phases on: it keeps what is flushed, and the new phases fit
the new place. -/
theorem Inv.advance (inv : Inv s) {f : Phase → Phase} (flushed : f .flushed = .flushed) {pc : WalkPc}
    (fits : ∀ p ∈ s.pc.phases, f p ∈ pc.phases) {ptes : ℕ → ℕ} {pages : List TlbPage} {doFlush : Bool}
    (gathers : pc ≠ .idle → (∃ d ∈ s.deferred, d.op = s.op) ∨ pc.PostToCome →
      pages ≠ [] ∨ pc.PageToCome) :
    Inv { s.advance f with ptes := ptes, pages := pages, doFlush := doFlush, pc := pc } := by
  refine ⟨fun d mem => ?_, fun d mem less => ?_, fun d mem => ?_, fun busy work => ?_, inv.freed⟩
  · obtain ⟨e, old, rfl⟩ := mem_map.1 mem
    exact inv.begun e old
  · obtain ⟨e, old, rfl⟩ := mem_map.1 mem
    show f e.phase = .flushed
    rw [inv.past e old less, flushed]
  · obtain ⟨e, old, rfl⟩ := mem_map.1 mem
    exact fits _ (inv.phases e old)
  · refine gathers busy (work.imp_left ?_)
    rintro ⟨d, mem, now⟩
    obtain ⟨e, old, rfl⟩ := mem_map.1 mem
    exact ⟨e, old, now⟩

theorem Inv.move (inv : Inv s) {pc : WalkPc} (fits : ∀ p ∈ s.pc.phases, p ∈ pc.phases) {ptes : ℕ → ℕ}
    {pages : List TlbPage} {doFlush : Bool}
    (gathers : pc ≠ .idle → (∃ d ∈ s.deferred, d.op = s.op) ∨ pc.PostToCome →
      pages ≠ [] ∨ pc.PageToCome) :
    Inv { s with ptes := ptes, pages := pages, doFlush := doFlush, pc := pc } := by
  have same : s.advance id = s := by simp [State.advance]
  have moved : Inv { s.advance id with ptes := ptes, pages := pages, doFlush := doFlush, pc := pc } :=
    inv.advance rfl fits gathers
  rwa [same] at moved

attribute [local simp] WalkPc.phases

theorem Inv.operate (inv : Inv s) {calls : List Call}
    (allowed : s.Allowed (.operate calls)) (result : s.operate calls = some s') : Inv s' := by
  unfold State.operate at result
  split at result
  case h_2 => cases result
  case h_1 idle =>
    cases result
    have all : ∀ d ∈ s.deferred, d.phase = .flushed := by
      intro d mem
      have phase := inv.phases d mem
      rw [idle] at phase
      exact mem_singleton.1 phase
    refine ⟨fun d mem => (inv.begun d mem).trans (Nat.le_succ _), fun d mem _ => all d mem,
      fun d mem => ?_, fun _ work => ?_, inv.freed⟩
    · rw [all d mem]
      simp
    · rcases work with ⟨d, mem, now⟩ | posts
      · have := inv.begun d mem
        simp only at now
        omega
      · exact .inr (allowed posts)

theorem Inv.go (inv : Inv s) (result : s.go = some s') : Inv s' := by
  unfold State.go at result
  split at result
  case h_1 => cases result
  case h_2 level ptep calls here =>
    cases result
    exact inv.move (by simp [here]) fun _ _ => .inr trivial
  case h_3 page calls here =>
    split at result <;> cases result
    · exact inv.advance rfl (by simp [here, Phase.flushBegin]) fun _ _ => .inr trivial
    · exact inv.move (by simp [here]) fun _ _ => .inl (by simp)
  case h_4 page calls here =>
    cases result
    exact inv.advance rfl (by simp [here, Phase.flushEnd]) fun _ _ => .inl (by simp)
  case h_5 ptep calls here =>
    cases result
    have leaf := inv.gathers (by simp [here]) (.inr (by simp [here, WalkPc.PostToCome]))
    refine ⟨?_, ?_, ?_, fun _ _ => leaf.imp_right ?_, inv.freed⟩
    · rintro d (_ | ⟨_, old⟩)
      · exact le_refl _
      · exact inv.begun d old
    · rintro d (_ | ⟨_, old⟩) less
      · exact absurd less (lt_irrefl _)
      · exact inv.past d old less
    · rintro d (_ | ⟨_, old⟩)
      · simp
      · have phase := inv.phases d old
        simp only [here, WalkPc.phases] at phase ⊢
        exact mem_cons_of_mem _ phase
    · rw [here]
      rintro ⟨level, p, mem⟩
      exact ⟨level, p, by simpa using mem⟩
  case h_6 ptep calls here =>
    cases result
    refine inv.advance rfl (by simp [here, Phase.clear]) fun _ work => ?_
    have leaf := inv.gathers (by simp [here])
    rw [here] at leaf
    exact leaf work
  case h_7 here =>
    split at result
    case isTrue none =>
      cases result
      -- Nothing was gathered, so this walk has queued nothing.
      have old : ∀ d ∈ s.deferred, d.op < s.op := by
        intro d mem
        refine Nat.lt_of_le_of_ne (inv.begun d mem) fun now => ?_
        have leaf := inv.gathers (by simp [here]) (.inl ⟨d, mem, now⟩)
        simp [here, none.1, WalkPc.PageToCome] at leaf
      refine ⟨inv.begun, inv.past, fun d mem => ?_, fun busy => absurd rfl busy, inv.freed⟩
      rw [inv.past d mem (old d mem)]
      exact mem_singleton_self _
    case isFalse =>
      cases result
      exact inv.advance rfl (by simp [here, Phase.flushBegin]) fun _ _ => .inr trivial
  case h_8 here =>
    cases result
    exact inv.advance rfl (by simp [here, Phase.flushEnd]) fun busy => absurd rfl busy

theorem Inv.callback (inv : Inv s) {i : ℕ} (allowed : s.Allowed (.callback i))
    (result : s.callback i = some s') : Inv s' := by
  obtain ⟨d, found, rfl⟩ := Option.map_eq_some_iff.1 result
  have mem := mem_of_getElem? found
  have kept : ∀ e ∈ s.deferred.eraseIdx i, e ∈ s.deferred := fun e => mem_of_mem_eraseIdx
  have flushed : d.phase = .flushed := by
    rcases Nat.lt_or_eq_of_le (inv.begun d mem) with less | now
    · exact inv.past d mem less
    · have phase := inv.phases d mem
      rw [allowed d found now] at phase
      exact mem_singleton.1 phase
  refine ⟨fun e old => inv.begun e (kept e old), fun e old => inv.past e (kept e old),
    fun e old => inv.phases e (kept e old), fun busy work => inv.gathers busy (work.imp_left ?_), ?_⟩
  · rintro ⟨e, old, now⟩
    exact ⟨e, kept e old, now⟩
  · rintro e (_ | ⟨_, old⟩)
    · exact flushed
    · exact inv.freed e old

end Steps

/-- **Detached page tables are freed behind a flush** that started after their entry was cleared,
in every run in which callbacks wait for the end of the operation that queued them and operations
that come to a page table come to a leaf as well. -/
theorem reachedAllowed_flushed {s : State} (reached : s.ReachedAllowed) :
    ∀ d ∈ s.freed, d.phase = .flushed := by
  have inv : Inv s := by
    refine Reachable.invariant (I := Inv) ?_ ?_ reached
    · rintro s ⟨idle, first, queue, none⟩
      refine ⟨?_, ?_, ?_, fun busy => absurd idle busy, ?_⟩ <;> simp [queue, none]
    · rintro s t - inv ⟨event, allowed, result⟩
      cases event with
      | operate calls => exact inv.operate allowed result
      | go => exact inv.go result
      | callback i => exact inv.callback allowed result
  exact inv.freed

/-! ## Two runs -/

/-- A table with one populated entry: entry 1 is the leaf, entry 0 points to the table. -/
def oneTable : State := ⟨fun ptep => if ptep = 0 then 7 else 9, [], false, .idle, 0, [], []⟩

/-- The walk clears the leaf, detaches the table and flushes before the table is freed. -/
theorem oneTable_flushed : ∃ s : State, s.ReachedAllowed ∧ s.freed = [⟨7, 1, .flushed⟩] ∧
    ∀ d ∈ s.freed, d.phase = .flushed := by
  have begun : oneTable.ReachedAllowed := .start ⟨rfl, rfl, rfl, rfl⟩
  have operated := begun.next ⟨.operate [.page .small 1, .intermediatePagePost 0],
    fun _ => ⟨.small, 1, by simp⟩, rfl⟩
  have cleared := operated.next ⟨.go, trivial, rfl⟩
  have gathered := cleared.next ⟨.go, trivial, rfl⟩
  have queued := gathered.next ⟨.go, trivial, rfl⟩
  have detached := queued.next ⟨.go, trivial, rfl⟩
  have flushing := detached.next ⟨.go, trivial, rfl⟩
  have done := flushing.next ⟨.go, trivial, rfl⟩
  have freed := done.next ⟨.callback 0, fun _ _ _ => rfl, rfl⟩
  exact ⟨_, freed, rfl, reachedAllowed_flushed freed⟩

/-- A table whose entries are all empty is freed without any flush, and a callback that does not
wait may even free a table that is still linked. -/
theorem emptyTable_unflushed :
    (∃ s : State, [.operate [.intermediatePagePost 0], .go, .go, .go, .callback 0].foldlM State.step
        oneTable = some s ∧ s.pc = .idle ∧ s.freed = [⟨7, 1, .cleared⟩]) ∧
      ∃ s : State, [.operate [.page .small 1, .intermediatePagePost 0], .go, .go, .go,
        .callback 0].foldlM State.step oneTable = some s ∧ s.ptes 0 = 7 ∧
        s.freed = [⟨7, 1, .linked⟩] :=
  ⟨⟨_, rfl, rfl, rfl⟩, ⟨_, rfl, rfl, rfl⟩⟩

end MiniOsv.Mmu.TableDetach
