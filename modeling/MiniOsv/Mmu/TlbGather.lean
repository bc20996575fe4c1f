/-
# Mmu.TlbGather -- frames are freed behind a TLB flush

`unpopulate` clears leaf entries and gathers their frames.  The gather holds 20 frames; it
is flushed when one more comes and when `operate_range` is done, and only a flush frees.
The model follows a walk as the sequence of calls the walker makes (`Call`) and records
what the calls do to the outside as a trace of events, so that "after" is a place in the
trace: the main result is `operateRange_freed_behind_flush`.
-/
import MiniOsv.Mmu.VmaList

namespace MiniOsv.Mmu

open Mempool (pageSize)

open List Function

/-! ## The model -/

/-- The page table levels that can hold leaf entries. -/
inductive LeafLevel
  | small | huge
  deriving DecidableEq, Repr

def LeafLevel.size : LeafLevel → ℕ
  | .small => pageSize
  | .huge => hugePageSize

structure TlbPage where
  addr : ℕ
  size : ℕ
  deriving DecidableEq, Repr

/-- What a walk does to the outside, in the order in which it happens. -/
inductive Event
  | clear (ptep : ℕ) (page : TlbPage)
  | flushTlbAll
  | freePage (addr : ℕ)
  | freeHugePage (addr size : ℕ)
  | rcuDefer (table : ℕ)
  deriving DecidableEq, Repr

def Event.cleared : Event → Option TlbPage
  | .clear _ page => some page
  | _ => none

def Event.freed : Event → Option TlbPage
  | .freePage addr => some ⟨addr, pageSize⟩
  | .freeHugePage addr size => some ⟨addr, size⟩
  | _ => none

/-- An `unpopulate` object; `ptes` holds the address field of each entry. -/
structure Unpopulate where
  ptes : ℕ → ℕ
  /-- The first `nr_pages` elements of `tlb_gather::pages`. -/
  pages : List TlbPage
  doFlush : Bool
  totalOperated : ℕ
  trace : List Event

namespace Unpopulate

def maxPages : ℕ := 20

def emit (u : Unpopulate) (e : Event) : Unpopulate := { u with trace := u.trace ++ [e] }

/-- The body of the loop in `tlb_gather::flush`. -/
def freeEvent (tp : TlbPage) : Event :=
  if tp.size = pageSize then .freePage tp.addr else .freeHugePage tp.addr tp.size

def flush (u : Unpopulate) : Unpopulate × Bool :=
  if u.pages = [] then (u, false)
  else
    let u := u.emit .flushTlbAll
    let u := u.pages.foldl (fun u tp => u.emit (freeEvent tp)) u
    ({ u with pages := [] }, true)

def push (u : Unpopulate) (addr size : ℕ) : Unpopulate × Bool :=
  let (u, flushed) := if u.pages.length = maxPages then (u.flush.1, true) else (u, false)
  ({ u with pages := u.pages ++ [⟨addr, size⟩] }, flushed)

/-- `unmap` of the anonymous page providers. -/
def unmap (u : Unpopulate) (addr size ptep : ℕ) : Unpopulate × Bool :=
  (({ u with ptes := update u.ptes ptep 0 }).emit (.clear ptep ⟨addr, size⟩), true)

def page (u : Unpopulate) (level : LeafLevel) (ptep : ℕ) : Unpopulate :=
  let addr := u.ptes ptep
  let size := level.size
  let (u, gather) := u.unmap addr size ptep
  let u :=
    if gather then
      let (u, flushed) := u.push addr size
      { u with doFlush := !flushed }
    else { u with doFlush := true }
  { u with totalOperated := u.totalOperated + size }

def intermediatePagePost (u : Unpopulate) (ptep : ℕ) : Unpopulate :=
  let u := u.emit (.rcuDefer (u.ptes ptep))
  { u with ptes := update u.ptes ptep 0 }

def tlbFlushNeeded (u : Unpopulate) : Unpopulate × Bool :=
  let (u, flushed) := u.flush
  (u, !flushed && u.doFlush)

/-- The calls that the page walker makes. -/
inductive Call
  | page (level : LeafLevel) (ptep : ℕ)
  | intermediatePagePost (ptep : ℕ)
  deriving DecidableEq, Repr

def call (u : Unpopulate) : Call → Unpopulate
  | .page level ptep => u.page level ptep
  | .intermediatePagePost ptep => u.intermediatePagePost ptep

/-- `operate_range(unpopulate(..), ..)` for a walk that makes these calls. -/
def operateRange (ptes : ℕ → ℕ) (calls : List Call) : Unpopulate :=
  let u := calls.foldl call ⟨ptes, [], false, 0, []⟩
  let (u, needed) := u.tlbFlushNeeded
  if needed then u.emit .flushTlbAll else u

/-! ## Reading a trace -/

/-- The frames whose entries are cleared, and those that are freed. -/
def cleared (t : List Event) : List TlbPage := t.filterMap Event.cleared
def freed (t : List Event) : List TlbPage := t.filterMap Event.freed

/-- The frames that the entries of a walk hold when the walk comes to them. -/
def gathered : (ℕ → ℕ) → List Call → List TlbPage
  | _, [] => []
  | ptes, .page level ptep :: rest =>
    ⟨ptes ptep, level.size⟩ :: gathered (update ptes ptep 0) rest
  | ptes, .intermediatePagePost ptep :: rest => gathered (update ptes ptep 0) rest

/-- When the `k`-th free happens, more than `k` entries had been cleared before some flush that
has already happened: as frames are freed in the order of the clears, the entry of the frame is
one of them. -/
def Behind (t : List Event) : Prop :=
  ∀ n e, t[n]? = some e → e.freed.isSome → ∃ m < n, t[m]? = some .flushTlbAll ∧
    (freed (t.take n)).length < (cleared (t.take m)).length

@[simp] theorem freed_append (t t' : List Event) : freed (t ++ t') = freed t ++ freed t' :=
  filterMap_append

@[simp] theorem cleared_append (t t' : List Event) : cleared (t ++ t') = cleared t ++ cleared t' :=
  filterMap_append

@[simp] theorem freeEvent_freed (tp : TlbPage) : (freeEvent tp).freed = some tp := by
  unfold freeEvent
  split
  next same => simp [Event.freed, ← same]
  · rfl

@[simp] theorem freeEvent_cleared (tp : TlbPage) : (freeEvent tp).cleared = none := by
  unfold freeEvent
  split <;> rfl

theorem freed_map_freeEvent (pages : List TlbPage) : freed (pages.map freeEvent) = pages := by
  induction pages with
  | nil => rfl
  | cons tp pages ih =>
    rw [map_cons, freed, filterMap_cons_some (freeEvent_freed tp)]
    exact congrArg (tp :: ·) ih

theorem Behind.snoc {t : List Event} (behind : Behind t) {e : Event}
    (covered : e.freed.isSome → ∃ m < t.length, t[m]? = some .flushTlbAll ∧
      (freed t).length < (cleared (t.take m)).length) : Behind (t ++ [e]) := by
  intro n x found isFree
  rcases lt_trichotomy n t.length with old | last | beyond
  · rw [List.getElem?_append_left old] at found
    obtain ⟨m, lt, flush, count⟩ := behind n x found isFree
    refine ⟨m, lt, ?_, ?_⟩
    · rw [List.getElem?_append_left (lt.trans old), flush]
    · rwa [take_append_of_le_length old.le, take_append_of_le_length (lt.trans old).le]
  · subst last
    rw [List.getElem?_concat_length] at found
    cases found
    obtain ⟨m, lt, flush, count⟩ := covered isFree
    refine ⟨m, lt, ?_, ?_⟩
    · rw [List.getElem?_append_left lt, flush]
    · rwa [take_left, take_append_of_le_length lt.le]
  · rw [List.getElem?_eq_none (by simpa using Nat.succ_le_of_lt beyond)] at found
    cases found

theorem Behind.frees {t : List Event} (behind : Behind t) {m : ℕ} (lt : m < t.length)
    (flush : t[m]? = some .flushTlbAll) (pages : List TlbPage)
    (count : (freed t).length + pages.length ≤ (cleared (t.take m)).length) :
    Behind (t ++ pages.map freeEvent) := by
  induction pages generalizing t with
  | nil => simpa using behind
  | cons tp pages ih =>
    rw [length_cons] at count
    have step := ih (t := t ++ [freeEvent tp]) (behind.snoc fun _ => ⟨m, lt, flush, by omega⟩)
      (by simp only [length_append]; omega) (by rw [List.getElem?_append_left lt, flush])
      (by rw [take_append_of_le_length lt.le, freed_append]; simp [freed] at count ⊢; omega)
    simpa using step

/-! ## The walk -/

/-- The frames that are cleared and not yet freed are the gathered ones, which fit in, and
`extra`, for which the entry has been cleared but the frame has not been pushed. -/
structure Gathering (extra : List TlbPage) (u : Unpopulate) : Prop where
  pending : cleared u.trace = freed u.trace ++ u.pages ++ extra
  behind : Behind u.trace
  fits : u.pages.length ≤ maxPages

theorem foldl_emit (u : Unpopulate) (pages : List TlbPage) :
    pages.foldl (fun u tp => u.emit (freeEvent tp)) u =
      { u with trace := u.trace ++ pages.map freeEvent } := by
  induction pages generalizing u with
  | nil => simp
  | cons tp pages ih => rw [foldl_cons, ih]; simp [emit]

variable {u : Unpopulate} {extra : List TlbPage}

theorem Gathering.flush (inv : Gathering extra u) : Gathering extra u.flush.1 ∧
    u.flush.1.pages = [] ∧ u.flush.1.ptes = u.ptes ∧
      cleared u.flush.1.trace = cleared u.trace := by
  by_cases empty : u.pages = []
  · rw [Unpopulate.flush, if_pos empty]
    exact ⟨inv, empty, rfl, rfl⟩
  · rw [Unpopulate.flush, if_neg empty]
    dsimp only
    rw [foldl_emit]
    dsimp only [emit]
    have clears : cleared (u.trace ++ [.flushTlbAll] ++ u.pages.map freeEvent) =
        cleared u.trace := by
      rw [cleared_append, cleared_append]
      simp [cleared, show Event.flushTlbAll.cleared = none from rfl]
    refine ⟨⟨?_, ?_, by simp⟩, rfl, rfl, clears⟩
    · simp only [clears]
      rw [freed_append, freed_append, freed_map_freeEvent, inv.pending]
      simp [freed, Event.freed]
    · have flushed : Behind (u.trace ++ [.flushTlbAll]) :=
        inv.behind.snoc (by simp [Event.freed])
      refine flushed.frees (m := u.trace.length) (by simp) (by simp) _ ?_
      rw [take_left, inv.pending, freed_append]
      simp only [length_append, freed, Event.freed, filterMap_cons, filterMap_nil, length_nil]
      omega

/-- The frame whose entry was cleared last joins the gathered ones. -/
theorem Gathering.push {addr size : ℕ} (inv : Gathering [⟨addr, size⟩] u) :
    Gathering [] (u.push addr size).1 ∧ (u.push addr size).1.ptes = u.ptes ∧
      cleared (u.push addr size).1.trace = cleared u.trace := by
  by_cases full : u.pages.length = maxPages
  · obtain ⟨inv', empty, ptes, clears⟩ := inv.flush
    simp only [Unpopulate.push, if_pos full]
    refine ⟨⟨?_, inv'.behind, ?_⟩, ptes, clears⟩
    · rw [inv'.pending]
      simp
    · simp [empty, maxPages]
  · simp only [Unpopulate.push, if_neg full]
    refine ⟨⟨?_, inv.behind, ?_⟩, trivial, trivial⟩
    · rw [inv.pending]
      simp
    · rw [length_append]
      exact Nat.lt_of_le_of_ne inv.fits full

theorem Gathering.page (inv : Gathering [] u) (level : LeafLevel) (ptep : ℕ) :
    Gathering [] (u.page level ptep) ∧
      (u.page level ptep).ptes = update u.ptes ptep 0 ∧
      cleared (u.page level ptep).trace = cleared u.trace ++ [⟨u.ptes ptep, level.size⟩] := by
  have clears : cleared (u.unmap (u.ptes ptep) level.size ptep).1.trace =
      cleared u.trace ++ [⟨u.ptes ptep, level.size⟩] := by
    simp [unmap, emit, cleared, Event.cleared]
  have cut : Gathering [⟨u.ptes ptep, level.size⟩] (u.unmap (u.ptes ptep) level.size ptep).1 := by
    refine ⟨?_, inv.behind.snoc (by simp [Event.freed]), inv.fits⟩
    rw [clears, inv.pending]
    simp [unmap, emit, freed, Event.freed]
  obtain ⟨⟨pending, behind, fits⟩, ptes, same⟩ := cut.push
  exact ⟨⟨pending, behind, fits⟩, ptes, same.trans clears⟩

theorem Gathering.intermediatePagePost (inv : Gathering [] u) (ptep : ℕ) :
    Gathering [] (u.intermediatePagePost ptep) ∧
      cleared (u.intermediatePagePost ptep).trace = cleared u.trace := by
  have clears : cleared (u.intermediatePagePost ptep).trace = cleared u.trace := by
    simp [Unpopulate.intermediatePagePost, emit, cleared, Event.cleared]
  refine ⟨⟨?_, inv.behind.snoc (by simp [Event.freed]), inv.fits⟩, clears⟩
  rw [clears, inv.pending]
  simp [Unpopulate.intermediatePagePost, emit, freed, Event.freed]

theorem Gathering.calls (inv : Gathering [] u) (calls : List Call) :
    Gathering [] (calls.foldl call u) ∧
      cleared (calls.foldl call u).trace = cleared u.trace ++ gathered u.ptes calls := by
  induction calls generalizing u with
  | nil => exact ⟨inv, by simp [gathered]⟩
  | cons c calls ih =>
    cases c with
    | page level ptep =>
      obtain ⟨next, ptes, clears⟩ := inv.page level ptep
      obtain ⟨last, all⟩ := ih next
      refine ⟨last, all.trans ?_⟩
      rw [clears, ptes, gathered, append_assoc]
      rfl
    | intermediatePagePost ptep =>
      obtain ⟨next, clears⟩ := inv.intermediatePagePost ptep
      obtain ⟨last, all⟩ := ih next
      refine ⟨last, all.trans ?_⟩
      rw [clears, gathered]
      rfl

theorem Gathering.freed_eq (inv : Gathering [] u) (empty : u.pages = []) :
    freed u.trace = cleared u.trace := by
  rw [inv.pending, empty, append_nil, append_nil]

theorem gathering_operateRange (ptes : ℕ → ℕ) (calls : List Call) :
    Gathering [] (operateRange ptes calls) ∧ (operateRange ptes calls).pages = [] ∧
      cleared (operateRange ptes calls).trace = gathered ptes calls := by
  have fresh : Gathering [] ⟨ptes, [], false, 0, []⟩ :=
    ⟨rfl, fun n e found => by simp at found, Nat.zero_le _⟩
  obtain ⟨walked, clears⟩ := fresh.calls calls
  have shape : operateRange ptes calls =
      if (!(calls.foldl call ⟨ptes, [], false, 0, []⟩).flush.2 &&
          (calls.foldl call ⟨ptes, [], false, 0, []⟩).flush.1.doFlush) = true then
        (calls.foldl call ⟨ptes, [], false, 0, []⟩).flush.1.emit .flushTlbAll
      else (calls.foldl call ⟨ptes, [], false, 0, []⟩).flush.1 := rfl
  rw [shape]
  generalize calls.foldl call ⟨ptes, [], false, 0, []⟩ = u at walked clears
  obtain ⟨done, empty, -, same⟩ := walked.flush
  have total : cleared u.flush.1.trace = gathered ptes calls :=
    same.trans (by simpa [cleared] using clears)
  split
  · have emitted : cleared (u.flush.1.emit .flushTlbAll).trace = cleared u.flush.1.trace := by
      simp [emit, cleared, Event.cleared]
    refine ⟨⟨?_, done.behind.snoc (by simp [Event.freed]), done.fits⟩, empty, emitted.trans total⟩
    rw [emitted, done.pending]
    simp [emit, freed, Event.freed]
  · exact ⟨done, empty, total⟩

/-- **Frames are released behind a flush.**  For every walk the frames freed are, in number,
order and size, those whose entries the walk cleared; each is freed behind a flush that came
after its entry was cleared; and none is pending at the end. -/
theorem operateRange_freed_behind_flush (ptes : ℕ → ℕ) (calls : List Call) :
    (operateRange ptes calls).pages = [] ∧
      cleared (operateRange ptes calls).trace = gathered ptes calls ∧
      freed (operateRange ptes calls).trace = gathered ptes calls ∧
      Behind (operateRange ptes calls).trace := by
  obtain ⟨done, empty, total⟩ := gathering_operateRange ptes calls
  exact ⟨empty, total, (done.freed_eq empty).trans total, done.behind⟩

end Unpopulate

end MiniOsv.Mmu
