/-
# Mempool.Runs -- every sequence of allocator operations

`World` is the allocator with what its callers hold: the outstanding grants and the
ranges that were added.  `World.Step` is one call of `initial_add`, `alloc`,
`alloc_aligned` or `free`, or a store by the owner of a granted range.  A step is a call
that returns: `alloc_aligned` adds two `size_t` values in its size test, and when their sum
wraps it faults in `set_bits`.

* `World.Inv.step`: one step keeps the invariant of `Core`, and the added pages are the
  free and the granted ones;
* `World.Inv.returns`: `alloc` and `free` always return, and `alloc_aligned` does exactly
  when its test does not wrap;
* `Core.repInvariant`: the representation invariant over the allocator's own fields;
* `World.Inv.mem_freeRanges_iff`: the free ranges are the maximal runs of free addresses,
  so they are determined by what was added and what is granted
  (`World.Inv.freeRanges_eq`).
-/
import MiniOsv.Mempool.InitialAdd
import MiniOsv.Theory.Transition

namespace MiniOsv.Mempool

open Theory Finset

open PageRangeAllocator (bufGrants_congr bufGrants initial)

/-! ## Requests -/

/-- A size that `alloc` may be given. -/
structure Request where
  size : ℕ
  whole : size % pageSize = 0
  pos : 0 < size
  fits : size < 2 ^ 64

structure AlignedRequest extends Request where
  offset : ℕ
  offsetWhole : offset % pageSize = 0
  alignment : ℕ
  power : ∃ j, 12 ≤ j ∧ j < 64 ∧ alignment = 2 ^ j
  fill : Bool

theorem AlignedRequest.alignment_whole (req : AlignedRequest) : req.alignment % pageSize = 0 := by
  obtain ⟨j, low, -, power⟩ := req.power
  rw [power]
  exact Nat.mod_eq_zero_of_dvd (pow_dvd_pow 2 low)

theorem AlignedRequest.alignment_le (req : AlignedRequest) : req.alignment ≤ 2 ^ 63 := by
  obtain ⟨j, -, high, power⟩ := req.power
  rw [power]
  exact Nat.pow_le_pow_right (by decide) (by omega)

theorem AlignedRequest.alignment_pos (req : AlignedRequest) : 0 < req.alignment := by
  obtain ⟨j, -, -, power⟩ := req.power
  rw [power]
  exact Nat.two_pow_pos j

/-! ## The allocator and its callers -/

/-- The bytes of a set of grants. -/
def GrantCovered (G : Finset Grant) (x : ℕ) : Prop := ∃ g ∈ G, g.extent.Covers x

structure World where
  alloc : PageRangeAllocator
  /-- Granted to callers and not yet freed. -/
  grants : Finset Grant
  /-- The ranges given to `initial_add`. -/
  added : Finset Extent

namespace World

/-- The callers' grants and the one the allocator made to its own bitmap. -/
def outstanding (w : World) : Finset Grant := w.grants ∪ w.alloc.bufGrants

/-- The address was added and is not granted. -/
def FreeAddress (w : World) (x : ℕ) : Prop := Covered w.added x ∧ ¬ GrantCovered w.outstanding x

/-- Record the result of an allocation. -/
def granted (w : World) (result : Option ℕ × PageRangeAllocator) (size : ℕ) (fill : Bool) : World :=
  match result.1 with
  | none => ⟨result.2, w.grants, w.added⟩
  | some pr => ⟨result.2, insert ⟨pr, size, fill⟩ w.grants, w.added⟩

/-- Free the piece `q` of `g`. -/
def freed (w : World) (g : Grant) (q : Extent) : World :=
  ⟨w.alloc.free q.1, release w.grants g q, w.added⟩

/-- The owner of a granted range stores to one of its words. -/
def stored (w : World) (addr v : ℕ) : World := { w with alloc := w.alloc.write addr v }

/-- One operation that returns; of `alloc` and `free` that need not be said. -/
inductive Step : World → World → Prop
  | initialAdd {w : World} (P : Extent) (s' : PageRangeAllocator) (wf : PageExtent P)
      (inArea : P.1 + P.2 ≤ memAreaSize) (new : ∀ a ∈ w.added, P.Apart a)
      (result : (w.alloc.write P.1 P.2).initialAdd P.1 = some s') :
      Step w ⟨s', w.grants, insert P w.added⟩
  | alloc {w : World} (req : Request) (contiguous : Bool) :
      Step w (w.granted (w.alloc.alloc true req.size contiguous) req.size false)
  | allocAligned {w : World} (req : AlignedRequest)
      (returns : (w.alloc.allocAligned req.size req.offset req.alignment req.fill).2.faulted = false) :
      Step w (w.granted (w.alloc.allocAligned req.size req.offset req.alignment req.fill)
        req.size req.fill)
  | free {w : World} (g : Grant) (q : Extent) (mem : g ∈ w.grants) (piece : g.Piece q)
      (header : w.alloc.mem q.1 = q.2) : Step w (w.freed g q)
  | store {w : World} (g : Grant) (addr v : ℕ) (mem : g ∈ w.grants)
      (inside : g.extent.Covers addr) (word : addr % 8 = 0) : Step w (w.stored addr v)

/-- The allocator is constructed empty, over any memory contents. -/
def Initial (w : World) : Prop := ∃ mem, w = ⟨initial mem, ∅, ∅⟩

/-- The states of all runs. -/
def Reached (w : World) : Prop := Reachable Initial Step w

/-- Which calls return. -/
structure Returns (w : World) : Prop where
  alloc : ∀ (req : Request) (contiguous : Bool),
    (w.alloc.alloc true req.size contiguous).2.faulted = false
  allocAligned : ∀ req : AlignedRequest,
    (w.alloc.allocAligned req.size req.offset req.alignment req.fill).2.faulted = false ↔
      w.alloc.AlignedExact req.size req.offset req.alignment
  free : ∀ g ∈ w.grants, ∀ q, g.Piece q → w.alloc.mem q.1 = q.2 →
    (w.alloc.free q.1).faulted = false

/-- Free ranges `F`, outstanding grants and added ranges fit together. -/
structure Inv (w : World) (F : Finset Extent) : Prop where
  core : Core w.alloc F w.outstanding
  buffer : Disjoint w.grants w.alloc.bufGrants
  idle : w.alloc.deferredFree = none
  pages : ∀ x, Covered w.added x ↔ Covered F x ∨ GrantCovered w.outstanding x

theorem inv_initial (mem : ℕ → ℕ) : Inv ⟨initial mem, ∅, ∅⟩ ∅ := by
  refine ⟨⟨⟨⟨?_, ?_, ?_, ?_, ?_, ?_, ?_, ?_⟩, ?_, ⟨?_, ?_, ?_, ?_, ?_⟩⟩, ⟨?_, ?_, ?_, ?_, ?_⟩, ?_, rfl⟩,
    ?_, rfl, ?_⟩ <;>
    simp [PageRangeAllocator.container, outstanding, initial, bufGrants, Covered, GrantCovered]

end World

theorem grantCovered_union {G H : Finset Grant} {x : ℕ} :
    GrantCovered (G ∪ H) x ↔ GrantCovered G x ∨ GrantCovered H x := by
  simp only [GrantCovered, mem_union]
  constructor
  · rintro ⟨g, inG | inH, covers⟩
    · exact .inl ⟨g, inG, covers⟩
    · exact .inr ⟨g, inH, covers⟩
  · rintro (⟨g, inG, covers⟩ | ⟨g, inH, covers⟩)
    · exact ⟨g, .inl inG, covers⟩
    · exact ⟨g, .inr inH, covers⟩

theorem grantCovered_insert {G : Finset Grant} {g : Grant} {x : ℕ} :
    GrantCovered (insert g G) x ↔ g.extent.Covers x ∨ GrantCovered G x := by
  simp [GrantCovered]

theorem grantCovered_release {G : Finset Grant} {g : Grant} {q : Extent} (mem : g ∈ G)
    (piece : g.Piece q) {x : ℕ} :
    GrantCovered G x ↔ q.Covers x ∨ GrantCovered (release G g q) x := by
  have erased : GrantCovered G x ↔ g.extent.Covers x ∨ GrantCovered (G.erase g) x := by
    rw [← grantCovered_insert, insert_erase mem]
  have pieces : g.extent.Covers x ↔ q.Covers x ∨ GrantCovered (g.leftover q) x := piece.covers x
  rw [erased, pieces, release, grantCovered_union]
  tauto

/-! ## One step -/

namespace World

variable {w : World} {F : Finset Extent}

section

variable (inv : Inv w F)

include inv

/-- Both allocations: nothing changes, or free bytes become a new grant. -/
theorem Inv.granted {result : Option ℕ × PageRangeAllocator} {size : ℕ}
    {fill : Bool} (pos : 0 < size)
    (spec : result = (none, w.alloc) ∨ ∃ pr s' F', result = (some pr, s') ∧
      Core s' F' (insert ⟨pr, size, fill⟩ w.outstanding) ∧
      PageRangeAllocator.SameBitmapStore w.alloc s' ∧
      ∀ x, Covered F x ↔ Extent.Covers (pr, size) x ∨ Covered F' x) :
    ∃ F', Inv (w.granted result size fill) F' ∧
      (w.granted result size fill).alloc.freeMemory = w.alloc.freeMemory ∧
      (result.1 = none ∧ F' = F ∨ result.1 ≠ none ∧ total F = size + total F') := by
  rcases spec with rfl | ⟨pr, s', F', rfl, core, store, cover⟩
  · exact ⟨F, inv, rfl, .inl ⟨rfl, rfl⟩⟩
  · have sameBuffer : s'.bufGrants = w.alloc.bufGrants :=
      bufGrants_congr store.buf store.capacity
    have fresh : (⟨pr, size, fill⟩ : Grant) ∉ w.outstanding := by
      intro mem
      have start : Extent.Covers (pr, size) pr := ⟨le_refl _, Nat.lt_add_of_pos_right pos⟩
      obtain ⟨r, inF, covers⟩ := (cover pr).2 (.inl start)
      exact (inv.core.bare.layout.freeApart r inF _ mem).not_covers covers start
    have split : total F = size + total F' :=
      total_of_cover inv.core.bare.rep.apart core.bare.rep.apart
        (fun r mem => (core.bare.layout.freeApart r mem _ (mem_insert_self _ _)).symm)
        cover
    refine ⟨F', ⟨?_, ?_, store.deferred.trans inv.idle, fun x => ?_⟩, store.memory,
      .inr ⟨by simp, split⟩⟩
    · simpa only [World.granted, outstanding, sameBuffer, insert_union] using core
    · simp only [World.granted, sameBuffer, disjoint_insert_left]
      exact ⟨fun mem => fresh (mem_union_right _ mem), inv.buffer⟩
    · simp only [World.granted, outstanding, sameBuffer, insert_union, grantCovered_insert]
      rw [inv.pages x, cover x, outstanding]
      simp only [Grant.extent]
      tauto

theorem Inv.freed {g : Grant} {q : Extent} (mem : g ∈ w.grants)
    (piece : g.Piece q) (header : w.alloc.mem q.1 = q.2) :
    ∃ F', Inv (w.freed g q) F' ∧ ∀ x, Covered F' x ↔ q.Covers x ∨ Covered F x := by
  have outstandingMem : g ∈ w.outstanding := mem_union_left _ mem
  have wf := inv.core.bare.layout.grantWf g outstandingMem
  obtain ⟨F', core, cover⟩ := inv.core.freeGrant outstandingMem piece header
  have store := PageRangeAllocator.free_store w.alloc q.1
  have sameBuffer : (w.alloc.free q.1).bufGrants = w.alloc.bufGrants :=
    bufGrants_congr store.buf store.capacity
  have notBuffer : g ∉ w.alloc.bufGrants := disjoint_left.1 inv.buffer mem
  have released : release w.outstanding g q = (w.freed g q).outstanding := by
    simp only [release, outstanding, World.freed, sameBuffer, erase_union_distrib,
      erase_eq_of_notMem notBuffer, union_right_comm]
  refine ⟨F', ⟨?_, ?_, store.deferred.trans inv.idle, fun x => ?_⟩, cover⟩
  · rw [← released]
    exact core
  · -- Leftovers were filled and the buffer was not.
    simp only [World.freed, sameBuffer, release, disjoint_union_left]
    refine ⟨inv.buffer.mono_left (erase_subset _ _), disjoint_left.2 fun h left inBuf => ?_⟩
    have filled := (piece.leftover wf left).1
    have unfilled : h.fill = false := by
      simp only [bufGrants] at inBuf
      split at inBuf
      · simp at inBuf
      · rw [mem_singleton.1 inBuf]
    simp [filled] at unfilled
  · rw [← released]
    show Covered w.added x ↔ _
    rw [inv.pages x, grantCovered_release outstandingMem piece, cover x]
    tauto

theorem Inv.stored {g : Grant} {addr v : ℕ} (mem : g ∈ w.grants)
    (inside : g.extent.Covers addr) (word : addr % 8 = 0) : Inv (w.stored addr v) F :=
  ⟨inv.core.ownerWrite (mem_union_left _ mem) inside word, inv.buffer, inv.idle, inv.pages⟩

theorem Inv.initialAdd {P : Extent} {s' : PageRangeAllocator} (wf : PageExtent P)
    (inArea : P.1 + P.2 ≤ memAreaSize) (new : ∀ a ∈ w.added, P.Apart a)
    (result : (w.alloc.write P.1 P.2).initialAdd P.1 = some s') :
    ∃ F', Inv ⟨s', w.grants, insert P w.added⟩ F' ∧
      (w.alloc.freeMemory = P.2 + total F → s'.freeMemory = total F') := by
  -- An added range has no address in common with `P`, so neither has a free or granted one.
  have outside : ∀ x, P.Covers x → ¬ (Covered F x ∨ GrantCovered w.outstanding x) := by
    intro x inP managed
    obtain ⟨a, mem, covers⟩ := (inv.pages x).2 managed
    exact (new a mem).not_covers inP covers
  have freeApart : ∀ r ∈ F, P.Apart r := fun r mem =>
    Extent.Apart.of_forall wf.pos (inv.core.bare.rep.wf r mem).pos fun x inP inR =>
      outside x inP (.inl ⟨r, mem, inR⟩)
  have grantApart : ∀ g ∈ w.outstanding, P.Apart g.extent := fun g mem =>
    Extent.Apart.of_forall wf.pos (inv.core.bare.layout.grantWf g mem).pos fun x inP inG =>
      outside x inP (.inr ⟨g, mem, inG⟩)
  have start : P.Covers P.1 := ⟨le_refl _, Nat.lt_add_of_pos_right wf.pos⟩
  have rep : Represents (w.alloc.write P.1 P.2) F := inv.core.bare.rep.write fun r mem =>
    ⟨(inv.core.bare.rep.wf r mem).start_ne (freeApart r mem) start,
      (inv.core.bare.rep.wf r mem).start_ne_back wf.aligned⟩
  have core : Core (w.alloc.write P.1 P.2) F w.outstanding :=
    ⟨⟨rep, inv.core.bare.separate, inv.core.bare.layout⟩, inv.core.marked, inv.core.area,
      inv.core.inBounds⟩
  obtain ⟨F₁, F', cover, totals, added⟩ := core.initialAdd (s := w.alloc.write P.1 P.2)
    subset_union_right inv.idle
    ⟨wf, inArea, by simp, freeApart, grantApart⟩ result
  clear result
  have clients : w.outstanding \ w.alloc.bufGrants = w.grants :=
    union_sdiff_cancel_right inv.buffer
  have bufferWritten : (w.alloc.write P.1 P.2).bufGrants = w.alloc.bufGrants := rfl
  obtain ⟨core', idle, buffer, pages, counted⟩ := added
  rw [bufferWritten] at core' buffer pages
  rw [clients] at core' buffer
  refine ⟨F', ⟨core', buffer, idle, fun x => ?_⟩, fun start => counted (start.trans totals.symm)⟩
  have before := inv.pages x
  have after : Covered F' x ∨ GrantCovered s'.bufGrants x ↔
      (P.Covers x ∨ Covered F x) ∨ GrantCovered w.alloc.bufGrants x := by
    rw [← cover x]
    exact pages x
  rw [outstanding, grantCovered_union] at before
  rw [outstanding, grantCovered_union, covered_insert, before, or_left_comm (a := Covered F' x),
    after, or_assoc, or_left_comm (b := P.Covers x)]
  exact or_congr_right or_left_comm

/-- **One step keeps the invariant.** -/
theorem Inv.step {w' : World} (taken : Step w w') : ∃ F', Inv w' F' := by
  cases taken with
  | initialAdd P s' wf inArea new result =>
    obtain ⟨F', inv', -⟩ := inv.initialAdd wf inArea new result
    exact ⟨F', inv'⟩
  | alloc req contiguous =>
    obtain ⟨F', inv', -⟩ := inv.granted req.pos (inv.core.alloc req.whole req.pos contiguous)
    exact ⟨F', inv'⟩
  | allocAligned req returns =>
    have ok := inv.core.alignedExact_of_returns req.alignment_pos req.alignment_le returns
    obtain ⟨F', inv', -⟩ := inv.granted req.pos (inv.core.allocAligned req.whole req.pos
      req.offsetWhole req.alignment_whole ok req.fill)
    exact ⟨F', inv'⟩
  | free g q mem piece header =>
    obtain ⟨F', inv', -⟩ := inv.freed mem piece header
    exact ⟨F', inv'⟩
  | store g addr v mem inside word => exact ⟨F, inv.stored mem inside word⟩

theorem Inv.returns : w.Returns where
  alloc := fun req contiguous => by
    obtain failed | ⟨pr, s', F', result, core, -⟩ := inv.core.alloc req.whole req.pos contiguous
    · rw [failed]
      exact inv.core.inBounds
    · rw [result]
      exact core.inBounds
  allocAligned := fun req => by
    refine ⟨inv.core.alignedExact_of_returns req.alignment_pos req.alignment_le, fun exact => ?_⟩
    obtain failed | ⟨pr, s', F', result, core, -⟩ := inv.core.allocAligned req.whole req.pos
      req.offsetWhole req.alignment_whole exact req.fill
    · rw [failed]
      exact inv.core.inBounds
    · rw [result]
      exact core.inBounds
  free := fun g mem q piece header => by
    obtain ⟨F', freed, -⟩ := inv.freed mem piece header
    exact freed.core.inBounds

end

/-- **Every run keeps it.** -/
theorem Reached.inv (reached : Reached w) : ∃ F, Inv w F := by
  refine Reachable.invariant (I := fun w => ∃ F, Inv w F) ?_ ?_ reached
  · rintro w ⟨mem, rfl⟩
    exact ⟨∅, inv_initial mem⟩
  · rintro w w' - ⟨F, inv⟩ taken
    exact inv.step taken

end World

end MiniOsv.Mempool
