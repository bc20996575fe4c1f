/-
# Mempool.Contract -- what holds after every allocator operation

The results about runs, stated over the allocator's own fields: the containers as
`for_each` visits them, the headers and back pointers in memory, and the bitmap.

`RepInvariant` is the representation invariant and `FreeRangesAreRuns` says that the free
ranges are the maximal runs of addresses that were added and are not granted.  Both hold
after every call that returns, and `World.Returns` says which calls do.
-/
import MiniOsv.Mempool.Runs

namespace MiniOsv.Mempool

open Theory List PageRangeAllocator World

/-! ## Free ranges as the allocator sees them -/

namespace PageRangeAllocator

def freeRanges (s : PageRangeAllocator) : List Extent :=
  (s.forEachList 0).map fun a => (a, s.mem a)

def freeBytes (s : PageRangeAllocator) : ℕ := (s.freeRanges.map Prod.snd).sum

end PageRangeAllocator

section FreeRanges

variable {s : PageRangeAllocator} {F : Finset Extent} {G : Finset Grant}

section

variable (rep : Represents s F)

include rep

theorem Represents.mem_freeRanges (r : Extent) : r ∈ s.freeRanges ↔ r ∈ F := by
  simp only [freeRanges, mem_map]
  constructor
  · rintro ⟨a, mem, rfl⟩
    exact rep.of_mem_forEachList mem
  · intro mem
    exact ⟨r.1, rep.mem_forEachList mem (Nat.zero_le _), by rw [rep.header r mem]⟩

/-- No header is linked twice. -/
theorem Represents.forEachList_nodup : (s.forEachList 0).Nodup := by
  have list : ∀ order < maxOrder, s.freeList order = s.container order := fun order small => by
    rw [container, if_neg small.ne]
  rw [forEachList, nodup_append]
  refine ⟨?_, ?_, ?_⟩
  · simpa [container] using rep.nodup maxOrder (le_refl _)
  · rw [nodup_flatMap]
    refine ⟨fun order mem => ?_, ?_⟩
    · have small : order < maxOrder := by simpa using mem
      rw [list order small]
      exact rep.nodup order small.le
    · refine List.Pairwise.imp_of_mem (R := (· ≠ ·)) (fun {i j} imem jmem ne => ?_) ?_
      · have ismall : i < maxOrder := by simpa using imem
        have jsmall : j < maxOrder := by simpa using jmem
        intro a inI inJ
        exact ne ((rep.of_mem_freeList ismall inI).2.symm.trans (rep.of_mem_freeList jsmall inJ).2)
      · exact (nodup_reverse.2 nodup_range).filter _
  · intro a inTree b inLists same
    subst same
    obtain ⟨order, mem, linked⟩ := mem_flatMap.1 inLists
    have small : order < maxOrder := by simpa using mem
    have := (rep.of_mem_freeHuge inTree).2
    have := (rep.of_mem_freeList small linked).2
    omega

theorem Represents.freeRanges_nodup : s.freeRanges.Nodup :=
  rep.forEachList_nodup.map fun _ _ same => (Prod.mk.inj same).1

theorem Represents.freeRanges_toFinset : s.freeRanges.toFinset = F := by
  ext r
  rw [mem_toFinset, rep.mem_freeRanges]

/-- The sizes of the linked ranges add up to the length of the represented ones. -/
theorem Represents.freeBytes : s.freeBytes = total F := by
  rw [PageRangeAllocator.freeBytes, total, ← rep.freeRanges_toFinset,
    sum_toFinset _ rep.freeRanges_nodup]

end

theorem Core.separated (core : Core s F G) : Separated F where
  pos := fun r mem => (core.bare.rep.wf r mem).pos
  separate := fun r rm q qm ne => by
    have apart := core.bare.rep.apart r rm q qm ne
    have right := core.bare.separate r rm q qm
    have left := core.bare.separate q qm r rm
    simp only [Extent.Apart, Extent.Separate] at *
    omega

end FreeRanges

/-! ## The representation invariant -/

/-- Free ranges and outstanding grants `G` as containers, memory and bitmap show them. -/
structure RepInvariant (s : PageRangeAllocator) (G : Finset Grant) : Prop where
  aligned : ∀ r ∈ s.freeRanges, PageExtent r
  inBitmap : ∀ r ∈ s.freeRanges, r.1 + r.2 ≤ s.bitmapSize * pageSize
  disjoint : s.freeRanges.Pairwise Extent.Apart
  disjointFromGrants : ∀ r ∈ s.freeRanges, ∀ g ∈ G, r.Apart g.extent
  linkedOnce : (s.forEachList 0).Nodup
  inList : ∀ order < maxOrder, ∀ a ∈ s.freeList order, orderOf (s.mem a) = order
  inTree : ∀ a ∈ s.freeHuge, maxOrder ≤ orderOf (s.mem a)
  treeSorted : s.freeHuge.Pairwise fun a b => s.mem a ≤ s.mem b
  notEmptyList : ∀ order < maxOrder, s.notEmpty order = !(s.freeList order).isEmpty
  notEmptyTree : s.notEmpty maxOrder = !s.freeHuge.isEmpty
  backPointer : ∀ r ∈ s.freeRanges, s.mem (r.1 + r.2 - 8) = r.1
  freeBits : ∀ r ∈ s.freeRanges,
    s.bitmap (firstPage r) = true ∧ s.bitmap (lastPage r) = true
  grantBits : ∀ g ∈ G,
    s.bitmap (firstPage g.extent) = false ∧ s.bitmap (lastPage g.extent) = false
  filledBits : ∀ g ∈ G, g.fill = true →
    ∀ p, g.extent.Covers (p * pageSize) → s.bitmap p = false

theorem Core.repInvariant {s : PageRangeAllocator} {F : Finset Extent} {G : Finset Grant}
    (core : Core s F G) : RepInvariant s G := by
  have rep := core.bare.rep
  have layout := core.bare.layout
  have list : ∀ order < maxOrder, s.freeList order = s.container order := fun order small => by
    rw [container, if_neg small.ne]
  have tree : s.freeHuge = s.container maxOrder := by
    rw [container, if_pos rfl]
  refine
    { aligned := fun r mem => rep.wf r ((rep.mem_freeRanges r).1 mem)
      inBitmap := fun r mem => layout.inside r ((rep.mem_freeRanges r).1 mem)
      disjoint := rep.freeRanges_nodup.imp_of_mem fun {r q} rm qm ne =>
        rep.apart r ((rep.mem_freeRanges r).1 rm) q ((rep.mem_freeRanges q).1 qm) ne
      disjointFromGrants := fun r mem => layout.freeApart r ((rep.mem_freeRanges r).1 mem)
      linkedOnce := rep.forEachList_nodup
      inList := fun order small a mem => (rep.of_mem_freeList small mem).2
      inTree := fun a mem => (rep.of_mem_freeHuge mem).2
      treeSorted := rep.sorted
      notEmptyList := fun order small => by rw [list order small]; exact rep.notEmpty order small.le
      notEmptyTree := by rw [tree]; exact rep.notEmpty maxOrder (le_refl _)
      backPointer := fun r mem => rep.back r ((rep.mem_freeRanges r).1 mem)
      freeBits := fun r mem => ?_
      grantBits := core.marked.grant
      filledBits := core.marked.filled }
  have inF := (rep.mem_freeRanges r).1 mem
  exact ⟨core.marked.first r inF, core.marked.last r inF⟩

/-- **The representation invariant holds after every operation**, and every call returns
but one of `alloc_aligned` whose size test wraps. -/
theorem reached_repInvariant {w : World} (reached : w.Reached) :
    RepInvariant w.alloc w.outstanding ∧ w.Returns := by
  obtain ⟨F, inv⟩ := reached.inv
  exact ⟨inv.core.repInvariant, inv.returns⟩

/-! ## A concrete run -/

/-- 70001 pages from the second one on. -/
def sampleRange : Extent := (4096, 70001 * 4096)

def sampleAdd : Option PageRangeAllocator :=
  ((initial fun _ => 0).write sampleRange.1 sampleRange.2).initialAdd
    sampleRange.1

theorem sampleAdd_isSome : sampleAdd.isSome = true := by decide +kernel

/-- After `initial_add` of `sampleRange`: one free range behind the pages of the bitmap. -/
def sampleWorld : World := ⟨sampleAdd.get sampleAdd_isSome, ∅, {sampleRange}⟩

theorem sampleWorld_reached : sampleWorld.Reached := by
  refine Reachable.next (.start ⟨fun _ => 0, rfl⟩)
    (Step.initialAdd sampleRange _ ⟨by decide, by decide, by decide⟩ (by decide) ?_ ?_)
  · intro a mem
    exact absurd mem (Finset.notMem_empty a)
  · exact (Option.some_get sampleAdd_isSome).symm

/-- Two pages of it. -/
def sampleRequest : Request := ⟨8192, by decide, by decide, by decide⟩

/-- The page of it that lies on a boundary of two pages, cleared bit by bit. -/
def sampleAligned : AlignedRequest :=
  { size := 4096, whole := by decide, pos := by decide, fits := by decide
    offset := 0, offsetWhole := by decide
    alignment := 8192, power := ⟨13, by decide, by decide, by decide⟩
    fill := true }

/-- After an allocation from the front of the sample range and an aligned one from its end. -/
def sampleAllocated : World :=
  let w := sampleWorld.granted (sampleWorld.alloc.alloc true 8192 true) 8192 false
  w.granted (w.alloc.allocAligned 4096 0 8192 true) 4096 true

theorem sampleAllocated_reached : sampleAllocated.Reached :=
  (sampleWorld_reached.next (Step.alloc sampleRequest true)).next
    (Step.allocAligned sampleAligned (by decide +kernel))

/-- The invariant after it, with the page behind the aligned one free again. -/
theorem sampleAllocated_repInvariant :
    sampleAllocated.alloc.freeRanges = [(24576, 69994 * 4096), (70001 * 4096, 4096)] ∧
      RepInvariant sampleAllocated.alloc sampleAllocated.outstanding ∧ sampleAllocated.Returns :=
  ⟨by decide +kernel, reached_repInvariant sampleAllocated_reached⟩

/-! ## Maximal runs -/

namespace World

variable {w : World} {F : Finset Extent}

/-- The covered addresses are those that were added and are not granted. -/
theorem Inv.covered_iff (inv : Inv w F) (x : ℕ) : Covered F x ↔ w.FreeAddress x := by
  have granted : Covered F x → ¬ GrantCovered w.outstanding x := by
    rintro ⟨r, rm, inR⟩ ⟨g, gm, inG⟩
    exact (inv.core.bare.layout.freeApart r rm g gm).not_covers inR inG
  have pages := inv.pages x
  simp only [FreeAddress]
  tauto

theorem Inv.mem_freeRanges_iff (inv : Inv w F) (r : Extent) :
    r ∈ w.alloc.freeRanges ↔ MaximalRun w.FreeAddress r := by
  have same : Covered F = w.FreeAddress := funext fun x => propext (inv.covered_iff x)
  rw [inv.core.bare.rep.mem_freeRanges, inv.core.separated.mem_iff_maximalRun, same]

/-- No two free ranges touch, and they are the maximal runs of free addresses. -/
def FreeRangesAreRuns (w : World) : Prop :=
  (∀ r ∈ w.alloc.freeRanges, ∀ q ∈ w.alloc.freeRanges, r.1 + r.2 ≠ q.1) ∧
    ∀ r, r ∈ w.alloc.freeRanges ↔ MaximalRun w.FreeAddress r

theorem Inv.freeRangesAreRuns (inv : Inv w F) : w.FreeRangesAreRuns := by
  have rep := inv.core.bare.rep
  refine ⟨fun r rm q qm => ?_, inv.mem_freeRanges_iff⟩
  exact inv.core.bare.separate r ((rep.mem_freeRanges r).1 rm) q ((rep.mem_freeRanges q).1 qm)

/-- What was added and what is granted determine the free ranges. -/
theorem Inv.freeRanges_eq {w' : World} {F' : Finset Extent} (inv : Inv w F) (inv' : Inv w' F')
    (added : w'.added = w.added)
    (granted : ∀ x, GrantCovered w'.outstanding x ↔ GrantCovered w.outstanding x) (r : Extent) :
    r ∈ w'.alloc.freeRanges ↔ r ∈ w.alloc.freeRanges := by
  have same : w'.FreeAddress = w.FreeAddress := funext fun x => propext (by
    simp only [FreeAddress, added, granted])
  rw [inv.mem_freeRanges_iff, inv'.mem_freeRanges_iff, same]

/-! ## Freeing in any order -/

/-- The grants of the list are freed one after the other, each with its size in its header;
the owners may store to their ranges in between. -/
inductive FreeRun : World → List Grant → World → Prop
  | done (w : World) : FreeRun w [] w
  | store {w w' : World} {order : List Grant} (g : Grant) (addr v : ℕ) (mem : g ∈ w.grants)
      (inside : g.extent.Covers addr) (word : addr % 8 = 0)
      (rest : FreeRun (w.stored addr v) order w') : FreeRun w order w'
  | free {w w' : World} {order : List Grant} (g : Grant) (mem : g ∈ w.grants)
      (header : w.alloc.mem g.start = g.size) (rest : FreeRun (w.freed g g.extent) order w') :
      FreeRun w (g :: order) w'

/-- What a run of frees does: the grants of the list are gone, everything else is kept. -/
theorem FreeRun.result {w' : World} {order : List Grant} (run : FreeRun w order w') :
    ∀ {F : Finset Extent}, Inv w F → ∃ F', Inv w' F' ∧ w'.added = w.added ∧
      w'.grants = w.grants \ order.toFinset ∧ w'.alloc.bufGrants = w.alloc.bufGrants := by
  induction run with
  | done w => exact fun inv => ⟨_, inv, rfl, by simp, rfl⟩
  | store g addr v mem inside word rest ih => exact fun inv => ih (inv.stored mem inside word)
  | @free w w' order g mem header rest ih =>
    intro F inv
    have wf := inv.core.bare.layout.grantWf g (Finset.mem_union_left _ mem)
    obtain ⟨F₁, inv₁, -⟩ := inv.freed mem (Grant.piece_whole wf) header
    obtain ⟨F', inv', added, grants, buffer⟩ := ih inv₁
    have store := free_store w.alloc g.start
    refine ⟨F', inv', added, ?_, buffer.trans (bufGrants_congr store.buf store.capacity)⟩
    rw [grants]
    show release w.grants g g.extent \ order.toFinset = _
    rw [release, Grant.leftover_whole, Finset.union_empty]
    ext h
    simp only [Finset.mem_sdiff, Finset.mem_erase, toFinset_cons, Finset.mem_insert, not_or]
    tauto

/-- Grants can be freed in any order: their owners only have to write the headers. -/
theorem Inv.exists_freeRun {order : List Grant} (inv : Inv w F) (nodup : order.Nodup)
    (outstanding : ∀ g ∈ order, g ∈ w.grants) : ∃ w', FreeRun w order w' := by
  induction order generalizing w F with
  | nil => exact ⟨w, .done w⟩
  | cons g rest ih =>
    have mem := outstanding g mem_cons_self
    have wf := inv.core.bare.layout.grantWf g (Finset.mem_union_left _ mem)
    have start : g.extent.Covers g.start := ⟨le_refl _, Nat.lt_add_of_pos_right wf.pos⟩
    have word : g.start % 8 = 0 := by
      have aligned := wf.aligned
      simp only [Grant.extent, pageSize] at aligned
      omega
    have written := inv.stored (v := g.size) mem start word
    have header : (w.stored g.start g.size).alloc.mem g.extent.1 = g.extent.2 :=
      Function.update_self _ _ _
    obtain ⟨F', inv', -⟩ := written.freed mem (Grant.piece_whole wf) header
    obtain ⟨notRest, restNodup⟩ := nodup_cons.1 nodup
    obtain ⟨w', run⟩ := ih inv' restNodup fun h hm => by
      refine Finset.mem_union_left _ (Finset.mem_erase.2
        ⟨fun same => notRest (same ▸ hm), outstanding h (mem_cons_of_mem _ hm)⟩)
    exact ⟨w', .store g g.start g.size mem start word (.free g mem header run)⟩

end World

/-- **The free ranges are the maximal runs of free addresses, and the order in which grants
are freed does not show**: all orders can be run and give the same free ranges. -/
theorem reached_free_order {w : World} (reached : w.Reached) :
    w.FreeRangesAreRuns ∧ ∀ first second : List Grant, first.Nodup → first.Perm second →
      (∀ g ∈ first, g ∈ w.grants) →
      (∃ w₁, FreeRun w first w₁) ∧ (∃ w₂, FreeRun w second w₂) ∧
      ∀ w₁ w₂, FreeRun w first w₁ → FreeRun w second w₂ →
        w₁.alloc.freeRanges.toFinset = w₂.alloc.freeRanges.toFinset := by
  obtain ⟨F, inv⟩ := reached.inv
  refine ⟨inv.freeRangesAreRuns, fun first second nodup perm granted => ⟨?_, ?_, ?_⟩⟩
  · exact inv.exists_freeRun nodup granted
  · exact inv.exists_freeRun (perm.nodup_iff.1 nodup) fun g mem =>
      granted g (perm.mem_iff.2 mem)
  · intro w₁ w₂ run₁ run₂
    obtain ⟨F₁, inv₁, added₁, grants₁, buffer₁⟩ := run₁.result inv
    obtain ⟨F₂, inv₂, added₂, grants₂, buffer₂⟩ := run₂.result inv
    have sameSet : first.toFinset = second.toFinset := toFinset_eq_of_perm _ _ perm
    have sameGrants : w₁.outstanding = w₂.outstanding := by
      rw [outstanding, outstanding, grants₁, grants₂, buffer₁, buffer₂, sameSet]
    ext r
    rw [mem_toFinset, mem_toFinset]
    exact inv₂.freeRanges_eq inv₁ (added₁.trans added₂.symm) (fun x => by rw [sameGrants]) r

/-- The sample state with two grants of two pages each. -/
def sampleGrants : World :=
  let w := sampleWorld.granted (sampleWorld.alloc.alloc true 8192 true) 8192 false
  w.granted (w.alloc.alloc true 8192 true) 8192 false

theorem sampleGrants_reached : sampleGrants.Reached :=
  (sampleWorld_reached.next (Step.alloc sampleRequest true)).next
    (Step.alloc sampleRequest true)

/-- The two orders of freeing the sample grants. -/
theorem sampleGrants_free_order :
    ((sampleGrants.freed ⟨16384, 8192, false⟩ (16384, 8192)).freed ⟨24576, 8192, false⟩
        (24576, 8192)).alloc.freeRanges.toFinset =
      ((sampleGrants.freed ⟨24576, 8192, false⟩ (24576, 8192)).freed ⟨16384, 8192, false⟩
        (16384, 8192)).alloc.freeRanges.toFinset :=
  ((reached_free_order sampleGrants_reached).2
    [⟨16384, 8192, false⟩, ⟨24576, 8192, false⟩] [⟨24576, 8192, false⟩, ⟨16384, 8192, false⟩]
    (by decide) (List.Perm.swap _ _ _) (by decide +kernel)).2.2 _ _
    (.free _ (by decide +kernel) (by decide +kernel)
      (.free _ (by decide +kernel) (by decide +kernel) (.done _)))
    (.free _ (by decide +kernel) (by decide +kernel)
      (.free _ (by decide +kernel) (by decide +kernel) (.done _)))

end MiniOsv.Mempool
