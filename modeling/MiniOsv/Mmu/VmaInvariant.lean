/-
# Mmu.VmaInvariant -- well-formed area lists

An area list is well formed (`Wf`) when it is sorted and disjoint, has the two markers and
otherwise whole, non-empty areas between them that keep clear of the linear maps, and when
`vma_range_set` mirrors it.
-/
import MiniOsv.Mmu.VmaList

namespace MiniOsv.Mmu

open Theory List VmaRange
open Mempool (pageSize wrap64 alignDown alignUp)

/-! ## Alignment -/

theorem alignUp_eq {n : ℕ} (aligned : n % pageSize = 0) (small : n < 2 ^ 64) :
    alignUp n pageSize = n := by
  simp only [alignUp, alignDown, wrap64, pageSize] at *
  omega

/-! ## Areas -/

structure Vma.Proper (v : Vma) : Prop where
  pos : 0 < v.start
  nonempty : v.start < v.stop
  inside : v.stop ≤ upperVmaLimit
  startAligned : v.start % pageSize = 0
  stopAligned : v.stop % pageSize = 0

def Vma.Before (v w : Vma) : Prop := v.start < w.start ∧ v.stop ≤ w.start

/-! ## Linear maps -/

def Clear (start stop : ℕ) (linear : List LinearVma) : Prop :=
  ∀ l ∈ linear, stop ≤ l.start ∨ l.start + l.size ≤ start

/-- The linear maps that boot sets up: those below the upper limit are non-empty and disjoint
ranges between the limits, and there is one above it. -/
structure LinearOk (linear : List LinearVma) : Prop where
  keyed : Keyed LinearVma.start linear
  low : ∀ l ∈ linear, l.start < upperVmaLimit →
    0 < l.start ∧ 0 < l.size ∧ l.start + l.size ≤ upperVmaLimit
  apart : ∀ l ∈ linear, ∀ m ∈ linear, l.start < m.start → m.start ≤ upperVmaLimit →
    l.start + l.size ≤ m.start
  beyond : ∃ l ∈ linear, upperVmaLimit < l.start

/-- No linear map starts strictly inside a range that is clear of them. -/
theorem LinearOk.start_ne {linear : List LinearVma} (ok : LinearOk linear) {start stop edge : ℕ}
    (clear : Clear start stop linear) (inside : start ≤ edge ∧ edge < stop)
    (below : stop ≤ upperVmaLimit) : ∀ l ∈ linear, l.start ≠ edge := by
  intro l mem same
  have low := ok.low l mem (by omega)
  rcases clear l mem with before | behind <;> omega

namespace Mm

structure Wf (s : Mm) : Prop where
  sorted : s.vmaList.Pairwise Vma.Before
  lower : lowerEdge ∈ s.vmaList
  upper : upperEdge ∈ s.vmaList
  proper : ∀ v ∈ s.vmaList, v = lowerEdge ∨ v = upperEdge ∨ v.Proper
  clear : ∀ v ∈ s.vmaList, v.Proper → Clear v.start v.stop s.linearVmaSet
  keyed : Keyed start s.vmaRangeSet
  /-- An area has its entry unless a linear map has taken the place. -/
  entries : ∀ r, r ∈ s.vmaRangeSet ↔ (∃ l ∈ s.linearVmaSet, r = .linear l) ∨
    ∃ v ∈ s.vmaList, r = .vma v.start ∧ ∀ l ∈ s.linearVmaSet, l.start ≠ v.start
  linear : LinearOk s.linearVmaSet

variable {s : Mm} {v : Vma} {before after : List Vma}

theorem Wf.keyedList (wf : s.Wf) : Keyed Vma.start s.vmaList := wf.sorted.imp fun h => h.1

section

variable (wf : s.Wf) (list : s.vmaList = before ++ v :: after)

include wf list

theorem Wf.keyedAt :
    Keyed Vma.start (before ++ v :: after) := list ▸ wf.keyedList

theorem Wf.vmaAt : s.vmaAt v.start = some v := by
  rw [Mm.vmaAt, list]
  exact (wf.keyedAt list).find_append

theorem Wf.prev : s.prev v.start = before.getLast? := by
  rw [Mm.prev, list, (wf.keyedAt list).prev_append]

/-- Where an area stands among the others. -/
theorem Wf.around :
    before.Pairwise Vma.Before ∧ after.Pairwise Vma.Before ∧ (∀ u ∈ before, u.Before v) ∧
      (∀ w ∈ after, v.Before w) ∧ ∀ u ∈ before, ∀ w ∈ after, u.Before w := by
  have sorted := wf.sorted
  rw [list, pairwise_append, pairwise_cons] at sorted
  obtain ⟨first, ⟨behind, second⟩, across⟩ := sorted
  exact ⟨first, second, fun u mem => across u mem v mem_cons_self, behind,
    fun u memU w memW => across u memU w (mem_cons_of_mem _ memW)⟩

end

end Mm

open Mm

def twoAreas : Mm where
  vmaList := [lowerEdge, ⟨0x200000000000, 0x200000002000, 3, 0⟩,
    ⟨0x200000002000, 0x200000004000, 3, 0⟩, upperEdge]
  vmaRangeSet := [.vma lowerVmaLimit, .vma 0x200000000000, .vma 0x200000002000,
    .vma upperVmaLimit, .linear ⟨0x500000000000, 0x1000⟩]
  linearVmaSet := [⟨0x500000000000, 0x1000⟩]

theorem twoAreas_wf : twoAreas.Wf := by
  have proper : ∀ v ∈ twoAreas.vmaList, v = lowerEdge ∨ v = upperEdge ∨ v.Proper := by
    intro v mem
    simp only [twoAreas, mem_cons, not_mem_nil, or_false] at mem
    rcases mem with rfl | rfl | rfl | rfl
    · exact .inl rfl
    · exact .inr (.inr ⟨by decide, by decide, by decide, by decide, by decide⟩)
    · exact .inr (.inr ⟨by decide, by decide, by decide, by decide, by decide⟩)
    · exact .inr (.inl rfl)
  refine ⟨?_, by decide, by decide, proper, ?_, ?_, ?_, ?_⟩
  · simp [twoAreas, Vma.Before, lowerEdge, upperEdge, lowerVmaLimit, upperVmaLimit]
  · intro v _ isProper l mem
    obtain rfl := mem_singleton.1 mem
    have := isProper.inside
    simp only [upperVmaLimit] at this
    exact .inl (by show v.stop ≤ 0x500000000000; omega)
  · simp [twoAreas, Theory.Keyed, VmaRange.start, lowerVmaLimit, upperVmaLimit]
  · intro r
    simp [twoAreas, lowerEdge, upperEdge, lowerVmaLimit, upperVmaLimit]
    tauto
  · refine ⟨by simp [twoAreas, Theory.Keyed], ?_, ?_, ?_⟩
    · intro l mem below
      obtain rfl := mem_singleton.1 mem
      exact absurd below (by decide)
    · intro l memL m memM less
      obtain rfl := mem_singleton.1 memL
      obtain rfl := mem_singleton.1 memM
      exact absurd less (lt_irrefl _)
    · exact ⟨_, mem_singleton_self _, by decide⟩

end MiniOsv.Mmu
