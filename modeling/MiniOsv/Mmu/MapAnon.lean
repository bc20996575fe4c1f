/-
# Mmu.MapAnon -- where new anonymous areas go

`map_anon` without a fixed address puts the new area where `find_hole` finds room.  On a
well-formed list this is a place that no area and no linear map takes.
-/
import MiniOsv.Mmu.FindHole
import MiniOsv.Mmu.VmaSweep

namespace MiniOsv.Mmu

open List Nat
open Mempool (pageSize wrap64 alignUp)

namespace Mm

variable {s : Mm}

/-! ## The ranges of a well-formed list -/

/-- In a sorted list the order of the starts is the order of the areas. -/
theorem Wf.before_of_lt (wf : s.Wf) {v w : Vma} (memV : v ∈ s.vmaList) (memW : w ∈ s.vmaList)
    (lt : v.start < w.start) : v.Before w := by
  obtain ⟨before, after, list⟩ := append_of_mem memW
  obtain ⟨-, -, below, above, -⟩ := wf.around list
  rw [list, mem_append, mem_cons] at memV
  rcases memV with left | rfl | right
  · exact below v left
  · exact absurd lt (lt_irrefl _)
  · exact absurd lt (above v right).1.not_gt

theorem Wf.vmaAt_of_mem (wf : s.Wf) {v : Vma} (mem : v ∈ s.vmaList) :
    s.vmaAt v.start = some v := by
  obtain ⟨before, after, list⟩ := append_of_mem mem
  exact wf.vmaAt list

theorem Wf.mem_ranges (wf : s.Wf) (x : ℕ × ℕ) : x ∈ s.ranges ↔
    (∃ l ∈ s.linearVmaSet, x = (l.start, l.stop)) ∨
      ∃ v ∈ s.vmaList, x = (v.start, v.stop) ∧ ∀ l ∈ s.linearVmaSet, l.start ≠ v.start := by
  rw [ranges, mem_map]
  constructor
  · rintro ⟨r, mem, rfl⟩
    rcases (wf.entries r).1 mem with ⟨l, memL, rfl⟩ | ⟨v, memV, rfl, alone⟩
    · exact .inl ⟨l, memL, rfl⟩
    · refine .inr ⟨v, memV, ?_, alone⟩
      simp [wf.vmaAt_of_mem memV]
  · rintro (⟨l, memL, rfl⟩ | ⟨v, memV, rfl, alone⟩)
    · exact ⟨.linear l, (wf.entries _).2 (.inl ⟨l, memL, rfl⟩), rfl⟩
    · refine ⟨.vma v.start, (wf.entries _).2 (.inr ⟨v, memV, rfl, alone⟩), ?_⟩
      simp [wf.vmaAt_of_mem memV]

/-- A linear map below the limit ends where its size says. -/
theorem Wf.linear_stop (wf : s.Wf) {l : LinearVma} (mem : l ∈ s.linearVmaSet)
    (low : l.start < upperVmaLimit) :
    l.stop = l.start + l.size ∧ l.start < l.stop ∧ l.stop ≤ upperVmaLimit := by
  obtain ⟨-, full, inside⟩ := wf.linear.low l mem low
  have stop : l.stop = l.start + l.size := by
    refine mod_eq_of_lt ?_
    simp only [upperVmaLimit] at inside
    omega
  omega

theorem Wf.ordered (wf : s.Wf) : Ordered s.ranges := by
  have starts : s.ranges.Pairwise fun r q => r.1 < q.1 := by
    refine pairwise_map.2 (wf.keyed.imp fun {r q} lt => ?_)
    cases r <;> cases q <;> exact lt
  refine ⟨starts, starts.imp_of_mem fun {r q} memR memQ lt within => ?_, fun r mem low => ?_⟩
  · rcases (wf.mem_ranges r).1 memR with ⟨l, memL, rfl⟩ | ⟨v, memV, rfl, -⟩ <;>
      rcases (wf.mem_ranges q).1 memQ with ⟨m, memM, rfl⟩ | ⟨w, memW, rfl, -⟩ <;>
      simp only at lt within ⊢
    · rw [(wf.linear_stop memL (by omega)).1]
      exact wf.linear.apart l memL m memM lt within
    · obtain ⟨stop, full, inside⟩ := wf.linear_stop memL (by omega)
      rcases wf.proper w memW with rfl | rfl | proper
      · exact absurd lt (not_lt_zero _)
      · exact inside
      · have := proper.nonempty
        rcases wf.clear w memW proper l memL with behind | before <;> omega
    · rcases wf.proper v memV with rfl | rfl | proper
      · exact zero_le _
      · exact absurd within (not_le.2 lt)
      · rcases wf.clear v memV proper m memM with behind | before <;> omega
    · exact (wf.before_of_lt memV memW lt).2
  · rcases (wf.mem_ranges r).1 mem with ⟨l, memL, rfl⟩ | ⟨v, memV, rfl, -⟩
    · exact (wf.linear_stop memL low).2.1.le
    · exact wf.start_le_stop memV

/-! ## `map_anon` -/

/-- The hint for areas that may be anywhere. -/
def mmapHint : ℕ := 0x200000000000

/-- The linear maps in the part that is searched end on page boundaries. -/
def LinearPages (s : Mm) : Prop :=
  ∀ l ∈ s.linearVmaSet, l.start < upperVmaLimit → mmapHint ≤ l.stop → l.stop % pageSize = 0

/-- Where `find_hole` finds room for whole pages, a new area can be. -/
theorem Wf.hole (wf : s.Wf) (pages : s.LinearPages) {size hole : ℕ} (perm flags : ℕ)
    (pos : 0 < size) (aligned : size % pageSize = 0) (small : mmapHint + size < 2 ^ 64)
    (found : s.findHole mmapHint size = some (.ok hole)) :
    Vma.Proper ⟨hole, hole + size, perm, flags⟩ ∧
      (∀ u ∈ s.vmaList, u.stop ≤ hole ∨ hole + size ≤ u.start) ∧
      Clear hole (hole + size) s.linearVmaSet := by
  have spec := findHole_spec wf.ordered (by decide) pos small
  rw [found] at spec
  obtain ⟨inside, disjoint⟩ := spec.1.disjoint wf.ordered
  obtain ⟨low, i, p, n, gap, -, origin⟩ := spec.1
  have whole : hole % pageSize = 0 := by
    rcases origin with rfl | divides | rfl
    · rfl
    · exact mod_eq_zero_of_dvd (Dvd.dvd.trans (by decide) divides)
    · have lower : p.1 < upperVmaLimit :=
        (wf.ordered.of_lt (lt_succ_self i) gap.left gap.right).1.trans_le gap.within
      rcases (wf.mem_ranges p).1 (mem_of_getElem? gap.left) with
        ⟨l, memL, rfl⟩ | ⟨v, memV, rfl, -⟩
      · exact pages l memL lower low
      · rcases wf.proper v memV with rfl | rfl | proper
        · rfl
        · rfl
        · exact proper.stopAligned
  have hint : 0 < hole := lt_of_lt_of_le (by decide) low
  refine ⟨⟨hint, by simpa using pos, inside, whole, ?_⟩, fun u mem => ?_, fun l mem => ?_⟩
  · show (hole + size) % pageSize = 0
    rw [add_mod, whole, aligned]
    rfl
  · rcases wf.proper u mem with rfl | rfl | proper
    · exact .inl (zero_le _)
    · exact .inr inside
    · have alone := wf.linear.start_ne (wf.clear u mem proper) ⟨le_rfl, proper.nonempty⟩
        proper.inside
      exact disjoint _ ((wf.mem_ranges _).2 (.inr ⟨u, mem, rfl, alone⟩))
  · by_cases below : l.start < upperVmaLimit
    · have apart := disjoint _ ((wf.mem_ranges _).2 (.inl ⟨l, mem, rfl⟩))
      have stop := (wf.linear_stop mem below).1
      simp only [stop] at apart
      exact apart.symm
    · exact .inl (by omega)

end Mm

end MiniOsv.Mmu
