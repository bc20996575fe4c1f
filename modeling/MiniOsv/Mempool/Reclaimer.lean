/-
# Mempool.Reclaimer -- waking the threads that wait for memory

`reclaimer_waiters::wake_waiters` allocates nothing.  It goes through the free ranges and
gives parts of each away on paper: a waiter whose request still fits into what is left of
the range is taken off the list and woken.  The reclaimer thread takes the returned flag
for the answer to "could anybody be helped", and gives the system up if not.

The flag is set by the callback of `for_each`, which is not called when there is no range.
`wakeWaiters_contract_iff` says that this is the only case in which the flag is wrong.
-/
import MiniOsv.Mempool.PageRanges

namespace MiniOsv.Mempool

open List PageRangeAllocator

universe u

variable {τ : Type u}

structure WaitNode (τ : Type u) where
  owner : Option τ
  bytes : ℕ
  deriving DecidableEq

open WaitNode

namespace WaitNode

/-- `wr.owner = nullptr`. -/
def clear (wr : WaitNode τ) : WaitNode τ := { wr with owner := none }

/-- What a list of waiters asks for together. -/
def total (nodes : List (WaitNode τ)) : ℕ := (nodes.map bytes).sum

@[simp] theorem total_nil : total ([] : List (WaitNode τ)) = 0 := rfl

@[simp] theorem total_cons (wr : WaitNode τ) (rest : List (WaitNode τ)) :
    total (wr :: rest) = wr.bytes + total rest := by
  simp [total]

end WaitNode

/-! ## The two loops -/

/-- What the inner loop leaves: the rest of the range, the waiters that stay on the list
and those that were erased from it, both in their order. -/
structure Packed (τ : Type u) where
  inThisPageRange : ℕ
  kept : List (WaitNode τ)
  taken : List (WaitNode τ)

/-- The inner loop over the list of waiters. -/
def packRange (inThisPageRange : ℕ) : List (WaitNode τ) → Packed τ
  | [] => ⟨inThisPageRange, [], []⟩
  | wr :: rest =>
    if wr.bytes ≤ inThisPageRange then
      let r := packRange (inThisPageRange - wr.bytes) rest
      { r with taken := wr :: r.taken }
    else
      let r := packRange inThisPageRange rest
      { r with kept := wr :: r.kept }

structure Waking (τ : Type u) where
  waiters : List (WaitNode τ)
  woken : Bool
  /-- The threads `wake` was called on. -/
  wakes : List τ
  /-- The erased nodes as they are now. -/
  released : List (WaitNode τ)

/-- The lambda of `wake_waiters`; `false` ends `for_each`. -/
def offerRange (size : ℕ) (w : Waking τ) : Bool × Waking τ :=
  if w.waiters.isEmpty then (false, { w with woken := true })
  else
    let r := packRange size w.waiters
    (true,
      { waiters := r.kept
        woken := w.woken || !r.taken.isEmpty
        wakes := w.wakes ++ r.taken.filterMap owner
        released := w.released ++ r.taken.map clear })

/-- `page_range_allocator::for_each` over the sizes of the ranges it visits. -/
def forEachRange {σ : Type u} (f : ℕ → σ → Bool × σ) : List ℕ → σ → σ
  | [], state => state
  | size :: rest, state =>
    let r := f size state
    if r.1 then forEachRange f rest r.2 else r.2

/-- The sizes of the free ranges in the order of `for_each`. -/
def PageRangeAllocator.rangeSizes (s : PageRangeAllocator) : List ℕ :=
  (s.forEachList 0).map s.mem

structure Woken (τ : Type u) extends Waking τ where
  reclaimer : Bool

def wakeWaiters (s : PageRangeAllocator) (waiters : List (WaitNode τ)) : Woken τ :=
  let w := forEachRange offerRange s.rangeSizes ⟨waiters, false, [], []⟩
  { w with reclaimer := !w.waiters.isEmpty }

/-- The last section of a turn of `_do_reclaim`; `none` is `oom()`. -/
def doReclaim (target : ℤ) (s : PageRangeAllocator) (waiters : List (WaitNode τ)) :
    Option (List (WaitNode τ)) :=
  if 0 ≤ target then
    let r := wakeWaiters s waiters
    if r.woken then some r.waiters else none
  else some waiters

/-! ## One range -/

theorem packRange_left (size : ℕ) (waiters : List (WaitNode τ)) :
    (packRange size waiters).inThisPageRange + total (packRange size waiters).taken =
      size := by
  induction waiters generalizing size with
  | nil => rfl
  | cons wr rest ih =>
    by_cases fits : wr.bytes ≤ size
    · have rest := ih (size - wr.bytes)
      simp only [packRange, if_pos fits, total_cons]
      omega
    · simp only [packRange, if_neg fits]
      exact ih size

/-- A waiter that stays asks for more than what is left of the range. -/
theorem packRange_kept {size : ℕ} {waiters : List (WaitNode τ)} {wr : WaitNode τ}
    (kept : wr ∈ (packRange size waiters).kept) :
    (packRange size waiters).inThisPageRange < wr.bytes := by
  induction waiters generalizing size with
  | nil => cases kept
  | cons first rest ih =>
    by_cases fits : first.bytes ≤ size
    · simp only [packRange, if_pos fits] at kept ⊢
      exact ih kept
    · simp only [packRange, if_neg fits] at kept ⊢
      rcases mem_cons.1 kept with rfl | later
      · have left := packRange_left size rest
        omega
      · exact ih later

theorem packRange_perm (size : ℕ) (waiters : List (WaitNode τ)) :
    ((packRange size waiters).kept ++ (packRange size waiters).taken).Perm waiters := by
  induction waiters generalizing size with
  | nil => exact .nil
  | cons wr rest ih =>
    by_cases fits : wr.bytes ≤ size
    · simp only [packRange, if_pos fits]
      exact perm_middle.trans ((ih _).cons wr)
    · simp only [packRange, if_neg fits, cons_append]
      exact (ih size).cons wr

/-! ## All ranges -/

/-- A range of `size` bytes was given to the waiters of `part`: not beyond its size, and
nobody in `left` would fit into its rest. -/
def Offered (left : List (WaitNode τ)) (size : ℕ) (part : List (WaitNode τ)) : Prop :=
  total part ≤ size ∧ ∀ wr ∈ left, size - total part < wr.bytes

/-- **The packing.**  `parts` says, range by range, which waiters it was given to. -/
structure Packing (sizes : List ℕ) (before after : Waking τ) (parts : List (List (WaitNode τ))) :
    Prop where
  offered : List.Forall₂ (Offered after.waiters) sizes parts
  /-- Every waiter is still on the list or was taken off it once. -/
  perm : (after.waiters ++ parts.flatten).Perm before.waiters
  /-- The erased nodes have no owner any more, and their owners were woken. -/
  released : after.released = before.released ++ parts.flatten.map clear
  wakes : after.wakes = before.wakes ++ parts.flatten.filterMap owner
  woken : after.woken = false →
    before.woken = false ∧ parts.flatten = [] ∧ (sizes ≠ [] → before.waiters ≠ [])

theorem offered_nil (size : ℕ) : Offered ([] : List (WaitNode τ)) size [] :=
  ⟨Nat.zero_le _, nofun⟩

/-- With no waiter left the remaining ranges are given to nobody. -/
theorem Packing.stop {sizes : List ℕ} {w : Waking τ} (none : w.waiters = []) :
    Packing sizes w { w with woken := true } (sizes.map fun _ => []) where
  offered := by
    rw [none]
    induction sizes with
    | nil => exact .nil
    | cons size rest ih => exact .cons (offered_nil size) ih
  perm := by simp [none]
  released := by simp
  wakes := by simp
  woken flag := by cases flag

theorem Packing.first {size : ℕ} {rest : List ℕ} {w after : Waking τ}
    {parts : List (List (WaitNode τ))} (some : w.waiters.isEmpty = false)
    (packing : Packing rest (offerRange size w).2 after parts) :
    Packing (size :: rest) w after ((packRange size w.waiters).taken :: parts) := by
  have offer : (offerRange size w).2 =
      { waiters := (packRange size w.waiters).kept
        woken := w.woken || !(packRange size w.waiters).taken.isEmpty
        wakes := w.wakes ++ (packRange size w.waiters).taken.filterMap owner
        released := w.released ++ (packRange size w.waiters).taken.map clear } := by
    simp [offerRange, some]
  rw [offer] at packing
  have left := packRange_left size w.waiters
  refine ⟨.cons ⟨by omega, fun wr mem => ?_⟩ packing.offered, ?_, ?_, ?_, ?_⟩
  · -- Who is left at the end was left by this range.
    have kept : wr ∈ (packRange size w.waiters).kept :=
      packing.perm.subset (mem_append_left _ mem)
    have short := packRange_kept kept
    omega
  · rw [flatten_cons]
    calc (after.waiters ++ ((packRange size w.waiters).taken ++ parts.flatten)).Perm
          (after.waiters ++ (parts.flatten ++ (packRange size w.waiters).taken)) :=
          (perm_append_comm).append_left _
      _ = (after.waiters ++ parts.flatten) ++ (packRange size w.waiters).taken := by
          rw [append_assoc]
      List.Perm _ ((packRange size w.waiters).kept ++ (packRange size w.waiters).taken) :=
          packing.perm.append_right _
      List.Perm _ w.waiters := packRange_perm size w.waiters
  · rw [packing.released, flatten_cons, map_append, append_assoc]
  · rw [packing.wakes, flatten_cons, filterMap_append, append_assoc]
  · intro flag
    obtain ⟨before, nobody, _⟩ := packing.woken flag
    obtain ⟨unset, taken⟩ := Bool.or_eq_false_iff.1 before
    refine ⟨unset, ?_, fun _ empty => ?_⟩
    · rw [flatten_cons, nobody, append_nil]
      simpa using taken
    · rw [empty] at some
      cases some

attribute [local simp] forEachRange

/-- **All ranges.** -/
theorem forEachRange_packing (sizes : List ℕ) (w : Waking τ) :
    ∃ parts, Packing sizes w (forEachRange offerRange sizes w) parts := by
  induction sizes generalizing w with
  | nil =>
    exact ⟨[], .nil, by simp, by simp, by simp,
      fun flag => ⟨flag, rfl, fun ne => absurd rfl ne⟩⟩
  | cons size rest ih =>
    cases empty : w.waiters.isEmpty with
    | true =>
      have stop : forEachRange offerRange (size :: rest) w = { w with woken := true } := by
        simp [offerRange, empty]
      rw [stop]
      exact ⟨_, .stop (isEmpty_iff.1 empty)⟩
    | false =>
      have go : forEachRange offerRange (size :: rest) w =
          forEachRange offerRange rest (offerRange size w).2 := by
        simp [offerRange, empty]
      rw [go]
      obtain ⟨parts, packing⟩ := ih (offerRange size w).2
      exact ⟨_, packing.first empty⟩

/-! ## The contract -/

/-- What `wake_waiters` promises and what `_do_reclaim` relies on. -/
structure WakeContract (s : PageRangeAllocator) (waiters : List (WaitNode τ)) : Prop where
  packing : ∃ parts : List (List (WaitNode τ)),
    List.Forall₂ (Offered (wakeWaiters s waiters).waiters) s.rangeSizes parts ∧
    ((wakeWaiters s waiters).waiters ++ parts.flatten).Perm waiters ∧
    (wakeWaiters s waiters).released = parts.flatten.map clear ∧
    (wakeWaiters s waiters).wakes = parts.flatten.filterMap owner ∧
    ((wakeWaiters s waiters).woken = false → waiters ≠ [] ∧ parts.flatten = [])
  /-- The system is given up only while somebody waits whom no free range can serve. -/
  oom : ∀ target, doReclaim target s waiters = none →
    waiters ≠ [] ∧ ∀ wr ∈ waiters, ∀ size ∈ s.rangeSizes, size < wr.bytes

theorem doReclaim_oom {target : ℤ} {s : PageRangeAllocator} {waiters : List (WaitNode τ)}
    (oom : doReclaim target s waiters = none) : (wakeWaiters s waiters).woken = false := by
  rw [doReclaim] at oom
  split at oom
  · dsimp only at oom
    split at oom
    · cases oom
    next flag =>
      exact Bool.not_eq_true _ ▸ flag
  · cases oom

/-- A range that was given to nobody is too small for everybody left. -/
theorem Offered.size_lt {left : List (WaitNode τ)} {sizes : List ℕ}
    {parts : List (List (WaitNode τ))} (offered : List.Forall₂ (Offered left) sizes parts)
    (nobody : parts.flatten = []) {wr : WaitNode τ} (mem : wr ∈ left) :
    ∀ size ∈ sizes, size < wr.bytes := by
  induction offered with
  | nil =>
    intro size inside
    cases inside
  | cons head tail ih =>
    rw [flatten_cons, append_eq_nil_iff] at nobody
    intro size inside
    rcases mem_cons.1 inside with rfl | later
    · have short := head.2 wr mem
      rw [nobody.1] at short
      simpa using short
    · exact ih nobody.2 size later

/-- **The flag is right exactly when there is a free range or a waiter.**  Without a range
the callback is never called, and the flag says that nobody could be helped although
nobody had asked. -/
theorem wakeWaiters_contract_iff (s : PageRangeAllocator) (waiters : List (WaitNode τ)) :
    WakeContract s waiters ↔ s.forEachList 0 ≠ [] ∨ waiters ≠ [] := by
  constructor
  · intro contract
    by_contra neither
    obtain ⟨noRange, noWaiter⟩ := not_or.1 neither
    rw [not_not] at noRange noWaiter
    have oom : doReclaim 0 s waiters = none := by
      simp [doReclaim, wakeWaiters, rangeSizes, noRange, noWaiter]
    exact (contract.oom 0 oom).1 noWaiter
  · intro either
    obtain ⟨parts, packing⟩ := forEachRange_packing s.rangeSizes ⟨waiters, false, [], []⟩
    have asked : (wakeWaiters s waiters).woken = false → waiters ≠ [] ∧ parts.flatten = [] := by
      intro flag
      obtain ⟨_, nobody, ranges⟩ := packing.woken flag
      refine ⟨?_, nobody⟩
      rcases either with range | waiter
      · exact ranges fun none => range (map_eq_nil_iff.1 none)
      · exact waiter
    refine ⟨⟨parts, packing.offered, packing.perm, ?_, ?_, asked⟩, ?_⟩
    · exact packing.released.trans (nil_append _)
    · exact packing.wakes.trans (nil_append _)
    · intro target oom
      obtain ⟨waiting, nobody⟩ := asked (doReclaim_oom oom)
      refine ⟨waiting, fun wr mem => Offered.size_lt packing.offered nobody ?_⟩
      have all := packing.perm
      rw [nobody, append_nil] at all
      exact all.symm.subset mem

/-- Nobody waits and no memory is free: the reclaimer gives up. -/
theorem idle_reclaimer_gives_up :
    doReclaim 0 (initial fun _ => 0) ([] : List (WaitNode ℕ)) = none ∧
      ¬ WakeContract (initial fun _ => 0) ([] : List (WaitNode ℕ)) := by
  have gives : doReclaim 0 (initial fun _ => 0) ([] : List (WaitNode ℕ)) =
      none := by decide
  exact ⟨gives, fun contract => (contract.oom 0 gives).1 rfl⟩

end MiniOsv.Mempool
