/-
# Arch.ItsMap -- MSI vectors in the interrupt translation service

The driver maps the event of a vector for a device to a collection, which stands for a CPU.  It
keeps in `_cpu_by_vector` where it sent a vector, plus one, and chooses between creating a mapping
(`MAPTI`) and moving one (`MOVI`) from that table.  A call holds `_gic_lock` and its commands are
executed in the order of the queue, so a call is one step.

The table is by vector only, and `unmap_msi_vector` leaves it as it is.  After that the driver
sends `MOVI` or nothing at all to a device that has no mapping (`mapMsiVector_maps_iff`).
-/
import MiniOsv.Arch.GicLpi
import MiniOsv.Theory.Transition

namespace MiniOsv.Arch.ItsMap

open Theory (Reachable)
open GicLpi (lpiIntsStart)
open Function Option

def maxMsiHandlers : ℕ := 256

/-- The commands, with the fields that their words carry. -/
inductive Cmd where
  | mapti (deviceId eventId vector icid : ℕ)
  | movi (deviceId eventId icid : ℕ)
  | inv (deviceId eventId : ℕ)
  | discard (deviceId eventId : ℕ)
  /-- For the redistributor of this CPU. -/
  | sync (cpu : ℕ)

/-- The vector and the collection of an event of a device. -/
abbrev Translation := ℕ × ℕ → Option (ℕ × ℕ)

def exec (its : Translation) : Cmd → Translation
  | .mapti deviceId eventId vector icid =>
    update its (deviceId, eventId) (some (vector, icid))
  | .movi deviceId eventId icid =>
    match its (deviceId, eventId) with
    | some (vector, _) => update its (deviceId, eventId) (some (vector, icid))
    | none => its
  | .discard deviceId eventId => update its (deviceId, eventId) none
  | .inv _ _ | .sync _ => its

structure State where
  cpuByVector : ℕ → ℕ
  its : Translation

/-- `event_id` of the commands for a vector; also its index in the tables. -/
def eventOf (vector : ℕ) : ℕ := vector - lpiIntsStart

/-- `assert(index < max_msi_handlers)`. -/
def Msi (vector : ℕ) : Prop := lpiIntsStart ≤ vector ∧ eventOf vector < maxMsiHandlers

instance (vector : ℕ) : Decidable (Msi vector) := inferInstanceAs (Decidable (_ ∧ _))

namespace State

def send (s : State) (cmds : List Cmd) : State := { s with its := cmds.foldl exec s.its }

def setCpu (s : State) (index cpu : ℕ) : State :=
  { s with cpuByVector := update s.cpuByVector index (cpu + 1) }

def mapMsiVector (s : State) (vector dev targetCpu : ℕ) : Option State :=
  let index := eventOf vector
  if Msi vector then
    let vectorCpu := s.cpuByVector index
    if vectorCpu = 0 then
      some ((s.send [.mapti dev index vector targetCpu, .inv dev index, .sync targetCpu]).setCpu
        index targetCpu)
    else if vectorCpu - 1 ≠ targetCpu then
      some ((s.send [.movi dev index targetCpu, .inv dev index, .sync (vectorCpu - 1)]).setCpu
        index targetCpu)
    else some s
  else none

def unmapMsiVector (s : State) (vector dev : ℕ) : Option State :=
  let index := eventOf vector
  if Msi vector then
    let vectorCpu := s.cpuByVector index
    if vectorCpu ≠ 0 then some (s.send [.discard dev index, .inv dev index, .sync (vectorCpu - 1)])
    else some s
  else none

def Step (s s' : State) : Prop :=
  (∃ vector dev cpu, s.mapMsiVector vector dev cpu = some s') ∨
    ∃ vector dev, s.unmapMsiVector vector dev = some s'

def boot : State := ⟨fun _ => 0, fun _ => none⟩

def Reached : State → Prop := Reachable (· = boot) Step

/-- The service maps the event of the vector for the device to the vector and the CPU. -/
def Maps (s : State) (vector dev cpu : ℕ) : Prop := s.its (dev, eventOf vector) = some (vector, cpu)

end State

open State

/-- An event has its own vector, and a vector that the driver never mapped has no mapping. -/
structure Inv (s : State) : Prop where
  vector : ∀ dev index vector cpu, s.its (dev, index) = some (vector, cpu) →
    vector = index + lpiIntsStart
  unused : ∀ index, s.cpuByVector index = 0 → ∀ dev, s.its (dev, index) = none

variable {s s' : State} {vector dev : ℕ}

theorem exec_movi (its : Translation) (dev event icid : ℕ) :
    (∀ key, key ≠ (dev, event) → exec its (.movi dev event icid) key = its key) ∧
      exec its (.movi dev event icid) (dev, event) = (its (dev, event)).map fun p => (p.1, icid) := by
  simp only [exec]
  cases entry : its (dev, event) with
  | none => exact ⟨fun _ _ => rfl, entry⟩
  | some p => exact ⟨fun key ne => update_of_ne ne _ _, update_self ..⟩

theorem mapMsiVector_spec (s : State) (msi : Msi vector) (dev cpu : ℕ) :
    ∃ s', s.mapMsiVector vector dev cpu = some s' ∧
      (∀ key, key ≠ (dev, eventOf vector) → s'.its key = s.its key) ∧
      (∀ index, s'.cpuByVector index = 0 → s.cpuByVector index = 0 ∧ index ≠ eventOf vector) ∧
      s'.its (dev, eventOf vector) =
        if s.cpuByVector (eventOf vector) = 0 then some (vector, cpu)
        else if s.cpuByVector (eventOf vector) - 1 ≠ cpu then
          (s.its (dev, eventOf vector)).map fun p => (p.1, cpu)
        else s.its (dev, eventOf vector) := by
  have table : ∀ index, update s.cpuByVector (eventOf vector) (cpu + 1) index = 0 →
      s.cpuByVector index = 0 ∧ index ≠ eventOf vector := by
    intro index zero
    by_cases same : index = eventOf vector
    · rw [same, update_self] at zero
      cases zero
    · exact ⟨by rwa [update_of_ne same] at zero, same⟩
  unfold mapMsiVector
  rw [if_pos msi]
  by_cases unused : s.cpuByVector (eventOf vector) = 0
  · rw [if_pos unused, if_pos unused]
    exact ⟨_, rfl, fun key ne => update_of_ne ne _ _, table, update_self ..⟩
  rw [if_neg unused, if_neg unused]
  by_cases moves : s.cpuByVector (eventOf vector) - 1 ≠ cpu
  · rw [if_pos moves, if_pos moves]
    have moved := exec_movi s.its dev (eventOf vector) cpu
    exact ⟨_, rfl, moved.1, table, moved.2⟩
  · rw [if_neg moves, if_neg moves]
    exact ⟨_, rfl, fun _ _ => rfl, fun index zero => ⟨zero, fun same => unused (same ▸ zero)⟩, rfl⟩

theorem unmapMsiVector_spec (s : State) (msi : Msi vector) (dev : ℕ) :
    ∃ s', s.unmapMsiVector vector dev = some s' ∧ s'.cpuByVector = s.cpuByVector ∧
      (∀ key, key ≠ (dev, eventOf vector) → s'.its key = s.its key) ∧
      s'.its (dev, eventOf vector) =
        if s.cpuByVector (eventOf vector) = 0 then s.its (dev, eventOf vector) else none := by
  unfold unmapMsiVector
  rw [if_pos msi]
  by_cases unused : s.cpuByVector (eventOf vector) = 0
  · rw [if_neg (not_not.2 unused), if_pos unused]
    exact ⟨_, rfl, rfl, fun _ _ => rfl, rfl⟩
  · rw [if_pos unused, if_neg unused]
    exact ⟨_, rfl, rfl, fun key ne => update_of_ne ne _ _, update_self ..⟩

theorem Msi.vector_eq (msi : Msi vector) : eventOf vector + lpiIntsStart = vector :=
  Nat.sub_add_cancel msi.1

theorem Inv.frame (inv : Inv s) (msi : Msi vector)
    (others : ∀ key, key ≠ (dev, eventOf vector) → s'.its key = s.its key)
    (own : ∀ p, s'.its (dev, eventOf vector) = some p → p.1 = vector)
    (unused : ∀ index, s'.cpuByVector index = 0 → s.cpuByVector index = 0 ∧
      (index = eventOf vector → s'.its (dev, index) = none)) : Inv s' := by
  refine ⟨fun d index v cpu found => ?_, fun index zero d => ?_⟩
  · by_cases key : (d, index) = (dev, eventOf vector)
    · rw [key] at found
      rw [(Prod.mk.inj key).2, msi.vector_eq]
      exact own _ found
    · exact inv.vector d index v cpu ((others _ key).symm.trans found)
  · by_cases key : (d, index) = (dev, eventOf vector)
    · rw [(Prod.mk.inj key).1]
      exact (unused _ zero).2 (Prod.mk.inj key).2
    · exact (others _ key).trans (inv.unused index (unused index zero).1 d)

theorem Inv.step (inv : Inv s) (taken : Step s s') : Inv s' := by
  rcases taken with ⟨vector, dev, cpu, taken⟩ | ⟨vector, dev, taken⟩ <;> have msi := (ite_none_right_eq_some.1 taken).1
  · obtain ⟨t, done, others, table, own⟩ := mapMsiVector_spec s msi dev cpu
    cases done.symm.trans taken
    refine inv.frame msi others (fun p found => ?_) fun index zero =>
      ⟨(table index zero).1, fun same => absurd same (table index zero).2⟩
    rw [own] at found
    split at found
    · cases found
      rfl
    · have old : ∀ q, s.its (dev, eventOf vector) = some q → q.1 = vector := fun q entry =>
        (inv.vector _ _ q.1 q.2 entry).trans msi.vector_eq
      split at found
      · obtain ⟨q, entry, rfl⟩ := map_eq_some_iff.1 found
        exact old q entry
      · exact old p found
  · obtain ⟨t, done, table, others, own⟩ := unmapMsiVector_spec s msi dev
    cases done.symm.trans taken
    refine inv.frame msi others (fun p found => ?_) fun index zero => ?_
    · rw [own] at found
      split at found
      · exact (inv.vector _ _ p.1 p.2 found).trans msi.vector_eq
      · cases found
    · rw [table] at zero
      refine ⟨zero, fun same => ?_⟩
      rw [same] at zero ⊢
      rw [own, if_pos zero]
      exact inv.unused _ zero dev

theorem State.Reached.inv (reached : s.Reached) : Inv s := by
  refine Reachable.invariant (I := Inv) ?_ (fun _ _ _ inv taken => inv.step taken) reached
  rintro s rfl
  exact ⟨nofun, fun _ _ _ => rfl⟩

/-- **After `map_msi_vector` the service maps the event as asked exactly if** the driver never
mapped the vector, or the service has the mapping already, or it has one for the device that the
driver believes to be for another CPU.  After `unmap_msi_vector` it has none.  This is so in every
state that calls lead to. -/
theorem mapMsiVector_maps_iff (reached : s.Reached) (msi : Msi vector) (dev cpu : ℕ) :
    ((∃ s', s.mapMsiVector vector dev cpu = some s' ∧ s'.Maps vector dev cpu) ↔
      s.cpuByVector (eventOf vector) = 0 ∨ s.Maps vector dev cpu ∨
        s.cpuByVector (eventOf vector) ≠ cpu + 1 ∧ (s.its (dev, eventOf vector)).isSome) ∧
      ∃ s', s.unmapMsiVector vector dev = some s' ∧ s'.its (dev, eventOf vector) = none := by
  have inv := reached.inv
  obtain ⟨t, mapped, -, -, own⟩ := mapMsiVector_spec s msi dev cpu
  obtain ⟨u, unmapped, -, -, none⟩ := unmapMsiVector_spec s msi dev
  refine ⟨?_, u, unmapped, ?_⟩
  · rw [mapped]
    simp only [Option.some.injEq, exists_eq_left', Maps, own]
    by_cases unused : s.cpuByVector (eventOf vector) = 0
    · simp [unused]
    · have known : s.cpuByVector (eventOf vector) - 1 ≠ cpu ↔
          s.cpuByVector (eventOf vector) ≠ cpu + 1 := by omega
      simp only [unused, if_false, false_or, known]
      cases entry : s.its (dev, eventOf vector) with
      | none => simp
      | some p =>
        have same := (inv.vector _ _ p.1 p.2 entry).trans msi.vector_eq
        split <;> simp_all
  · rw [none]
    split
    · exact inv.unused _ (by assumption) dev
    · rfl

/-- Two vectors are mapped, and then the first one moves to another CPU. -/
theorem movedVector_maps : ∃ s s' : State, s.Reached ∧ s.Maps 8192 3 1 ∧ s.Maps 8193 4 0 ∧
    s.mapMsiVector 8192 3 2 = some s' ∧ s'.Maps 8192 3 2 := by
  have first : boot.mapMsiVector 8192 3 1 = some _ := rfl
  have one : Reached _ := .next (.start rfl) (.inl ⟨8192, 3, 1, first⟩)
  have two := one.next (.inl ⟨8193, 4, 0, rfl⟩)
  obtain ⟨s', moved, maps⟩ := (mapMsiVector_maps_iff two (show Msi 8192 by decide) 3 2).1.2
    (.inr (.inr ⟨by decide, rfl⟩))
  exact ⟨_, s', two, rfl, rfl, moved, maps⟩

/-- A vector is mapped, unmapped and mapped again to the same CPU: nothing is sent. -/
theorem remap_lost : ∃ s s' : State, s.Reached ∧ s.mapMsiVector 8192 3 1 = some s' ∧
    s'.its (3, eventOf 8192) = none := by
  have mapped : boot.mapMsiVector 8192 3 1 = some _ := rfl
  have once : Reached _ := .next (.start rfl) (.inl ⟨8192, 3, 1, mapped⟩)
  exact ⟨_, _, once.next (.inr ⟨8192, 3, rfl⟩), rfl, rfl⟩

end MiniOsv.Arch.ItsMap
