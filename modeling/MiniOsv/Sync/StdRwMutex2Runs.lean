/-
# Sync.StdRwMutex2Runs -- exclusion and no lost wake-up of the read-write mutex

Every step of the lock is one of the moves of `StdRwMutex2Invariant`; the steps of
readers and writers are taken apart here, and what the invariant means for every run is
stated at the end.
-/
import MiniOsv.Sync.StdRwMutex2Invariant

namespace MiniOsv.Sync.StdRwMutex2

set_option linter.unusedSectionVars false

open Theory Function BitVec Option

variable {ι : Type} [DecidableEq ι] [Fintype ι]

section Steps

variable {addr : BitVec 64} {bias waiting odd : Bool} {s s' : State ι} {t : ι} {pc pc' : Pc}

/-- The parity bit of the phase. -/
theorem phase_or (phase : BitVec 16) : (phase ||| phaseWriting).getLsbD 0 = true := by
  simp [phaseWriting]

/-- The addition may wrap; it changes the parity all the same. -/
theorem phase_add (phase : BitVec 16) (odd : phase.getLsbD 0 = true) :
    (phase + 1).getLsbD 0 = false := by
  simp only [BitVec.getLsbD, Nat.testBit_zero, decide_eq_true_eq, decide_eq_false_iff_not,
    toNat_add, show (1 : BitVec 16).toNat = 1 from rfl] at odd ⊢
  omega

theorem phase_and (phase : BitVec 16) : phase &&& phaseWriting ≠ 0 ↔ phase.getLsbD 0 = true := by
  have value : (phase &&& phaseWriting).toNat = phase.toNat % 2 := by
    rw [toNat_and]
    exact Nat.and_one_is_mod _
  rw [ne_eq, ← toNat_inj, value, BitVec.getLsbD, Nat.testBit_zero, decide_eq_true_eq]
  simp

/-- The compare exchange of the bias loop. -/
theorem biased_pack {count : ℕ} (fits : count < 2 ^ 30) :
    biased (pack false false count) = pack true (decide (count ≠ 0)) count := by
  have zero : pack false false count &&& readerMask = 0 ↔ count = 0 :=
    and_readerMask_eq fits (by decide)
  rw [biased]
  by_cases none : count = 0
  · rw [if_neg (by simpa using zero.2 none), or_writerBias fits]
    simp [none]
  · rw [if_pos (mt zero.1 none), or_writerBias fits, or_writerWaiting fits]
    simp [none]

section

variable (inv : InvAt addr bias waiting odd s)

include inv

theorem InvAt.setOwner (here : s.pcs t = pc)
    (owner : pc.owner = true ∧ pc.parked = false ∧ pc ≠ .wakeReaders)
    (owner' : pc'.owner = true ∧ pc'.parked = false) (place : pc'.Local bias waiting odd)
    (quiet : pc'.quiet = true → pc.quiet = true ∨ tally Pc.reads s.pcs = 0) :
    InvAt addr bias waiting odd (s.setPc t pc') := by
  refine inv.ownerStep here rfl (inv.queued.move (by rw [here]; exact owner.2.1) owner'.2) rfl
    ⟨owner.1, owner.2.2⟩ owner'.1 inv.readers inv.waits inv.phase place quiet (fun parks => ?_)
    (.inl rfl)
  rw [parks] at owner'
  cases owner'.2

/-- A load of `readers_state` in the last loop of `wlock`. -/
theorem InvAt.drainLoad (few : Fintype.card ι < 2 ^ 30)
    (here : s.pcs t = pc) (owner : pc.owner = true ∧ pc.parked = false ∧ pc ≠ .wakeReaders)
    (flags : bias = true ∧ odd = true) :
    InvAt addr bias waiting odd (s.setPc t (.drain s.readersState)) := by
  have fits := reads_lt few s.pcs
  refine inv.setOwner here owner ⟨rfl, rfl⟩ ⟨flags.1, flags.2, fun waits => ?_⟩ fun quiet => .inr ?_
  · rw [inv.readers, ne_eq, and_writerWaiting fits] at waits
    simpa using waits
  · rw [Pc.quiet, beq_iff_eq, inv.readers] at quiet
    exact (and_readerMask_eq fits (by decide)).1 quiet

theorem InvAt.goReader (few : Fintype.card ι < 2 ^ 30)
    {spurious : Bool} (taken : s.go addr t spurious = some s')
    (outside : (s.pcs t).outside = true) : Inv addr s' := by
  have fits := reads_lt few s.pcs
  refine ⟨bias, waiting, odd, ?_⟩
  rw [State.go] at taken
  cases here : s.pcs t <;> simp only [here] at taken
  case idle | parkedReader =>
    cases taken
  case enter =>
    cases taken
    have share : ∀ pc' : Pc, pc'.reads = 1 →
        s.readersState + 1 = pack bias waiting (tally Pc.reads (update s.pcs t pc')) := by
      intro pc' one
      have := tally_update Pc.reads s.pcs t pc'
      rw [here, one, show Pc.enter.reads = 0 from rfl, Nat.add_zero] at this
      rw [this, ← pack_add_one, inv.readers]
    have grows : ∀ pc' : Pc, pc'.reads = 1 →
        tally Pc.reads (update s.pcs t pc') ≠ 0 := by
      intro pc' one zero
      have := le_tally Pc.reads (update s.pcs t pc') t
      rw [update_self, one] at this
      omega
    have awake : (s.pcs t).parked = false := by rw [here]; rfl
    split
    next free =>
      rw [inv.readers, and_writerBias fits] at free
      exact inv.outsider here rfl (inv.queued.move awake rfl) rfl rfl rfl rfl
        nofun (share _ rfl) trivial (fun _ => free)
        nofun fun _ zero => absurd zero (grows _ rfl)
    · exact inv.outsider here rfl (inv.queued.move awake rfl) rfl rfl rfl rfl
        nofun (share _ rfl) trivial nofun
        nofun fun _ zero => absurd zero (grows _ rfl)
  case backOut =>
    cases taken
    exact inv.subtract few here rfl true ⟨rfl, rfl, rfl⟩ trivial
  case wakeWriter retry =>
    cases taken
    cases retry <;> exact inv.wakeWriter here ⟨rfl, rfl, rfl⟩ trivial
  case loadPhase =>
    cases taken
    split
    next writing =>
      exact inv.setPc here ⟨rfl, rfl, rfl, by simp⟩ ⟨rfl, rfl, rfl⟩ ((phase_and _).1 writing)
    · exact inv.setPc here ⟨rfl, rfl, rfl, by simp⟩ ⟨rfl, rfl, rfl⟩ trivial
  case waitPhase phase =>
    split at taken <;> cases taken
    next unchanged =>
      have share := tally_reads here (show Pc.parkedReader.reads = (Pc.waitPhase phase).reads from rfl)
      have wasOdd : phase.getLsbD 0 = true := by
        have place := inv.places t
        rwa [here] at place
      have isOdd : odd = true := by rw [← inv.phase, unchanged, wasOdd]
      exact inv.outsider here rfl
        (inv.queued.park (by rw [here]; rfl) (.inl ⟨rfl, rfl⟩)) rfl rfl rfl rfl
        nofun (share.symm ▸ inv.readers) trivial
        nofun (fun _ => isOdd) fun _ zero => .inl (share ▸ zero)
    · exact inv.setPc here ⟨rfl, rfl, rfl, by simp⟩ ⟨rfl, rfl, rfl⟩ trivial
  case reader =>
    cases taken
    exact inv.subtract few here rfl false ⟨rfl, rfl, rfl⟩ trivial
  case acquiring | setPhase | loadReaders | setBias | reload | drain | parkedWriter | writer
    | endPhase | wakeReaders | releasing =>
    rw [here] at outside
    cases outside

theorem InvAt.goWriter (few : Fintype.card ι < 2 ^ 30)
    {spurious : Bool} (taken : s.go addr t spurious = some s')
    (inside : (s.pcs t).outside = false) : Inv addr s' := by
  have fits := reads_lt few s.pcs
  have place := inv.places t
  rw [State.go] at taken
  cases here : s.pcs t <;> simp only [here] at taken
  case idle | enter | backOut | wakeWriter | loadPhase | waitPhase | parkedReader | reader =>
    rw [here] at inside
    cases inside
  case parkedWriter =>
    cases taken
  case acquiring =>
    obtain ⟨mutex, inner, rest⟩ := bind_eq_some_iff.1 taken
    cases rest
    have locking : s.mutex.pcs t ≠ .held ∧ s.mutex.pcs t ≠ .wake := by
      have coupled := inv.coupled t
      rwa [here] at coupled
    refine ⟨bias, waiting, odd, ?_⟩
    split
    next held =>
      refine inv.inner inner here (.inl rfl) ⟨rfl, rfl, rfl⟩ held (inv.ownerless fun u => ?_)
      by_cases same : u = t
      · rw [same, here]
        rfl
      · by_contra owner
        have heldU := inv.held (Bool.not_eq_false _ ▸ owner)
        have heldU' : mutex.pcs u = .held := by
          rcases StdMutex.step_others inner inv.mutex same with keeps | ⟨parked, -⟩
          · rw [keeps, heldU]
          · rw [heldU] at parked
            cases parked
        exact same ((inv.mutex.step inner).unique u t heldU' held)
    next notHeld =>
      exact inv.inner inner here (.inl rfl) ⟨rfl, rfl, rfl⟩
        ⟨notHeld, (StdMutex.step_lock inner locking).1⟩ trivial
  case setPhase =>
    cases taken
    rw [here] at place
    refine ⟨bias, waiting, true, inv.ownerStep here rfl
      (inv.queued.move (by rw [here]; rfl) rfl) rfl ⟨rfl, by simp⟩ rfl inv.readers inv.waits
      (phase_or _) ⟨place.1, rfl⟩ nofun nofun
      (.inr (.inr rfl))⟩
  case loadReaders =>
    cases taken
    rw [here] at place
    exact ⟨bias, waiting, odd, inv.setOwner here ⟨rfl, rfl, by simp⟩ ⟨rfl, rfl⟩ place
      nofun⟩
  case setBias expected =>
    rw [here] at place
    split at taken <;> cases taken
    next equal =>
      have noWaiting : waiting = false := by
        by_contra waits
        rw [Bool.not_eq_false] at waits
        have := inv.waits waits
        rw [place.1] at this
        cases this
      refine ⟨true, decide (tally Pc.reads s.pcs ≠ 0), odd, inv.ownerStep here rfl
        (inv.queued.move (by rw [here]; rfl) rfl) rfl ⟨rfl, by simp⟩ rfl ?_ (fun _ => rfl)
        inv.phase ⟨rfl, place.2⟩ nofun nofun
        (.inl rfl)⟩
      change biased expected = _
      rw [← equal.1, inv.readers, place.1, noWaiting, biased_pack fits]
    · exact ⟨bias, waiting, odd, inv.setOwner here ⟨rfl, rfl, by simp⟩ ⟨rfl, rfl⟩ place
        nofun⟩
  case reload =>
    cases taken
    rw [here] at place
    exact ⟨bias, waiting, odd, inv.drainLoad few here ⟨rfl, rfl, by simp⟩ place⟩
  case drain expected =>
    rw [here] at place
    obtain ⟨isBias, isOdd, waits⟩ := place
    split at taken
    next zero =>
      cases taken
      exact ⟨bias, waiting, odd, inv.setOwner here ⟨rfl, rfl, by simp⟩ ⟨rfl, rfl⟩
        ⟨isBias, isOdd⟩ fun _ => .inl (beq_iff_eq.2 zero)⟩
    next busy =>
      have some : ∀ equal : s.readersState = expected, tally Pc.reads s.pcs ≠ 0 := by
        intro equal none
        rw [← equal, inv.readers] at busy
        exact busy ((and_readerMask_eq fits (by decide)).2 none)
      split at taken
      · split at taken <;> cases taken
        next equal =>
          refine ⟨true, true, odd, inv.ownerStep here rfl
            (inv.queued.move (by rw [here]; rfl) rfl) rfl ⟨rfl, by simp⟩ rfl ?_ (fun _ => rfl)
            inv.phase ⟨rfl, isOdd, fun _ => rfl⟩ (fun quiet => ?_) nofun
            (.inl rfl)⟩
          · change expected ||| writerWaiting = _
            rw [← equal.1, inv.readers, isBias, or_writerWaiting fits]
          · rw [Pc.quiet, beq_iff_eq, ← equal.1, inv.readers, or_writerWaiting fits] at quiet
            exact .inr ((and_readerMask_eq fits (by decide)).1 quiet)
        · exact ⟨bias, waiting, odd, inv.drainLoad few here ⟨rfl, rfl, by simp⟩ ⟨isBias, isOdd⟩⟩
      next hasWaiting =>
        split at taken <;> cases taken
        next equal =>
          exact ⟨bias, waiting, odd, inv.ownerStep here rfl
            (inv.queued.park (by rw [here]; rfl) (.inr ⟨rfl, rfl⟩)) rfl ⟨rfl, by simp⟩ rfl
            inv.readers inv.waits inv.phase ⟨isBias, isOdd, waits hasWaiting⟩
            nofun (fun _ => some equal) (.inl rfl)⟩
        · exact ⟨bias, waiting, odd, inv.setOwner here ⟨rfl, rfl, by simp⟩ ⟨rfl, rfl⟩
            ⟨isBias, isOdd⟩ nofun⟩
  case writer =>
    cases taken
    rw [here] at place
    refine ⟨false, false, odd, inv.ownerStep here rfl (inv.queued.move (by rw [here]; rfl) rfl)
      rfl ⟨rfl, by simp⟩ rfl ?_ (fun impossible => impossible) inv.phase ⟨rfl, place.2⟩
      nofun nofun (.inl rfl)⟩
    change s.readersState &&& ~~~(writerBias ||| writerWaiting) = _
    rw [inv.readers, and_not_flags fits]
  case endPhase =>
    cases taken
    rw [here] at place
    refine ⟨bias, waiting, false, inv.ownerStep here rfl
      (inv.queued.move (by rw [here]; rfl) rfl) rfl ⟨rfl, by simp⟩ rfl inv.readers inv.waits
      (phase_add _ (inv.phase.trans place.2)) ⟨place.1, rfl⟩ nofun
      nofun (.inr (.inl rfl))⟩
  case wakeReaders =>
    cases taken
    exact ⟨bias, waiting, odd, inv.wakeReaders few here⟩
  case releasing =>
    obtain ⟨mutex, inner, rest⟩ := bind_eq_some_iff.1 taken
    cases rest
    have unlocking : s.mutex.pcs t = .held ∨ s.mutex.pcs t = .wake := by
      have coupled := inv.coupled t
      rwa [here] at coupled
    refine ⟨bias, waiting, odd, ?_⟩
    split
    next done =>
      exact inv.inner inner here (.inr rfl) ⟨rfl, rfl, rfl⟩ done trivial
    next more =>
      exact inv.inner inner here (.inr rfl) ⟨rfl, rfl, rfl⟩
        (.inr ((StdMutex.step_unlock inner inv.mutex unlocking).resolve_right more)) trivial

end

/-- **Every step keeps the invariant.** -/
theorem Inv.step (inv : Inv addr s) (few : Fintype.card ι < 2 ^ 30) {event : Event ι}
    (taken : s.step addr event = some s') : Inv addr s' := by
  obtain ⟨bias, waiting, odd, inv⟩ := inv
  cases event with rw [State.step] at taken
  | rlock t =>
    split at taken <;> cases taken
    rename_i here
    exact ⟨bias, waiting, odd, inv.setPc here ⟨rfl, rfl, rfl, by simp⟩ ⟨rfl, rfl, rfl⟩ trivial⟩
  | wlock t =>
    split at taken <;> cases taken
    rename_i here
    exact ⟨bias, waiting, odd, inv.enterMutex here⟩
  | go t spurious =>
    cases outside : (s.pcs t).outside with
    | true => exact inv.goReader few taken outside
    | false => exact inv.goWriter few taken outside

theorem Boot.inv (boot : Boot s) : Inv addr s := by
  obtain ⟨mutex, readers, phase, queue, idle⟩ := boot
  have none : tally Pc.reads s.pcs = 0 := tally_eq_zero.2 fun t => by rw [idle t]; rfl
  refine ⟨false, false, false, mutex.inv, fun t => ?_, ?_, fun waits => waits, ?_, fun t => ?_,
    fun _ => ⟨rfl, rfl⟩, fun t u quiet => ?_, fun t parked => ?_, fun t parked => ?_, ?_, ?_, ?_⟩
  · rw [idle t]
    exact mutex.2.2 t
  · rw [readers, none]
    rfl
  · rw [← Bool.not_eq_true, ← phase_and]
    exact not_not.2 phase
  · rw [idle t]
    trivial
  · rw [idle t] at quiet
    cases quiet
  · rw [idle t] at parked
    cases parked
  · rw [idle t] at parked
    cases parked
  · simp [queue]
  · simp [queue, FutexQueue.threads]
  · intro t parked
    rw [idle t] at parked
    cases parked

theorem Runs.inv (few : Fintype.card ι < 2 ^ 30) (reached : Runs addr s) : Inv addr s :=
  reached.invariant (I := Inv addr) (fun _ boot => boot.inv) fun _ _ _ inv ⟨_, taken⟩ =>
    inv.step few taken

end Steps

/-- A writer between setting the phase bit and returning from `wlock`, or holding the
lock. -/
def Pc.active : Pc → Bool
  | .loadReaders | .setBias _ | .reload | .drain _ | .parkedWriter | .writer => true
  | _ => false

/-- While the phase is odd the owner is active or about to end the phase. -/
theorem Pc.Local.active {bias waiting odd : Bool} {pc : Pc} (place : pc.Local bias waiting odd)
    (isOdd : odd = true) (owner : pc.owner = true) :
    pc.active = true ∨ pc = .endPhase ∨ pc = .wakeReaders := by
  cases pc <;> first
    | (cases owner; done)
    | exact .inl rfl
    | exact .inr (.inl rfl)
    | exact .inr (.inr rfl)
    | exact absurd isOdd (by rw [place.2]; decide)

/-- **`StdRwMutex2`.**  With fewer than `2^30` threads, in every state that any
interleaving of `rlock`, `runlock`, `wlock` and `wunlock` leads to: a writer excludes
readers and other writers; if the writer that owns the inner mutex is parked, the reader
count is not zero or a thread that took it from 1 to 0 has its wake still to do; and if a
reader is parked, a writer is active or a `wunlock` has its `wake_all` still to do. -/
theorem exclusive_and_wakes_pending (few : Fintype.card ι < 2 ^ 30) (addr : BitVec 64)
    (s : State ι) (reached : Runs addr s) :
    (∀ t u, s.pcs t = .writer → s.pcs u ≠ .reader) ∧
    (∀ t u, s.pcs t = .writer → s.pcs u = .writer → t = u) ∧
    (∀ t, t ∈ s.queue.threads ↔ s.pcs t = .parkedWriter ∨ s.pcs t = .parkedReader) ∧
    (∀ t, s.pcs t = .parkedWriter → s.mutex.pcs t = .held ∧
      (s.readersState &&& readerMask ≠ 0 ∨ ∃ u retry, s.pcs u = .wakeWriter retry)) ∧
    (∀ t, s.pcs t = .parkedReader →
      ∃ u, (s.pcs u).active = true ∨ s.pcs u = .endPhase ∨ s.pcs u = .wakeReaders) := by
  obtain ⟨bias, waiting, odd, inv⟩ := reached.inv few
  have fits := reads_lt few s.pcs
  refine ⟨fun t u writer => inv.quiet t u (by rw [writer]; rfl), fun t u first second => ?_,
    fun t => ⟨fun mem => ?_, fun parked => ?_⟩, fun t parked => ?_, fun t parked => ?_⟩
  · exact inv.mutex.unique t u (inv.held (by rw [first]; rfl)) (inv.held (by rw [second]; rfl))
  · have parked := inv.queued.parked_of_mem mem
    revert parked
    cases s.pcs t <;> simp [Pc.parked]
  · refine inv.queued.parked t ?_
    rcases parked with parked | parked <;> rw [parked] <;> rfl
  · refine ⟨inv.held (by rw [parked]; rfl), (inv.parkedWriter t parked).imp_left fun some => ?_⟩
    rw [inv.readers]
    exact mt (and_readerMask_eq fits (by decide)).1 some
  · rcases inv.parkedReader t parked with isOdd | ⟨u, wakes⟩
    · by_contra nobody
      have noOwner : ∀ u, (s.pcs u).owner = false := fun u => by
        by_contra owner
        rw [Bool.not_eq_false] at owner
        exact nobody ⟨u, (inv.places u).active isOdd owner⟩
      rw [(inv.ownerless noOwner).2] at isOdd
      cases isOdd
    · exact ⟨u, .inr (.inr wakes)⟩

/-- **The reader word is exact.**  It counts the readers, a writer waits only under its bias, and
when nobody owns the inner mutex there is no bias and the phase is even. -/
theorem readersState_exact (few : Fintype.card ι < 2 ^ 30) (addr : BitVec 64) (s : State ι)
    (reached : Runs addr s) :
    ∃ bias waiting, s.readersState = pack bias waiting (tally Pc.reads s.pcs) ∧
      (waiting = true → bias = true) ∧
      ((∀ t, (s.pcs t).owner = false) → bias = false ∧ s.writerPhase.getLsbD 0 = false) := by
  obtain ⟨bias, waiting, odd, inv⟩ := reached.inv few
  exact ⟨bias, waiting, inv.readers, inv.waits, inv.phase ▸ inv.ownerless⟩

def unused : State Bool := ⟨⟨0, [], fun _ => .idle⟩, 0, 0, [], fun _ => .idle⟩

/-- One thread reads; the other takes the inner mutex, sets phase and bias and parks. -/
def readerAndParkedWriter : Option (State Bool) :=
  [.rlock false, .go false false, .wlock true, .go true false, .go true false, .go true false,
    .go true false, .go true false, .go true false, .go true false].foldlM (State.step 7) unused

theorem readerAndParkedWriter_runs {s : State Bool} (run : readerAndParkedWriter = some s) :
    Runs 7 s :=
  Reachable.events (.start ⟨⟨rfl, rfl, fun _ => rfl⟩, rfl, rfl, rfl, fun _ => rfl⟩) run

theorem readerAndParkedWriter_not_lost :
    ∃ s, readerAndParkedWriter = some s ∧ s.pcs true = .parkedWriter ∧ s.pcs false = .reader ∧
      s.mutex.pcs true = .held ∧
      (s.readersState &&& readerMask ≠ 0 ∨ ∃ u retry, s.pcs u = .wakeWriter retry) := by
  refine ⟨_, rfl, rfl, rfl, ?_⟩
  exact (exclusive_and_wakes_pending (by decide) 7 _ (readerAndParkedWriter_runs rfl)).2.2.2.1
    true rfl

theorem readerAndParkedWriter_exact : ∃ s, readerAndParkedWriter = some s ∧
    tally Pc.reads s.pcs = 1 ∧ s.writerPhase = phaseWriting ∧
    ∃ bias waiting, s.readersState = pack bias waiting (tally Pc.reads s.pcs) ∧
      bias = true ∧ waiting = true := by
  obtain ⟨bias, waiting, word, waits, -⟩ :=
    readersState_exact (by decide) 7 _ (readerAndParkedWriter_runs rfl)
  have parked : waiting = true := by
    cases waiting
    · exact absurd word (by cases bias <;> decide)
    · rfl
  exact ⟨_, rfl, by decide, rfl, bias, waiting, word, waits parked, parked⟩

end MiniOsv.Sync.StdRwMutex2
