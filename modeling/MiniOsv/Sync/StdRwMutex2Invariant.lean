/-
# Sync.StdRwMutex2Invariant -- what every step of the read-write mutex keeps

The invariant reads the state of the lock from four things: the bias bit, the waiting
bit, whether the phase is odd, and how many threads have added themselves to the count
(`InvAt`).  At most one thread owns the inner mutex, and which of the three flags are set
follows from where that thread is (`Pc.Local`); everybody else leaves them alone.  So a
step either is one of a thread outside, which moves the count at most, or one of the
owner, which nobody else's place depends on.
-/
import MiniOsv.Sync.StdRwMutex2

namespace MiniOsv.Sync.StdRwMutex2

set_option linter.unusedSectionVars false

open Theory List Pc FutexQueue
open Function (update update_self update_of_ne)

/-- The thread owns the inner mutex and has not begun to release it. -/
def Pc.owner : Pc → Bool
  | .setPhase | .loadReaders | .setBias _ | .reload | .drain _ | .parkedWriter | .writer
  | .endPhase | .wakeReaders => true
  | _ => false

def Pc.outside : Pc → Bool
  | .idle | .enter | .backOut | .wakeWriter _ | .loadPhase | .waitPhase _ | .parkedReader
  | .reader => true
  | _ => false

/-- Its share of the count in `readers_state`. -/
def Pc.reads : Pc → ℕ
  | .backOut | .reader => 1
  | _ => 0

/-- A writer that has seen the count at zero: no reader holds the lock from there on. -/
def Pc.quiet : Pc → Bool
  | .writer => true
  | .drain expected => expected &&& readerMask == 0
  | _ => false

def Pc.parked : Pc → Bool
  | .parkedReader | .parkedWriter => true
  | _ => false

/-- Where a thread is in the inner mutex. -/
def Coupled (pc : Pc) (inner : StdMutex.Pc) : Prop :=
  if pc.owner then inner = .held
  else if pc.outside then inner = .idle
  else if pc = .acquiring then inner ≠ .held ∧ inner ≠ .wake
  else inner = .held ∨ inner = .wake

/-- What the place of a thread says about the flags. -/
def Pc.Local (bias waiting odd : Bool) : Pc → Prop
  | .setPhase | .wakeReaders => bias = false ∧ odd = false
  | .loadReaders | .setBias _ | .endPhase => bias = false ∧ odd = true
  | .reload | .writer => bias = true ∧ odd = true
  | .drain expected =>
    bias = true ∧ odd = true ∧ (expected &&& writerWaiting ≠ 0 → waiting = true)
  | .parkedWriter => bias = true ∧ odd = true ∧ waiting = true
  | .waitPhase phase => phase.getLsbD 0 = true
  | _ => True

variable {ι : Type} [DecidableEq ι] [Fintype ι]

/-- The second queue holds exactly the parked threads, each under the label of its kind. -/
structure Queued (addr : BitVec 64) (queue : FutexQueue ι) (pcs : ι → Pc) : Prop where
  labels : ∀ w ∈ queue, w.label = ⟨addr, maskReader⟩ ∧ pcs w.thread = .parkedReader ∨
    w.label = ⟨addr, maskParkedWriter⟩ ∧ pcs w.thread = .parkedWriter
  nodup : queue.threads.Nodup
  parked : ∀ t, (pcs t).parked = true → t ∈ queue.threads

structure InvAt (addr : BitVec 64) (bias waiting odd : Bool) (s : State ι) : Prop where
  mutex : StdMutex.Inv addr s.mutex
  coupled : ∀ t, Coupled (s.pcs t) (s.mutex.pcs t)
  readers : s.readersState = pack bias waiting (tally reads s.pcs)
  waits : waiting = true → bias = true
  phase : s.writerPhase.getLsbD 0 = odd
  places : ∀ t, (s.pcs t).Local bias waiting odd
  ownerless : (∀ t, (s.pcs t).owner = false) → bias = false ∧ odd = false
  quiet : ∀ t u, (s.pcs t).quiet = true → s.pcs u ≠ .reader
  parkedWriter : ∀ t, s.pcs t = .parkedWriter →
    tally reads s.pcs ≠ 0 ∨ ∃ u retry, s.pcs u = .wakeWriter retry
  parkedReader : ∀ t, s.pcs t = .parkedReader → odd = true ∨ ∃ u, s.pcs u = .wakeReaders
  queued : Queued addr s.queue s.pcs

def Inv (addr : BitVec 64) (s : State ι) : Prop :=
  ∃ bias waiting odd, InvAt addr bias waiting odd s

section Facts

variable {addr : BitVec 64} {bias waiting odd bias' waiting' odd' : Bool} {s : State ι} {t u : ι}
  {pc pc' : Pc}

/-- The flags concern the owner only. -/
theorem Pc.Local.of_not_owner (notOwner : pc.owner = false) (place : pc.Local bias waiting odd) :
    pc.Local bias' waiting' odd' := by
  cases pc <;> first | exact place | cases notOwner

theorem Pc.Local.bias_of_quiet (place : pc.Local bias waiting odd) (quiet : pc.quiet = true) :
    bias = true := by
  cases pc <;> first | exact place.1 | cases quiet

/-- A thread outside the inner mutex plays none of the owner's parts. -/
theorem Pc.calm_of_outside (outside : pc.outside = true) :
    pc.owner = false ∧ pc.quiet = false ∧ pc ≠ .wakeReaders ∧ pc ≠ .parkedWriter := by
  cases pc <;> first | exact ⟨rfl, rfl, by simp⟩ | cases outside

theorem Pc.noReader_of_owner (owner : pc.owner = true) :
    pc.reads = 0 ∧ pc ≠ .reader ∧ pc ≠ .parkedReader := by
  cases pc <;> first | (cases owner; done) | exact ⟨rfl, by simp⟩

section

variable (inv : InvAt addr bias waiting odd s)

include inv

theorem InvAt.held (owner : (s.pcs t).owner = true) : s.mutex.pcs t = .held := by
  have coupled := inv.coupled t
  rwa [Coupled, if_pos owner] at coupled

theorem InvAt.others (held : s.mutex.pcs t = .held) (ne : u ≠ t) : (s.pcs u).owner = false := by
  by_contra owner
  exact ne (inv.mutex.unique u t (inv.held (Bool.not_eq_false _ ▸ owner)) held)

theorem InvAt.inner_idle (outside : (s.pcs t).outside = true) : s.mutex.pcs t = .idle := by
  have coupled := inv.coupled t
  have notOwner : (s.pcs t).owner = false := by
    revert outside
    cases s.pcs t <;> first | exact fun _ => rfl | exact nofun
  rwa [Coupled, if_neg (by simp [notOwner]), if_pos outside] at coupled

end

theorem reads_lt (few : Fintype.card ι < 2 ^ 30) (pcs : ι → Pc) : tally reads pcs < 2 ^ 30 := by
  have one : ∀ i, (pcs i).reads ≤ 1 := fun i => by cases pcs i <;> simp [reads]
  rw [tally_eq_card one]
  exact Nat.lt_of_le_of_lt (Finset.card_le_univ _) few

/-- A thread that reads after its step if it did before. -/
theorem tally_reads {pcs : ι → Pc} (here : pcs t = pc) (same : pc'.reads = pc.reads) :
    tally reads (update pcs t pc') = tally reads pcs := by
  have change := tally_update reads pcs t pc'
  rw [here] at change
  omega

/-- A thread at a place to which `t` did not go was there before. -/
theorem of_update_eq {pcs : ι → Pc} (other : pc' ≠ pc) (found : update pcs t pc' u = pc) :
    u ≠ t ∧ pcs u = pc := by
  have ne : u ≠ t := fun same => other (by rw [← found, same, update_self])
  rw [update_of_ne ne] at found
  exact ⟨ne, found⟩

theorem Pc.ne_of_silent (parked : pc.parked = false) (reads : pc.reads = 0) :
    pc ≠ .reader ∧ pc ≠ .parkedReader ∧ pc ≠ .parkedWriter := by
  refine ⟨?_, ?_, ?_⟩ <;> rintro rfl <;> first | (cases parked; done) | cases reads

/-! ### The queue -/

section Queue

variable {queue : FutexQueue ι} {pcs : ι → Pc}

section

variable (queued : Queued addr queue pcs)

include queued

theorem Queued.parked_of_mem (mem : t ∈ queue.threads) : (pcs t).parked = true := by
  obtain ⟨w, inQueue, rfl⟩ := mem_map.1 mem
  rcases queued.labels w inQueue with ⟨-, parked⟩ | ⟨-, parked⟩ <;> rw [parked] <;> rfl

section

variable (awake : (pcs t).parked = false)

include awake

theorem Queued.not_mem :
    t ∉ queue.threads := fun mem => by
  rw [queued.parked_of_mem mem] at awake
  cases awake

theorem Queued.not_woken (mask : BitVec 32) (count : ℕ) : t ∉ queue.woken addr mask count :=
  fun woken => queued.not_mem awake (mem_threads_of_mem_woken woken)

/-- A thread that is awake before and after its step. -/
theorem Queued.move (awake' : pc'.parked = false) : Queued addr queue (update pcs t pc') := by
  have notQueued := queued.not_mem awake
  refine ⟨fun w mem => ?_, queued.nodup, fun u parked => ?_⟩
  · have ne : w.thread ≠ t := fun same => notQueued (mem_map.2 ⟨w, mem, same⟩)
    rw [update_of_ne ne]
    exact queued.labels w mem
  · have ne : u ≠ t := fun same => by
      rw [same, update_self, awake'] at parked
      cases parked
    rw [update_of_ne ne] at parked
    exact queued.parked u parked

theorem Queued.park {mask : BitVec 32}
    (kind : mask = maskReader ∧ pc' = .parkedReader ∨
      mask = maskParkedWriter ∧ pc' = .parkedWriter) :
    Queued addr (queue ++ [⟨t, addr, mask⟩]) (update pcs t pc') := by
  have notQueued := queued.not_mem awake
  refine ⟨fun w mem => ?_, ?_, fun u parked => ?_⟩
  · rcases mem_append.1 mem with mem | last
    · have ne : w.thread ≠ t := fun same => notQueued (mem_map.2 ⟨w, mem, same⟩)
      rw [update_of_ne ne]
      exact queued.labels w mem
    · rw [mem_singleton.1 last, update_self]
      rcases kind with ⟨rfl, rfl⟩ | ⟨rfl, rfl⟩
      · exact .inl ⟨rfl, rfl⟩
      · exact .inr ⟨rfl, rfl⟩
  · rw [threads_append]
    exact nodup_append.2 ⟨queued.nodup, nodup_singleton _, fun u mem v last => by
      rw [mem_singleton.1 last]
      exact ne_of_mem_of_not_mem mem notQueued⟩
  · rw [threads_append, mem_append, mem_singleton]
    by_cases same : u = t
    · exact .inr same
    · rw [update_of_ne same] at parked
      exact .inl (queued.parked u parked)

end

/-- A wake takes parked threads out and lets them go on. -/
theorem Queued.wake (mask : BitVec 32) (count : ℕ) :
    Queued addr (queue.left addr mask count) (resume pcs (queue.woken addr mask count)) := by
  refine ⟨fun w mem => ?_, queued.nodup.sublist (left_sublist.map _), fun u parked => ?_⟩
  · have stays : w.thread ∈ (queue.left addr mask count).threads := mem_map.2 ⟨w, mem, rfl⟩
    rw [resume, if_neg ((mem_left_threads queued.nodup).1 stays).2]
    exact queued.labels w (left_sublist.subset mem)
  · rw [mem_left_threads queued.nodup]
    rw [resume] at parked
    split at parked
    · revert parked
      cases pcs u <;> exact nofun
    next notWoken =>
      exact ⟨queued.parked u parked, notWoken⟩

/-- Waking one waiting writer: if there is a parked writer, one is taken out. -/
theorem Queued.writer_woken (parked : pcs t = .parkedWriter)
    (only : ∀ u, pcs u = .parkedWriter → u = t) : t ∈ queue.woken addr maskParkedWriter 1 := by
  have mem := queued.parked t (by rw [parked]; rfl)
  obtain ⟨w, inQueue, thread⟩ := mem_map.1 mem
  have nonempty : queue.woken addr maskParkedWriter 1 ≠ [] := fun nobody => by
    have miss := woken_eq_nil Nat.one_pos nobody w inQueue
    rcases queued.labels w inQueue with ⟨-, reader⟩ | ⟨label, -⟩
    · rw [thread, parked] at reader
      cases reader
    · rw [label] at miss
      simp [InlineFutex.Label.matching, maskParkedWriter] at miss
  obtain ⟨u, woken⟩ := exists_mem_of_ne_nil _ nonempty
  obtain ⟨v, taken, rfl⟩ := mem_map.1 woken
  obtain ⟨inQueue, hit⟩ := mem_filter.1 (mem_of_mem_take taken)
  rcases queued.labels v inQueue with ⟨label, -⟩ | ⟨-, writer⟩
  · rw [label] at hit
    simp [InlineFutex.Label.matching, maskParkedWriter, maskReader] at hit
  · rwa [only _ writer] at woken

/-- Waking all readers leaves no parked reader. -/
theorem Queued.readers_woken (few : Fintype.card ι < 2 ^ 30)
    (parked : pcs t = .parkedReader) : t ∈ queue.woken addr maskReader InlineFutex.unsignedMax := by
  by_contra notWoken
  have stays := (mem_left_threads queued.nodup).2
    ⟨queued.parked t (by rw [parked]; rfl), notWoken⟩
  obtain ⟨w, mem, thread⟩ := mem_map.1 stays
  have short : queue.length ≤ InlineFutex.unsignedMax := by
    have bound := queued.nodup.length_le_card
    rw [threads, length_map] at bound
    unfold InlineFutex.unsignedMax
    omega
  have miss := not_matching_left short w mem
  rcases queued.labels w (left_sublist.subset mem) with ⟨label, -⟩ | ⟨-, writer⟩
  · rw [label] at miss
    simp [InlineFutex.Label.matching, maskReader] at miss
  · rw [thread, parked] at writer
    cases writer

end

end Queue

/-! ### The steps -/

section

variable (inv : InvAt addr bias waiting odd s)

include inv

/-- **A step of `t`** takes the thread to `pc'` and the words to values with the flags
`bias'`, `waiting'` and `odd'`. -/
theorem InvAt.move {s' : State ι}
    (pcs : s'.pcs = update s.pcs t pc') (queued : Queued addr s'.queue s'.pcs)
    (mutex : StdMutex.Inv addr s'.mutex)
    (coupled : ∀ u ≠ t, Coupled (s.pcs u) (s'.mutex.pcs u))
    (coupledHere : Coupled pc' (s'.mutex.pcs t))
    (readers : s'.readersState = pack bias' waiting' (tally reads (update s.pcs t pc')))
    (waits : waiting' = true → bias' = true) (phase : s'.writerPhase.getLsbD 0 = odd')
    (places : ∀ u ≠ t, (s.pcs u).Local bias' waiting' odd') (place : pc'.Local bias' waiting' odd')
    (ownerless : pc'.owner = false → (∀ u ≠ t, (s.pcs u).owner = false) →
      bias' = false ∧ odd' = false)
    (quiet : pc'.quiet = true → ∀ u ≠ t, s.pcs u ≠ .reader)
    (entered : pc' = .reader → ∀ u ≠ t, (s.pcs u).quiet = false)
    (parkedWriter : ∀ u, update s.pcs t pc' u = .parkedWriter →
      tally reads (update s.pcs t pc') ≠ 0 ∨
        ∃ v retry, update s.pcs t pc' v = .wakeWriter retry)
    (parkedReader : ∀ u, update s.pcs t pc' u = .parkedReader →
      odd' = true ∨ ∃ v, update s.pcs t pc' v = .wakeReaders) :
    InvAt addr bias' waiting' odd' s' := by
  have here : s'.pcs t = pc' := by rw [pcs, update_self]
  have there : ∀ u ≠ t, s'.pcs u = s.pcs u := fun u ne => by rw [pcs, update_of_ne ne]
  refine ⟨mutex, fun u => ?_, pcs ▸ readers, waits, phase, fun u => ?_, fun none => ?_,
    fun u v => ?_, pcs ▸ parkedWriter, pcs ▸ parkedReader, queued⟩
  · by_cases ne : u = t
    · rw [ne, here]
      exact coupledHere
    · rw [there u ne]
      exact coupled u ne
  · by_cases ne : u = t
    · rw [ne, here]
      exact place
    · rw [there u ne]
      exact places u ne
  · exact ownerless (here ▸ none t) fun u ne => there u ne ▸ none u
  · intro quietU reader
    by_cases hereU : u = t <;> by_cases hereV : v = t
    · rw [hereU, ← hereV, reader] at quietU
      cases quietU
    · rw [hereU, here] at quietU
      exact quiet quietU v hereV (there v hereV ▸ reader)
    · rw [there u hereU, entered (here ▸ hereV ▸ reader) u hereU] at quietU
      cases quietU
    · exact inv.quiet u v (there u hereU ▸ quietU) (there v hereV ▸ reader)

/-- **A step of a thread outside the inner mutex** keeps the flags and changes the count
by the thread's own share. -/
theorem InvAt.outsider {s' : State ι} (here : s.pcs t = pc)
    (pcs : s'.pcs = update s.pcs t pc') (queued : Queued addr s'.queue s'.pcs)
    (mutex : s'.mutex = s.mutex) (phase : s'.writerPhase = s.writerPhase)
    (outside : pc.outside = true) (outside' : pc'.outside = true)
    (woke : ∀ retry, pc = .wakeWriter retry → ∀ u, s.pcs u ≠ .parkedWriter)
    (readers : s'.readersState = pack bias waiting (tally reads (update s.pcs t pc')))
    (place : pc'.Local bias waiting odd) (entered : pc' = .reader → bias = false)
    (parks : pc' = .parkedReader → odd = true)
    (drained : waiting = true → tally reads (update s.pcs t pc') = 0 →
      tally reads s.pcs = 0 ∨ ∃ retry, pc' = .wakeWriter retry) :
    InvAt addr bias waiting odd s' := by
  have calm := calm_of_outside outside
  have calm' := calm_of_outside outside'
  have idle : s.mutex.pcs t = .idle := inv.inner_idle (by rw [here]; exact outside)
  refine inv.move pcs queued (mutex ▸ inv.mutex) (fun u _ => mutex ▸ inv.coupled u) ?_ readers
    inv.waits (phase ▸ inv.phase) (fun u _ => inv.places u) place
    (fun _ others => inv.ownerless fun u => ?_)
    (fun quiet => absurd quiet (by simp [calm'.2.1])) (fun reader u _ => ?_)
    (fun u parked => ?_) fun u parked => ?_
  · rw [mutex, idle, Coupled, if_neg (by simp [calm'.1]), if_pos outside']
  · by_cases same : u = t
    · rw [same, here]
      exact calm.1
    · exact others u same
  · by_contra quiet
    rw [Bool.not_eq_false] at quiet
    have := (inv.places u).bias_of_quiet quiet
    rw [entered reader] at this
    cases this
  · obtain ⟨-, parked⟩ := of_update_eq calm'.2.2.2 parked
    have waits : waiting = true := by
      have place := inv.places u
      rw [parked] at place
      exact place.2.2
    by_cases zero : tally reads (update s.pcs t pc') = 0
    · refine .inr ?_
      rcases drained waits zero with before | ⟨retry, last⟩
      · obtain ⟨v, retry, wakes⟩ := (inv.parkedWriter u parked).resolve_left (absurd before)
        have ne : v ≠ t := fun same => woke retry (by rw [← here, ← same, wakes]) u parked
        exact ⟨v, retry, by rw [update_of_ne ne, wakes]⟩
      · exact ⟨t, retry, by rw [update_self, last]⟩
    · exact .inl zero
  · by_cases same : u = t
    · rw [same, update_self] at parked
      exact .inl (parks parked)
    · rw [update_of_ne same] at parked
      refine (inv.parkedReader u parked).imp_right ?_
      rintro ⟨v, wakes⟩
      have ne : v ≠ t := fun same => calm.2.2.1 (by rw [← here, ← same, wakes])
      exact ⟨v, by rw [update_of_ne ne, wakes]⟩

/-- **A step of the owner of the inner mutex** may change the flags: nobody else's place
depends on them. -/
theorem InvAt.ownerStep {s' : State ι} (here : s.pcs t = pc) (pcs : s'.pcs = update s.pcs t pc')
    (queued : Queued addr s'.queue s'.pcs) (mutex : s'.mutex = s.mutex)
    (owner : pc.owner = true ∧ pc ≠ .wakeReaders) (owner' : pc'.owner = true)
    (readers : s'.readersState = pack bias' waiting' (tally reads s.pcs))
    (waits : waiting' = true → bias' = true) (phase : s'.writerPhase.getLsbD 0 = odd')
    (place : pc'.Local bias' waiting' odd')
    (quiet : pc'.quiet = true → pc.quiet = true ∨ tally reads s.pcs = 0)
    (parks : pc' = .parkedWriter → tally reads s.pcs ≠ 0)
    (ends : odd' = odd ∨ pc' = .wakeReaders ∨ odd' = true) : InvAt addr bias' waiting' odd' s' := by
  have held : s.mutex.pcs t = .held := inv.held (by rw [here]; exact owner.1)
  have noShare := noReader_of_owner owner.1
  have noShare' := noReader_of_owner owner'
  have share := tally_reads here (noShare'.1.trans noShare.1.symm)
  refine inv.move pcs queued (mutex ▸ inv.mutex) (fun u _ => mutex ▸ inv.coupled u) ?_
    (share.symm ▸ readers) waits phase
    (fun u ne => (inv.places u).of_not_owner (inv.others held ne)) place
    (fun not => absurd owner' (by simp [not])) (fun quiet' u ne reader => ?_)
    (fun reader => absurd reader noShare'.2.1) (fun u parked => ?_) fun u parked => ?_
  · rw [mutex, held, Coupled, if_pos owner']
  · rcases quiet quiet' with before | none
    · exact inv.quiet t u (by rw [here]; exact before) reader
    · have := le_tally reads s.pcs u
      rw [reader, none] at this
      exact absurd this (by decide)
  · by_cases same : u = t
    · rw [same, update_self] at parked
      exact .inl (share.symm ▸ parks parked)
    · rw [update_of_ne same] at parked
      have notOwner := inv.others held same
      rw [parked] at notOwner
      cases notOwner
  · obtain ⟨-, parked⟩ := of_update_eq noShare'.2.2 parked
    rcases ends with same | last | on
    · rw [same]
      refine .inl ((inv.parkedReader u parked).resolve_right ?_)
      rintro ⟨v, wakes⟩
      by_cases same : v = t
      · exact owner.2 (by rw [← here, ← same, wakes])
      · have notOwner := inv.others held same
        rw [wakes] at notOwner
        cases notOwner
    · exact .inr ⟨t, by rw [update_self, last]⟩
    · exact .inl on

end

/-- What waking a thread keeps. -/
theorem Pc.resumed_keeps (pc : Pc) : pc.resumed.owner = pc.owner ∧
    pc.resumed.outside = pc.outside ∧ pc.resumed.reads = pc.reads := by
  cases pc <;> exact ⟨rfl, rfl, rfl⟩

theorem Pc.Local.resumed (place : pc.Local bias waiting odd) :
    pc.resumed.Local bias waiting odd := by
  cases pc <;> first | exact place | exact ⟨place.1, place.2.1⟩

/-- A parked thread that is woken is at no special place. -/
theorem Pc.resumed_calm (parked : pc.parked = true) : pc.resumed.quiet = false ∧
    pc.resumed ≠ .reader ∧ pc.resumed ≠ .parkedWriter ∧ pc.resumed ≠ .parkedReader ∧
    pc.resumed ≠ .acquiring ∧ pc ≠ .acquiring ∧ pc ≠ .wakeReaders ∧
    ∀ retry, pc ≠ .wakeWriter retry := by
  cases pc <;> first | (cases parked; done) | exact ⟨rfl, by simp [resumed]⟩

section

variable (inv : InvAt addr bias waiting odd s)

include inv

/-- **The woken threads go on** while the waker still is before its wake. -/
theorem InvAt.resume (mask : BitVec 32) (count : ℕ) :
    InvAt addr bias waiting odd
      { s with queue := s.queue.left addr mask count
               pcs := StdRwMutex2.resume s.pcs (s.queue.woken addr mask count) } := by
  have each : ∀ u, StdRwMutex2.resume s.pcs (s.queue.woken addr mask count) u = s.pcs u ∨
      (s.pcs u).parked = true ∧
        StdRwMutex2.resume s.pcs (s.queue.woken addr mask count) u = (s.pcs u).resumed := by
    intro u
    by_cases woken : u ∈ s.queue.woken addr mask count
    · exact .inr ⟨inv.queued.parked_of_mem (mem_threads_of_mem_woken woken), if_pos woken⟩
    · exact .inl (if_neg woken)
  have queued := inv.queued.wake mask count
  revert queued
  generalize StdRwMutex2.resume s.pcs (s.queue.woken addr mask count) = pcs at each ⊢
  intro queued
  have keeps : ∀ u, (pcs u).owner = (s.pcs u).owner ∧ (pcs u).outside = (s.pcs u).outside ∧
      (pcs u).reads = (s.pcs u).reads := fun u => by
    rcases each u with same | ⟨-, woken⟩
    · rw [same]
      exact ⟨rfl, rfl, rfl⟩
    · rw [woken]
      exact resumed_keeps _
  have share : tally reads pcs = tally reads s.pcs :=
    Finset.sum_congr rfl fun u _ => (keeps u).2.2
  have awake : ∀ u, (s.pcs u).parked = false → pcs u = s.pcs u := fun u notParked => by
    rcases each u with same | ⟨parked, -⟩
    · exact same
    · rw [parked] at notParked
      cases notParked
  refine ⟨inv.mutex, fun u => ?_, share.symm ▸ inv.readers, inv.waits, inv.phase, fun u => ?_,
    fun none => inv.ownerless fun u => (keeps u).1 ▸ none u, fun u v quiet reader => ?_,
    fun u parked => ?_, fun u parked => ?_, queued⟩
  · change Coupled (pcs u) _
    have coupled := inv.coupled u
    rcases each u with same | ⟨parked, woken⟩
    · rwa [same]
    · have calm := resumed_calm parked
      rw [Coupled, if_neg calm.2.2.2.2.2.1] at coupled
      rw [woken, Coupled, (resumed_keeps _).1, (resumed_keeps _).2.1, if_neg calm.2.2.2.2.1]
      exact coupled
  · change (pcs u).Local _ _ _
    rcases each u with same | ⟨-, woken⟩
    · rw [same]
      exact inv.places u
    · rw [woken]
      exact (inv.places u).resumed
  · change (pcs u).quiet = true at quiet
    rcases each u with sameU | ⟨parked, woken⟩
    · rcases each v with sameV | ⟨parked, woken⟩
      · exact inv.quiet u v (sameU ▸ quiet) (sameV ▸ reader)
      · exact (resumed_calm parked).2.1 (woken ▸ reader)
    · rw [woken, (resumed_calm parked).1] at quiet
      cases quiet
  · change pcs u = .parkedWriter at parked
    rw [share]
    rcases each u with same | ⟨wasParked, woken⟩
    · refine (inv.parkedWriter u (same ▸ parked)).imp_right ?_
      rintro ⟨v, retry, wakes⟩
      exact ⟨v, retry, (awake v (by rw [wakes]; rfl)).trans wakes⟩
    · exact absurd (woken ▸ parked) (resumed_calm wasParked).2.2.1
  · change pcs u = .parkedReader at parked
    rcases each u with same | ⟨wasParked, woken⟩
    · refine (inv.parkedReader u (same ▸ parked)).imp_right ?_
      rintro ⟨v, wakes⟩
      exact ⟨v, (awake v (by rw [wakes]; rfl)).trans wakes⟩
    · exact absurd (woken ▸ parked) (resumed_calm wasParked).2.2.2.1

/-- A step of a thread outside that changes no word. -/
theorem InvAt.setPc (here : s.pcs t = pc)
    (outside : pc.outside = true ∧ pc.parked = false ∧ pc.reads = 0 ∧
      ∀ retry, pc ≠ .wakeWriter retry)
    (outside' : pc'.outside = true ∧ pc'.parked = false ∧ pc'.reads = 0)
    (place : pc'.Local bias waiting odd) : InvAt addr bias waiting odd (s.setPc t pc') := by
  have share := tally_reads here (outside'.2.2.trans outside.2.2.1.symm)
  have calm' := ne_of_silent outside'.2.1 outside'.2.2
  refine inv.outsider here rfl (inv.queued.move (by rw [here]; exact outside.2.1) outside'.2.1) rfl
    rfl outside.1 outside'.1 (fun retry wakes => absurd wakes (outside.2.2.2 retry))
    (share.symm ▸ inv.readers) place (absurd · calm'.1) (absurd · calm'.2.1)
    fun _ zero => .inl (share ▸ zero)

theorem InvAt.subtract (few : Fintype.card ι < 2 ^ 30) (here : s.pcs t = pc) (reads : pc.reads = 1)
    (retry : Bool) (outside' : pc'.outside = true ∧ pc'.parked = false ∧ pc'.reads = 0)
    (place : pc'.Local bias waiting odd) :
    InvAt addr bias waiting odd (s.subtract t retry pc') := by
  have fits := reads_lt few s.pcs
  have calm' := ne_of_silent outside'.2.1 outside'.2.2
  have outside : pc.outside = true ∧ pc.parked = false ∧ ∀ retry, pc ≠ .wakeWriter retry := by
    revert reads
    cases pc <;> intro reads <;> first | (cases reads; done) | exact ⟨rfl, rfl, by simp⟩
  -- the thread itself is one of those counted
  have share : ∀ pc'' : Pc, pc''.reads = 0 →
      tally Pc.reads s.pcs = tally Pc.reads (update s.pcs t pc'') + 1 := fun pc'' none => by
    have := tally_update Pc.reads s.pcs t pc''
    rw [here, reads, none] at this
    omega
  rw [State.subtract]
  split
  · have moved := share (.wakeWriter retry) rfl
    refine inv.outsider here rfl (inv.queued.move (by rw [here]; exact outside.2.1) rfl) rfl rfl
      outside.1 rfl (fun retry wakes => absurd wakes (outside.2.2 retry)) ?_ trivial
      nofun nofun fun _ _ => .inr ⟨retry, rfl⟩
    rw [inv.readers, moved, pack_sub_one]
  next stays =>
    have moved := share pc' outside'.2.2
    refine inv.outsider here rfl (inv.queued.move (by rw [here]; exact outside.2.1) outside'.2.1)
      rfl rfl outside.1 outside'.1 (fun retry wakes => absurd wakes (outside.2.2 retry)) ?_ place
      (absurd · calm'.1) (absurd · calm'.2.1) fun waits zero => ?_
    · change s.readersState - 1 = _
      rw [inv.readers, moved, pack_sub_one]
    · rw [zero] at moved
      refine absurd ⟨?_, ?_⟩ stays
      · rw [inv.readers, ne_eq, and_writerWaiting fits, waits]
        decide
      · rw [inv.readers]
        exact (and_readerMask_eq fits (by decide)).2 moved

/-- The waker itself is not woken. -/
theorem InvAt.wake_eq (awake : (s.pcs t).parked = false)
    (mask : BitVec 32) (count : ℕ) : s.wake addr t mask count pc' =
      { s with queue := s.queue.left addr mask count
               pcs := update (StdRwMutex2.resume s.pcs (s.queue.woken addr mask count))
                 t pc' } := by
  have notWoken := inv.queued.not_woken awake mask count
  rw [State.wake]
  congr 1
  funext u
  by_cases same : u = t
  · rw [same, StdRwMutex2.resume, if_neg notWoken, update_self, update_self]
  · rw [update_of_ne same, StdRwMutex2.resume, StdRwMutex2.resume, update_of_ne same]

theorem InvAt.wakeWriter {retry : Bool} (here : s.pcs t = .wakeWriter retry)
    (outside' : pc'.outside = true ∧ pc'.parked = false ∧ pc'.reads = 0)
    (place : pc'.Local bias waiting odd) :
    InvAt addr bias waiting odd (s.wake addr t maskParkedWriter 1 pc') := by
  have awake : (s.pcs t).parked = false := by rw [here]; rfl
  have notWoken := inv.queued.not_woken awake maskParkedWriter 1
  have resumed := inv.resume maskParkedWriter 1
  rw [inv.wake_eq awake]
  have hereStill : StdRwMutex2.resume s.pcs (s.queue.woken addr maskParkedWriter 1) t =
      .wakeWriter retry := (if_neg notWoken).trans here
  have share := tally_reads hereStill (show pc'.reads = 0 from outside'.2.2)
  have calm' := ne_of_silent outside'.2.1 outside'.2.2
  refine resumed.outsider hereStill rfl (resumed.queued.move ?_ outside'.2.1) rfl rfl rfl
    outside'.1 (fun _ _ u parked => ?_) (share.symm ▸ resumed.readers) place (absurd · calm'.1)
    (absurd · calm'.2.1) fun _ zero => .inl (share ▸ zero)
  · exact congrArg parked hereStill
  · -- the only parked writer has been taken out
    change StdRwMutex2.resume s.pcs (s.queue.woken addr maskParkedWriter 1) u = .parkedWriter at parked
    rw [StdRwMutex2.resume] at parked
    split at parked
    next woken =>
      have wasParked := inv.queued.parked_of_mem (mem_threads_of_mem_woken woken)
      exact absurd parked (resumed_calm wasParked).2.2.1
    next notTaken =>
      refine notTaken (inv.queued.writer_woken parked fun v other => ?_)
      exact inv.mutex.unique v u (inv.held (by rw [other]; rfl)) (inv.held (by rw [parked]; rfl))

theorem InvAt.wakeReaders (few : Fintype.card ι < 2 ^ 30) (here : s.pcs t = .wakeReaders) :
    InvAt addr bias waiting odd (s.wake addr t maskReader InlineFutex.unsignedMax .releasing) := by
  have awake : (s.pcs t).parked = false := by rw [here]; rfl
  have notWoken := inv.queued.not_woken awake maskReader InlineFutex.unsignedMax
  have resumed := inv.resume maskReader InlineFutex.unsignedMax
  rw [inv.wake_eq awake]
  have hereStill : StdRwMutex2.resume s.pcs (s.queue.woken addr maskReader InlineFutex.unsignedMax)
      t = .wakeReaders := (if_neg notWoken).trans here
  have held : s.mutex.pcs t = .held := inv.held (by rw [here]; rfl)
  have flags : bias = false ∧ odd = false := by
    have place := inv.places t
    rwa [here] at place
  have share := tally_reads hereStill (show Pc.releasing.reads = Pc.wakeReaders.reads from rfl)
  refine resumed.move rfl (resumed.queued.move (congrArg Pc.parked hereStill) rfl) resumed.mutex
    (fun u _ => resumed.coupled u) ?_ (share.symm ▸ resumed.readers) resumed.waits resumed.phase
    (fun u _ => resumed.places u) trivial (fun _ _ => flags) nofun
    nofun (fun u parked => ?_) fun u parked => ?_
  · change Coupled .releasing (s.mutex.pcs t)
    rw [held]
    exact .inl rfl
  · obtain ⟨ne, parked⟩ := of_update_eq (by simp) parked
    have notOwner := resumed.others held ne
    rw [parked] at notOwner
    cases notOwner
  · obtain ⟨-, parked⟩ := of_update_eq (by simp) parked
    change StdRwMutex2.resume s.pcs (s.queue.woken addr maskReader InlineFutex.unsignedMax) u =
      .parkedReader at parked
    rw [StdRwMutex2.resume] at parked
    split at parked
    next woken =>
      have wasParked := inv.queued.parked_of_mem (mem_threads_of_mem_woken woken)
      exact absurd parked (resumed_calm wasParked).2.2.2.1
    next notTaken =>
      exact absurd (inv.queued.readers_woken few parked) notTaken

/-- The thread moves between places that concern nobody but the inner mutex. -/
theorem InvAt.exchangeMutex {mutex : StdMutex.State ι} (here : s.pcs t = pc)
    (calm : pc.owner = false ∧ pc.parked = false ∧ pc.reads = 0 ∧ ∀ retry, pc ≠ .wakeWriter retry)
    (calm' : pc'.parked = false ∧ pc'.reads = 0 ∧ pc'.quiet = false)
    (inner : StdMutex.Inv addr mutex) (others : ∀ u ≠ t, Coupled (s.pcs u) (mutex.pcs u))
    (coupled : Coupled pc' (mutex.pcs t)) (place : pc'.Local bias waiting odd) :
    InvAt addr bias waiting odd { s.setPc t pc' with mutex } := by
  have share := tally_reads here (calm'.2.1.trans calm.2.2.1.symm)
  have silent := ne_of_silent calm'.1 calm'.2.1
  refine inv.move rfl (inv.queued.move (by rw [here]; exact calm.2.1) calm'.1) inner others coupled
    (share.symm ▸ inv.readers) inv.waits inv.phase (fun u _ => inv.places u) place
    (fun _ owners => inv.ownerless fun u => ?_)
    (fun quiet => absurd quiet (by simp [calm'.2.2])) (absurd · silent.1)
    (fun u parked => ?_) fun u parked => ?_
  · by_cases same : u = t
    · rw [same, here]
      exact calm.1
    · exact owners u same
  · obtain ⟨-, parked⟩ := of_update_eq silent.2.2 parked
    rw [share]
    refine (inv.parkedWriter u parked).imp_right ?_
    rintro ⟨v, retry, wakes⟩
    have ne : v ≠ t := fun same => calm.2.2.2 retry (by rw [← here, ← same, wakes])
    exact ⟨v, retry, (update_of_ne ne _ _).trans wakes⟩
  · obtain ⟨-, parked⟩ := of_update_eq silent.2.1 parked
    refine (inv.parkedReader u parked).imp_right ?_
    rintro ⟨v, wakes⟩
    have ne : v ≠ t := fun same => by
      rw [← here, ← same, wakes] at calm
      cases calm.1
    exact ⟨v, (update_of_ne ne _ _).trans wakes⟩

/-- A step inside the inner mutex, on the way in or out. -/
theorem InvAt.inner {mutex : StdMutex.State ι} (taken : s.mutex.step addr t = some mutex)
    (here : s.pcs t = pc) (inside : pc = .acquiring ∨ pc = .releasing)
    (calm' : pc'.parked = false ∧ pc'.reads = 0 ∧ pc'.quiet = false)
    (coupled : Coupled pc' (mutex.pcs t)) (place : pc'.Local bias waiting odd) :
    InvAt addr bias waiting odd { s.setPc t pc' with mutex } := by
  have calm : pc.owner = false ∧ pc.parked = false ∧ pc.reads = 0 ∧
      ∀ retry, pc ≠ .wakeWriter retry := by
    rcases inside with rfl | rfl <;> exact ⟨rfl, rfl, rfl, by simp⟩
  refine inv.exchangeMutex here calm calm' (inv.mutex.step taken) (fun u ne => ?_) coupled place
  -- another thread is moved only by being woken, and then it is still acquiring
  have coupledU := inv.coupled u
  rcases StdMutex.step_others taken inv.mutex ne with same | ⟨parked, woken⟩
  · rwa [same]
  · rw [parked] at coupledU
    rw [woken]
    revert coupledU
    cases s.pcs u <;> intro coupledU <;>
      first | exact ⟨by decide, by decide⟩ | (cases coupledU; done) |
        (rcases coupledU with impossible | impossible <;> cases impossible)

theorem InvAt.enterMutex (here : s.pcs t = .idle) :
    InvAt addr bias waiting odd (s.setPc t .acquiring) := by
  have idle : s.mutex.pcs t = .idle := inv.inner_idle (by rw [here]; rfl)
  have coupled : Coupled .acquiring (s.mutex.pcs t) := by
    rw [idle]
    exact ⟨by decide, by decide⟩
  exact inv.exchangeMutex here ⟨rfl, rfl, rfl, by simp⟩ ⟨rfl, rfl, rfl⟩ inv.mutex
    (fun u _ => inv.coupled u) coupled trivial

end

end Facts

end MiniOsv.Sync.StdRwMutex2
