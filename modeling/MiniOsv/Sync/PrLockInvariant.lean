/-
# Sync.PrLockInvariant -- ownership and subscribers in every run

What holds in every run, whatever the wakes do: the word has one of its four kinds of
values, it is 0 exactly when nobody owns the lock, and the mark of a subscriber belongs
to the owner or to a thread that spins (`Inv.subscribed`).  The counter `preempted` is 1
exactly while the registered holder has no CPU (`Counted`).
-/
import MiniOsv.Sync.PrLock

namespace MiniOsv.Sync.PrLock

open Function

variable {ι : Type} [DecidableEq ι]

def Pc.slow : Pc → Bool
  | .head | .loaded _ | .exchangeTwo | .waitTwo | .spin | .waitOn _ | .parked => true
  | _ => false

structure Inv (id : ι → ℕ) (s : State ι) : Prop where
  word : s.count = 0 ∨ s.count = 1 ∨ s.count = modeTwo ∨ ∃ k, s.count = 2 ||| lockMask k
  masks : ∀ t, (s.pcs t).slow = true → s.nodeMask t = lockMask (id t)
  locked : ∀ t, (s.pcs t).owns = true → s.count ≠ 0
  owned : s.count ≠ 0 → ∃ t, (s.pcs t).owns = true
  unique : ∀ t u, (s.pcs t).owns = true → (s.pcs u).owns = true → t = u
  waits : ∀ t curCount, s.pcs t = .waitOn curCount → popcount (curCount &&& ~~~3) ≠ 0
  /-- A subscriber's mark belongs to the owner or to a thread that spins. -/
  subscribed : s.count ≠ 0 → s.count ≠ 1 → s.count ≠ modeTwo →
    (∃ t, s.WakesOnUnlock t) ∨ ∃ t, (s.pcs t).retries = true ∧ s.count = 2 ||| s.nodeMask t
  labels : ∀ w ∈ s.queue, w.label = ⟨0, BitVec.allOnes 32⟩
  parks : s.queue.Parks fun t => s.pcs t = .parked

/-- A move that takes no thread away from owning or spinning. -/
structure Pc.Keeps (pc pc' : Pc) : Prop where
  owns : pc'.owns = pc.owns
  retries : pc.retries = true → pc'.retries = true
  slow : pc'.slow = true → pc.slow = true
  waits : ∀ curCount, pc' = .waitOn curCount → pc = .waitOn curCount

theorem Pc.Keeps.refl {pc : Pc} : pc.Keeps pc := ⟨rfl, id, id, fun _ => id⟩

section Steps

variable {id : ι → ℕ} {s s' : State ι} {t : ι} {pc pc' : Pc}

section

variable (inv : Inv id s)

include inv

/-- **A step of `t` that leaves the queue alone.**  Other threads and their nodes stay as
they are. -/
theorem Inv.move (here : s.pcs t = pc)
    (pcs : s'.pcs = update s.pcs t pc') (queue : s'.queue = s.queue)
    (nodes : ∀ u ≠ t, s'.nodeMask u = s.nodeMask u) (awake : pc ≠ .parked ∧ pc' ≠ .parked)
    (word : s'.count = 0 ∨ s'.count = 1 ∨ s'.count = modeTwo ∨ ∃ k, s'.count = 2 ||| lockMask k)
    (mask : pc'.slow = true → s'.nodeMask t = lockMask (id t))
    (locked : pc'.owns = true ∨ (∃ u ≠ t, (s.pcs u).owns = true) ↔ s'.count ≠ 0)
    (alone : pc'.owns = true → ∀ u ≠ t, (s.pcs u).owns = false)
    (waits : ∀ curCount, pc' = .waitOn curCount → popcount (curCount &&& ~~~3) ≠ 0)
    (subscribed : s'.count ≠ 0 → s'.count ≠ 1 → s'.count ≠ modeTwo →
      (∃ u, s'.WakesOnUnlock u) ∨
        ∃ u, (s'.pcs u).retries = true ∧ s'.count = 2 ||| s'.nodeMask u) :
    Inv id s' := by
  have self : s'.pcs t = pc' := by rw [pcs, update_self]
  have there : ∀ u ≠ t, s'.pcs u = s.pcs u := fun u ne => by rw [pcs, update_of_ne ne]
  refine ⟨word, fun u slow => ?_, fun u owns => ?_, fun nonzero => ?_, fun u v ownsU ownsV => ?_,
    fun u curCount at' => ?_, subscribed, queue ▸ inv.labels, ?_⟩
  · by_cases same : u = t
    · rw [same, self] at slow
      rw [same]
      exact mask slow
    · rw [there u same] at slow
      rw [nodes u same]
      exact inv.masks u slow
  · refine locked.1 ?_
    by_cases same : u = t
    · exact .inl (by rw [← self, ← same, owns])
    · exact .inr ⟨u, same, there u same ▸ owns⟩
  · rcases locked.2 nonzero with owns | ⟨u, ne, owns⟩
    · exact ⟨t, by rw [self, owns]⟩
    · exact ⟨u, by rw [there u ne, owns]⟩
  · by_cases sameU : u = t <;> by_cases sameV : v = t
    · rw [sameU, sameV]
    · rw [sameU, self] at ownsU
      rw [there v sameV, alone ownsU v sameV] at ownsV
      cases ownsV
    · rw [sameV, self] at ownsV
      rw [there u sameU, alone ownsV u sameU] at ownsU
      cases ownsU
    · exact inv.unique u v (there u sameU ▸ ownsU) (there v sameV ▸ ownsV)
  · by_cases same : u = t
    · rw [same, self] at at'
      exact waits curCount at'
    · rw [there u same] at at'
      exact inv.waits u curCount at'
  · rw [queue]
    refine inv.parks.congr fun u => ?_
    by_cases same : u = t
    · rw [same, self, here]
      exact ⟨fun parked => absurd parked awake.2, fun parked => absurd parked awake.1⟩
    · rw [there u same]

theorem Inv.owner_iff (here : s.pcs t = pc) :
    pc.owns = true ∨ (∃ u ≠ t, (s.pcs u).owns = true) ↔ s.count ≠ 0 := by
  constructor
  · rintro (owns | ⟨u, -, owns⟩)
    · exact inv.locked t (here ▸ owns)
    · exact inv.locked u owns
  · intro nonzero
    obtain ⟨u, owns⟩ := inv.owned nonzero
    by_cases same : u = t
    · exact .inl (by rw [← here, ← same, owns])
    · exact .inr ⟨u, same, owns⟩

omit [DecidableEq ι] in
theorem Inv.alone (owns : (s.pcs t).owns = true) {u : ι} (ne : u ≠ t) : (s.pcs u).owns = false := by
  by_contra owner
  exact ne (inv.unique u t (Bool.not_eq_false _ ▸ owner) owns)

section

variable (here : s.pcs t = pc)

include here

theorem Inv.setPc (pcs : s'.pcs = update s.pcs t pc') (queue : s'.queue = s.queue)
    (nodes : s'.nodeMask = s.nodeMask) (count : s'.count = s.count)
    (awake : pc ≠ .parked ∧ pc' ≠ .parked) (owns : pc'.owns = pc.owns) (slow : pc'.slow = true → pc.slow = true)
    (waits : ∀ curCount, pc' = .waitOn curCount → popcount (curCount &&& ~~~3) ≠ 0)
    (spins : pc.retries = true → s.count = 2 ||| s.nodeMask t → pc'.retries = true) :
    Inv id s' := by
  refine inv.move here pcs queue (fun u _ => by rw [nodes]) awake (count ▸ inv.word)
    (fun isSlow => ?_) ?_ (fun owner u ne => ?_) waits fun nonzero notFast notTwo => ?_
  · rw [nodes]
    exact inv.masks t (here ▸ slow isSlow)
  · rw [owns, count]
    exact inv.owner_iff here
  · exact inv.alone (by rw [here, ← owns, owner]) ne
  · rw [count] at nonzero notFast notTwo
    rcases inv.subscribed nonzero notFast notTwo with ⟨u, owner, value⟩ | ⟨u, retries, value⟩
    · refine .inl ⟨u, ?_, ?_⟩
      · by_cases same : u = t
        · rw [same, pcs, update_self, owns, ← here, ← same, owner]
        · rw [pcs, update_of_ne same, owner]
      · rw [count, nodes]
        exact value
    · refine .inr ⟨u, ?_, ?_⟩
      · by_cases same : u = t
        · rw [same, pcs, update_self]
          rw [same] at retries value
          exact spins (here ▸ retries) value
        · rw [pcs, update_of_ne same, retries]
      · rw [count, nodes]
        exact value

theorem Inv.take (awake : pc ≠ .parked) (free : s.count = 0) {count : BitVec 32}
    (value : count = 1 ∨ count = modeTwo ∨ count = 2 ||| s.nodeMask t ∧ pc.slow = true) :
    Inv id { s.setPc t .acquired with count } := by
  have word : count = 1 ∨ count = modeTwo ∨ ∃ k, count = 2 ||| lockMask k :=
    value.imp_right (Or.imp_right fun ⟨mark, slow⟩ =>
      ⟨id t, by rw [mark, inv.masks t (here ▸ slow)]⟩)
  have nonzero : count ≠ 0 := by
    rcases word with rfl | rfl | ⟨k, rfl⟩
    · decide
    · decide
    · exact (mark_ne k).1
  have nobody : ∀ u, (s.pcs u).owns = false := fun u => by
    by_contra owner
    exact inv.locked u (Bool.not_eq_false _ ▸ owner) free
  refine inv.move here rfl rfl (fun _ _ => rfl) ⟨awake, by simp⟩ (.inr word)
    nofun ⟨fun _ => nonzero, fun _ => .inl rfl⟩ (fun _ u _ => nobody u)
    nofun fun _ notFast notTwo => .inl ⟨t, ?_, .inr ?_⟩
  · change (update s.pcs t .acquired t).owns = true
    rw [update_self]
    rfl
  · exact ((value.resolve_left notFast).resolve_left notTwo).1

theorem Inv.overwrite (slow : pc.slow = true ∧ pc.owns = false ∧ pc ≠ .parked) (taken : s.count ≠ 0)
    (slow' : pc'.owns = false ∧ pc' ≠ .parked ∧ ∀ curCount, pc' ≠ .waitOn curCount)
    {count : BitVec 32}
    (value : count = modeTwo ∨ count = 2 ||| s.nodeMask t ∧ pc'.retries = true) :
    Inv id { s.setPc t pc' with count } := by
  have mask := inv.masks t (here ▸ slow.1)
  have word : count = modeTwo ∨ ∃ k, count = 2 ||| lockMask k :=
    value.imp_right fun ⟨mark, _⟩ => ⟨id t, by rw [mark, mask]⟩
  have nonzero : count ≠ 0 := by
    rcases word with rfl | ⟨k, rfl⟩
    · decide
    · exact (mark_ne k).1
  refine inv.move here rfl rfl (fun _ _ => rfl) ⟨slow.2.2, slow'.2.1⟩ (.inr (.inr word))
    (fun _ => mask) ?_ (fun owns => absurd owns (by simp [slow'.1]))
    (fun curCount impossible => absurd impossible (slow'.2.2 curCount))
    fun _ _ notTwo => .inr ⟨t, ?_⟩
  · have owners := inv.owner_iff here
    rw [slow.2.1] at owners
    rw [slow'.1]
    exact ⟨fun _ => nonzero, fun _ => owners.2 taken⟩
  · obtain ⟨mark, retries⟩ := value.resolve_left notTwo
    exact ⟨(congrArg Pc.retries (update_self _ _ _)).trans retries, mark⟩

theorem Inv.release (owner : pc.owns = true)
    (leaves : pc' = .idle ∨ pc' = .readKey) : Inv id { s.setPc t pc' with count := 0 } := by
  have awake : pc ≠ .parked := fun parked => by
    rw [parked] at owner
    cases owner
  have calm' : pc'.owns = false ∧ pc'.slow = false ∧ pc' ≠ .parked ∧
      ∀ curCount, pc' ≠ .waitOn curCount := by
    rcases leaves with rfl | rfl <;> exact ⟨rfl, rfl, by simp, by simp⟩
  refine inv.move here rfl rfl (fun _ _ => rfl) ⟨awake, calm'.2.2.1⟩ (.inl rfl)
    (fun slow => absurd slow (by simp [calm'.2.1])) ?_
    (fun owns => absurd owns (by simp [calm'.1]))
    (fun curCount impossible => absurd impossible (calm'.2.2.2 curCount))
    fun nonzero => absurd rfl nonzero
  constructor
  · rintro (owns | ⟨u, ne, owns⟩)
    · rw [calm'.1] at owns
      cases owns
    · rw [inv.alone (here ▸ owner) ne] at owns
      cases owns
  · exact fun nonzero => absurd rfl nonzero

/-- A thread that neither owns the lock nor spins sets its node. -/
theorem Inv.setNode (calm : pc.owns = false ∧ pc.retries = false ∧ pc ≠ .parked) (mask : BitVec 32)
    (calm' : pc'.owns = false ∧ pc' ≠ .parked ∧ ∀ curCount, pc' ≠ .waitOn curCount)
    (right : pc'.slow = true → mask = lockMask (id t)) :
    Inv id { s.setPc t pc' with nodeMask := update s.nodeMask t mask } := by
  refine inv.move here rfl rfl (fun u ne => update_of_ne ne _ _) ⟨calm.2.2, calm'.2.1⟩
    inv.word (fun slow => (update_self _ _ _).trans (right slow)) ?_
    (fun owns => absurd owns (by simp [calm'.1]))
    (fun curCount impossible => absurd impossible (calm'.2.2 curCount))
    fun nonzero notFast notTwo => ?_
  · rw [calm'.1, ← calm.1]
    exact inv.owner_iff here
  · rcases inv.subscribed nonzero notFast notTwo with ⟨u, owner, value⟩ | ⟨u, retries, value⟩
    · have ne : u ≠ t := fun same => by
        rw [same, here, calm.1] at owner
        cases owner
      refine .inl ⟨u, ?_, ?_⟩
      · exact (congrArg Pc.owns (update_of_ne ne _ _)).trans owner
      · change s.count = modeTwo ∨ s.count = 2 ||| update s.nodeMask t mask u
        rwa [update_of_ne ne]
    · have ne : u ≠ t := fun same => by
        rw [same, here, calm.2.1] at retries
        cases retries
      refine .inr ⟨u, ?_, ?_⟩
      · exact (congrArg Pc.retries (update_of_ne ne _ _)).trans retries
      · change s.count = 2 ||| update s.nodeMask t mask u
        rwa [update_of_ne ne]

end

omit [DecidableEq ι] in
/-- Only the places of threads and the queue change, and no thread that owns or spins
is moved away from that. -/
theorem Inv.repark {pcs : ι → Pc} {queue : FutexQueue ι} (keeps : ∀ u, (s.pcs u).Keeps (pcs u))
    (labels : ∀ w ∈ queue, w.label = ⟨0, BitVec.allOnes 32⟩)
    (parks : queue.Parks fun u => pcs u = .parked) : Inv id { s with pcs, queue } := by
  have owns : ∀ u, (pcs u).owns = (s.pcs u).owns := fun u => (keeps u).owns
  refine ⟨inv.word, fun u slow => inv.masks u ((keeps u).slow slow),
    fun u owner => inv.locked u (owns u ▸ owner), fun nonzero => ?_,
    fun u v ownsU ownsV => inv.unique u v (owns u ▸ ownsU) (owns v ▸ ownsV),
    fun u curCount at' => inv.waits u curCount ((keeps u).waits curCount at'),
    fun nonzero notFast notTwo => ?_, labels, parks⟩
  · obtain ⟨u, owner⟩ := inv.owned nonzero
    exact ⟨u, (owns u).trans owner⟩
  · rcases inv.subscribed nonzero notFast notTwo with ⟨u, owner, value⟩ | ⟨u, retry, value⟩
    · exact .inl ⟨u, (owns u).trans owner, value⟩
    · exact .inr ⟨u, (keeps u).retries retry, value⟩

/-- A `wait` parks the thread or sends it back to the head of the loop. -/
theorem Inv.wait (here : s.pcs t = pc)
    (before : pc.slow = true ∧ pc.owns = false ∧ pc.retries = false ∧ pc ≠ .parked)
    (expected : BitVec 32) : Inv id (s.wait t expected) := by
  rw [State.wait]
  split
  · refine inv.repark (fun u => ?_) (fun w mem => ?_)
      (inv.parks.enqueue (by rw [here]; exact before.2.2.2) _ fun u => ?_)
    · change (s.pcs u).Keeps (update s.pcs t .parked u)
      by_cases same : u = t
      · rw [same, update_self, here]
        exact ⟨before.2.1.symm, by simp [before], fun _ => before.1, nofun⟩
      · rw [update_of_ne same]
        exact .refl
    · rcases List.mem_append.1 mem with mem | last
      · exact inv.labels w mem
      · rw [List.mem_singleton.1 last]
    · change update s.pcs t .parked u = .parked ↔ _
      by_cases same : u = t <;> simp [same]
  · refine inv.setPc here rfl rfl rfl rfl ⟨before.2.2.2, by simp⟩ (by rw [before.2.1]; rfl) (fun _ => before.1)
      nofun fun _ _ => rfl

theorem Inv.wake {key : BitVec 64} (here : s.pcs t = .wake key) :
    Inv id { s with queue := s.queue.left key (BitVec.allOnes 32) 1
                    pcs := resume (update s.pcs t .idle)
                      (s.queue.woken key (BitVec.allOnes 32) 1) } := by
  refine inv.repark (fun u => ?_)
    (fun w mem => inv.labels w (FutexQueue.left_sublist.subset mem))
    (inv.parks.wake fun u => ?_)
  · rw [resume]
    split
    next woken =>
      rw [show s.pcs u = .parked from inv.parks.parked_of_woken woken]
      exact ⟨rfl, nofun, fun _ => rfl, nofun⟩
    · by_cases same : u = t
      · rw [same, update_self, here]
        exact ⟨rfl, nofun, nofun, nofun⟩
      · rw [update_of_ne same]
        exact .refl
  · rw [resume]
    split
    next woken => exact ⟨nofun, fun stays => absurd woken stays.2⟩
    next stays =>
      by_cases same : u = t
      · simp [same, here]
      · rw [update_of_ne same]
        exact (and_iff_left stays).symm

end

/-- What the loop does with the loaded values. -/
theorem branch_spec (curPreempted : ℕ) (curCount mask : BitVec 32) :
    (branch curPreempted curCount mask).retries = true ∨
      branch curPreempted curCount mask = .waitOn curCount ∧
        popcount (curCount &&& ~~~3) ≠ 0 ∧ curCount &&& mask = 0 := by
  rw [branch]
  split
  · exact .inl rfl
  · split
    · exact .inl rfl
    next wait =>
      rw [not_or, not_ne_iff] at wait
      exact .inr ⟨rfl, wait⟩

theorem branch_slow (curPreempted : ℕ) (curCount mask : BitVec 32) :
    (branch curPreempted curCount mask).owns = false ∧
      branch curPreempted curCount mask ≠ .parked := by
  rw [branch]
  split
  · exact ⟨rfl, by simp⟩
  · split <;> exact ⟨rfl, by simp⟩

/-- **Every step keeps the invariant.** -/
theorem Inv.go (inv : Inv id s) {spurious : Bool} (taken : s.go id t spurious = some s') :
    Inv id s' := by
  rw [State.go] at taken
  cases here : s.pcs t <;> simp only [here] at taken
  case idle | parked =>
    cases taken
  case fast =>
    split at taken <;> cases taken
    next free =>
      exact inv.take here (by simp) free.1 (.inl rfl)
    · exact inv.setNode here ⟨rfl, rfl, by simp⟩ _ ⟨rfl, by simp, by simp⟩ fun _ => rfl
  case head =>
    cases taken
    exact inv.setPc here rfl rfl rfl rfl ⟨by simp, by simp⟩ rfl (fun _ => rfl)
      nofun fun _ _ => rfl
  case loaded curPreempted =>
    cases taken
    have calm := branch_slow curPreempted s.count (s.nodeMask t)
    refine inv.setPc here rfl rfl rfl rfl ⟨by simp, calm.2⟩ calm.1 (fun _ => rfl) (fun curCount waits => ?_)
      fun _ mine => ?_
    · rcases branch_spec curPreempted s.count (s.nodeMask t) with retries | ⟨same, busy, -⟩
      · rw [waits] at retries
        cases retries
      · rw [same] at waits
        cases waits
        exact busy
    · rcases branch_spec curPreempted s.count (s.nodeMask t) with retries | ⟨-, -, other⟩
      · exact retries
      · rw [mine, inv.masks t (by rw [here]; rfl)] at other
        exact absurd other (mark_ne _).2.2.2
  case exchangeTwo =>
    cases taken
    split
    next free =>
      exact inv.take here (by simp) free (.inr (.inl rfl))
    next locked =>
      exact inv.overwrite here ⟨rfl, rfl, by simp⟩ locked ⟨rfl, by simp, by simp⟩ (.inl rfl)
  case waitTwo =>
    cases taken
    exact inv.wait here ⟨rfl, rfl, rfl, by simp⟩ modeTwo
  case spin =>
    cases taken
    split
    next free =>
      exact inv.take here (by simp) free (.inr (.inr ⟨rfl, rfl⟩))
    next locked =>
      exact inv.overwrite here ⟨rfl, rfl, by simp⟩ locked ⟨rfl, by simp, by simp⟩
        (.inr ⟨rfl, rfl⟩)
  case waitOn curCount =>
    cases taken
    exact inv.wait here ⟨rfl, rfl, rfl, by simp⟩ curCount
  case acquired =>
    cases taken
    exact inv.setPc here rfl rfl rfl rfl ⟨by simp, by simp⟩ rfl (fun slow => slow) nofun nofun
  case held bit running =>
    split at taken <;> cases taken
    exact inv.setPc here rfl rfl rfl rfl ⟨by simp, by simp⟩ rfl (fun slow => slow) nofun nofun
  case unlocking preempted =>
    cases taken
    refine inv.release here rfl ?_
    split
    · exact .inl rfl
    · split
      · exact .inr rfl
      · exact .inl rfl
  case readKey =>
    cases taken
    exact inv.setPc here rfl rfl rfl rfl ⟨by simp, by simp⟩ rfl (fun slow => slow) nofun nofun
  case wake key =>
    cases taken
    exact inv.wake here

theorem Inv.step (inv : Inv id s) {event : Event ι} (taken : s.step id event = some s') :
    Inv id s' := by
  cases event with rw [State.step] at taken
  | wlock t garbage =>
    split at taken <;> cases taken
    rename_i here
    exact inv.setNode here ⟨rfl, rfl, by simp⟩ garbage ⟨rfl, by simp, by simp⟩
      nofun
  | go t spurious => exact inv.go taken
  | switchOut t | switchIn t =>
    split at taken <;> cases taken
    rename_i here
    exact inv.setPc here rfl rfl rfl rfl ⟨by simp, by simp⟩ rfl (fun slow => slow) nofun nofun

omit [DecidableEq ι] in
theorem Boot.inv (boot : Boot s) : Inv id s := by
  obtain ⟨count, -, queue, idle⟩ := boot
  refine ⟨.inl count, fun t slow => ?_, fun t owns => ?_, fun nonzero => absurd count nonzero,
    fun t u owns => ?_, fun t _ waits => ?_, fun nonzero => absurd count nonzero, ?_, ?_, fun t => ?_⟩
  · rw [idle t] at slow
    cases slow
  · rw [idle t] at owns
    cases owns
  · rw [idle t] at owns
    cases owns
  · rw [idle t] at waits
    cases waits
  · simp [queue]
  · simp [queue, FutexQueue.threads]
  · simp [queue, FutexQueue.threads, idle t]

theorem Runs.inv (reached : Runs id s) : Inv id s :=
  reached.invariant (I := Inv id) (fun _ boot => boot.inv) fun _ _ _ inv ⟨_, taken⟩ =>
    inv.step taken

/-! ## The counter of the scheduler -/

/-- A step of a thread inside the lock leaves the counter and the other holders alone, and
its thread has a CPU. -/
theorem go_spec (inv : Inv id s) {spurious : Bool} (taken : s.go id t spurious = some s') :
    s'.preempted = s.preempted ∧ (∀ u ≠ t, ∀ bit running,
      s'.pcs u = .held bit running ↔ s.pcs u = .held bit running) ∧
    ∀ bit, s.pcs t ≠ .held bit false ∧ s'.pcs t ≠ .held bit false := by
  rw [State.go] at taken
  cases here : s.pcs t <;> simp only [here] at taken
  case wake key =>
    cases taken
    refine ⟨rfl, fun u ne bit running => ?_, fun bit => ⟨nofun, ?_⟩⟩
    · simp only [resume, update_of_ne ne]
      split
      next woken => simp [inv.parks.parked_of_woken woken]
      · rfl
    · simp only [resume, update_self]
      split <;> nofun
  case idle | parked => cases taken
  case fast | held =>
    split at taken <;> cases taken
    all_goals refine ⟨rfl, fun u ne _ _ => ?_, fun _ => ⟨?_, ?_⟩⟩ <;> simp_all [State.setPc]
  case waitTwo | waitOn =>
    cases taken
    rw [State.wait]
    split
    all_goals refine ⟨rfl, fun u ne _ _ => ?_, fun _ => ⟨?_, ?_⟩⟩ <;> simp_all [State.setPc]
  all_goals
    cases taken
    refine ⟨rfl, fun u ne _ _ => ?_, fun _ => ⟨nofun, ?_⟩⟩
    · simp [State.setPc, ne]
    · simp only [State.setPc, update_self]
      grind [branch]

/-- The counter is 1 with a registered holder that has no CPU, and 0 otherwise. -/
def Counted (s : State ι) : Prop :=
  (∀ t bit, s.pcs t = .held bit false → s.preempted = 1) ∧
    ((∀ t bit, s.pcs t ≠ .held bit false) → s.preempted = 0)

omit [DecidableEq ι] in
/-- A holder on a CPU is the only holder. -/
theorem Counted.on (counted : Counted s) (inv : Inv id s) {bit : Bool}
    (here : s.pcs t = .held bit true) : s.preempted = 0 := by
  refine counted.2 fun u bit out => ?_
  cases inv.unique u t (by rw [out]; rfl) (by rw [here]; rfl)
  cases here.symm.trans out

theorem Counted.step (counted : Counted s) (inv : Inv id s) {event : Event ι}
    (taken : s.step id event = some s') : Counted s' := by
  cases event with rw [State.step] at taken
  | wlock t garbage =>
    split at taken <;> cases taken
    have pcs : ∀ u bit, update s.pcs t .fast u = .held bit false ↔ s.pcs u = .held bit false :=
      fun u bit => by by_cases same : u = t <;> simp_all
    simpa only [Counted, State.setPc, ne_eq, pcs] using counted
  | go t spurious =>
    obtain ⟨counter, others, mine⟩ := go_spec inv taken
    have pcs : ∀ u bit, s'.pcs u = .held bit false ↔ s.pcs u = .held bit false := fun u bit => by
      by_cases same : u = t
      · simp [same, mine]
      · exact others u same bit false
    simpa only [Counted, counter, ne_eq, pcs] using counted
  | switchOut t =>
    split at taken <;> cases taken
    next here =>
      refine ⟨fun _ _ _ => ?_, fun none => ?_⟩
      · exact congrArg (· + 1) (counted.on inv here)
      · exact absurd (update_self ..) (none t false)
  | switchIn t =>
    split at taken <;> cases taken
    next here =>
      have counter : s.preempted - 1 = 0 := by rw [counted.1 t _ here]
      refine ⟨fun u bit out => ?_, fun _ => counter⟩
      by_cases same : u = t
      · simp [same, State.setPc] at out
      · simp only [State.setPc, update_of_ne same] at out
        exact absurd (inv.unique u t (by rw [out]; rfl) (by rw [here]; rfl)) same

/-- Between `push_lock` and `pop_lock` bit 0 says that the holder was not switched out. -/
theorem held_step (inv : Inv id s) {bit running : Bool} (here : s.pcs t = .held bit running)
    (fresh : bit = true → running = true) {event : Event ι}
    (other : ∀ spurious, event ≠ .go t spurious) (taken : s.step id event = some s') :
    ∃ bit' running', s'.pcs t = .held bit' running' ∧ (bit' = true → running' = true) ∧
      (bit' = true ↔ bit = true ∧ event ≠ .switchOut t) := by
  cases event with rw [State.step] at taken
  | wlock u garbage =>
    split at taken <;> cases taken
    have ne : t ≠ u := fun same => by simp_all
    exact ⟨bit, running, (update_of_ne ne ..).trans here, fresh, by simp⟩
  | go u spurious =>
    have ne : t ≠ u := fun same => other spurious (by rw [same])
    exact ⟨bit, running, ((go_spec inv taken).2.1 t ne bit running).2 here, fresh, by simp⟩
  | switchOut u | switchIn u =>
    split at taken <;> cases taken
    by_cases ne : t = u
    · simp_all [State.setPc]
    · exact ⟨bit, running, (update_of_ne ne ..).trans here, fresh, by simp [Ne.symm ne]⟩

theorem held_events {events : List (Event ι)} (inv : Inv id s) {bit running : Bool}
    (here : s.pcs t = .held bit running) (fresh : bit = true → running = true)
    (other : ∀ spurious, .go t spurious ∉ events)
    (run : events.foldlM (State.step id) s = some s') :
    ∃ bit' running', s'.pcs t = .held bit' running' ∧
      (bit' = true ↔ bit = true ∧ .switchOut t ∉ events) := by
  induction events generalizing s bit running with
  | nil =>
    cases run
    exact ⟨bit, running, here, by simp⟩
  | cons event events ih =>
    rw [List.foldlM_cons] at run
    obtain ⟨next, taken, run⟩ := Option.bind_eq_some_iff.1 run
    obtain ⟨_, _, there, fresh, mid⟩ := held_step inv here fresh
      (fun spurious same => other spurious (by simp [same])) taken
    obtain ⟨bit', running', after, final⟩ := ih (inv.step taken) there fresh
      (fun spurious mem => other spurious (.tail _ mem)) run
    refine ⟨bit', running', after, ?_⟩
    rw [final, mid, List.mem_cons, not_or, and_assoc, ne_comm]

end Steps

/-- **The preemption counter.**  A thread holds one lock at a time, so that only this lock's
counter changes with its switches.  In every run the counter is 1 if a registered holder
has no CPU and 0 otherwise; the scheduler finds 0 when it switches a holder out and 1 when
it switches one in.  After `push_lock`, the next step of the thread is `pop_lock`; it
returns the negation of `preempted`, which says whether the holder was switched out in
between. -/
theorem preempted_counts_holders (id : ι → ℕ) {s : State ι} (reached : Runs id s) :
    (s.preempted = 1 ∧ (∃ t bit, s.pcs t = .held bit false) ∨
      s.preempted = 0 ∧ ∀ t bit, s.pcs t ≠ .held bit false) ∧
    (∀ t bit running, s.pcs t = .held bit running → s.preempted = if running then 0 else 1) ∧
    ∀ t pushed popped between s', s.pcs t = .acquired → (∀ spurious, .go t spurious ∉ between) →
      (.go t pushed :: (between ++ [.go t popped])).foldlM (State.step id) s = some s' →
      ∃ preempted, s'.pcs t = .unlocking preempted ∧
        (preempted = true ↔ .switchOut t ∈ between) := by
  have counted : Counted s := reached.invariant (I := Counted)
    (fun s boot => ⟨fun t bit out => by simp [boot.idle t] at out, fun _ => boot.preempted⟩)
    fun _ _ reached counted ⟨_, taken⟩ => counted.step (Runs.inv reached) taken
  refine ⟨?_, fun t bit running here => ?_, fun t pushed popped between s' here other run => ?_⟩
  · by_cases out : ∃ t bit, s.pcs t = .held bit false
    · obtain ⟨t, bit, here⟩ := out
      exact .inl ⟨counted.1 t bit here, t, bit, here⟩
    · have none : ∀ t bit, s.pcs t ≠ .held bit false := fun t bit here => out ⟨t, bit, here⟩
      exact .inr ⟨counted.2 none, none⟩
  · cases running with
    | false => exact counted.1 t bit here
    | true => exact counted.on reached.inv here
  · rw [List.foldlM_cons] at run
    obtain ⟨next, push, run⟩ := Option.bind_eq_some_iff.1 run
    rw [List.foldlM_append] at run
    obtain ⟨last, run, pop⟩ := Option.bind_eq_some_iff.1 run
    have inv := reached.inv.step push
    simp only [State.step, State.go, here] at push
    cases push
    obtain ⟨bit, running, there, fresh⟩ := held_events inv (update_self ..) (fun _ => rfl) other run
    simp only [List.foldlM_cons, List.foldlM_nil, State.step, State.go, there] at pop
    cases running with
    | false => cases pop
    | true =>
      cases pop
      refine ⟨!bit, update_self .., ?_⟩
      cases bit <;> simp_all

/-- The holder is switched out and in between `push_lock` and `pop_lock`. -/
theorem switchedHolder_counts :
    ∃ s s' : State Unit, Runs (fun _ => 0) s ∧ s.pcs () = .acquired ∧
      [.go () false, .switchOut (), .switchIn (), .go () false].foldlM (State.step fun _ => 0) s =
        some s' ∧ s'.pcs () = .unlocking true := by
  have reached : Runs (fun _ : Unit => 0) _ :=
    .next (.next (.start (s := ⟨0, 0, [], fun _ => 0, fun _ => .idle⟩) ⟨rfl, rfl, rfl, fun _ => rfl⟩)
      ⟨.wlock () 0, rfl⟩) ⟨.go () false, rfl⟩
  obtain ⟨preempted, there, switched⟩ := (preempted_counts_holders _ reached).2.2 () false false
    [.switchOut (), .switchIn ()] _ rfl (by simp) rfl
  exact ⟨_, _, reached, rfl, rfl, by rw [there, switched.2 (by simp)]⟩

end MiniOsv.Sync.PrLock
