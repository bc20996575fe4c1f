/-
# Sync.StdMutex -- the futex mutex: exclusion and no lost wake-up

`std_mutex_alg` is a one-byte mutex over a futex.  A free mutex is taken by a compare
exchange to `FAST | POLL` (5).  Everybody else exchanges the byte with `SLOW` (2): who
gets a free byte back owns the mutex, the others park as long as the byte still is 2.
`unlock` exchanges the byte with 0 and wakes one waiter if it was slow.

A step is one access to the byte or one operation on the queue.  The difficulty is that a
fast locker writes 5 over a byte that others parked under: the record that there are
waiters is gone.  The invariant says who restores it (`Inv.pending`): as long as a thread
is parked, the byte is 2, or an unlocker has its wake still to do, or a thread is about
to exchange the byte with 2.
-/
import MiniOsv.Sync.FutexQueue
import MiniOsv.Theory.Transition

namespace MiniOsv.Sync.StdMutex

open Theory FutexQueue List
open Function

def stateMask : BitVec 8 := 3
def stateLockFast : BitVec 8 := 1
def stateLockSlow : BitVec 8 := 2
def stateLockPoll : BitVec 8 := 4
def maskWriter : BitVec 32 := 1

/-- Where a thread is in `wlock` and `wunlock`. -/
inductive Pc where
  /-- Outside; its next step is the load of the fast path. -/
  | idle
  /-- Before the compare exchange of the fast path. -/
  | loaded (curState : BitVec 8)
  /-- Before the exchange of the slow path. -/
  | exchange
  /-- Before `wait`, which checks the byte and enqueues. -/
  | check
  | parked
  /-- The owner; its next step is the exchange of `wunlock`. -/
  | held
  /-- Before the wake of `wunlock`. -/
  | wake
  deriving DecidableEq

structure State (ι : Type) where
  state : BitVec 8
  queue : FutexQueue ι
  pcs : ι → Pc

variable {ι : Type} [DecidableEq ι]

def State.setPc (s : State ι) (t : ι) (pc : Pc) : State ι :=
  { s with pcs := update s.pcs t pc }

/-- The threads of `woken` leave the queue and go back to the exchange. -/
def resume (pcs : ι → Pc) (woken : List ι) (u : ι) : Pc :=
  if u ∈ woken then .exchange else pcs u

/-- One step of the thread `t`; `addr` is the address of the mutex, which is its key. -/
def State.step (addr : BitVec 64) (s : State ι) (t : ι) : Option (State ι) :=
  match s.pcs t with
  | .idle => some (s.setPc t (.loaded s.state))
  | .loaded curState =>
    if curState &&& stateMask = 0 ∧ s.state = curState then
      some { s.setPc t .held with state := stateLockFast ||| stateLockPoll }
    else some (s.setPc t .exchange)
  | .exchange =>
    let pc := if s.state &&& stateMask = 0 then .held else .check
    some { s.setPc t pc with state := stateLockSlow }
  | .check =>
    if s.state = stateLockSlow then
      some { s.setPc t .parked with queue := s.queue ++ [⟨t, addr, maskWriter⟩] }
    else some (s.setPc t .exchange)
  | .parked => none
  | .held =>
    let pc := if s.state &&& stateMask = stateLockSlow then .wake else .idle
    some { s.setPc t pc with state := 0 }
  | .wake =>
    some { state := s.state
           queue := s.queue.left addr maskWriter 1
           pcs := resume (update s.pcs t .idle) (s.queue.woken addr maskWriter 1) }

/-- A free mutex that nobody uses. -/
def Boot (s : State ι) : Prop := s.state = 0 ∧ s.queue = [] ∧ ∀ t, s.pcs t = .idle

def Runs (addr : BitVec 64) : State ι → Prop :=
  Reachable Boot fun s s' => ∃ t, s.step addr t = some s'

/-! ## The invariant -/

/-- The thread will look after the waiters: it wakes one, or it makes the byte slow. -/
def Pc.Restores (pc : Pc) : Prop := pc = .wake ∨ pc = .exchange

instance (pc : Pc) : Decidable pc.Restores := inferInstanceAs (Decidable (_ ∨ _))

structure Inv (addr : BitVec 64) (s : State ι) : Prop where
  word : s.state = 0 ∨ s.state = stateLockFast ||| stateLockPoll ∨ s.state = stateLockSlow
  locked : ∀ t, s.pcs t = .held → s.state ≠ 0
  owned : s.state ≠ 0 → ∃ t, s.pcs t = .held
  unique : ∀ t u, s.pcs t = .held → s.pcs u = .held → t = u
  labels : ∀ w ∈ s.queue, w.label = ⟨addr, maskWriter⟩
  nodup : s.queue.threads.Nodup
  parked : ∀ t, s.pcs t = .parked ↔ t ∈ s.queue.threads
  pending : s.queue ≠ [] → s.state = stateLockSlow ∨ ∃ t, (s.pcs t).Restores

section Steps

variable {addr : BitVec 64} {s s' : State ι} {t : ι} {pc : Pc}

omit [DecidableEq ι] in
/-- What the byte says of its three values. -/
theorem Inv.free_iff (inv : Inv addr s) : s.state &&& stateMask = 0 ↔ s.state = 0 := by
  rcases inv.word with word | word | word <;> rw [word] <;> decide

/-- A step that leaves the queue alone: the byte goes to `state` and the thread to `pc`. -/
theorem Inv.move (inv : Inv addr s) {state : BitVec 8}
    (word : state = 0 ∨ state = stateLockFast ||| stateLockPoll ∨ state = stateLockSlow)
    (notParked : s.pcs t ≠ .parked) (notParked' : pc ≠ .parked)
    (locked : ∀ u, update s.pcs t pc u = .held → state ≠ 0)
    (owned : state ≠ 0 → ∃ u, update s.pcs t pc u = .held)
    (unique : pc = .held → ∀ u, s.pcs u = .held → t = u)
    (pending : s.queue ≠ [] → state = stateLockSlow ∨
      ∃ u, (update s.pcs t pc u).Restores) :
    Inv addr { s.setPc t pc with state } := by
  refine ⟨word, locked, owned, fun u v heldU heldV => ?_, inv.labels, inv.nodup, fun u => ?_, pending⟩
  · change update s.pcs t pc u = .held at heldU
    change update s.pcs t pc v = .held at heldV
    by_cases hereU : u = t <;> by_cases hereV : v = t
    · rw [hereU, hereV]
    · rw [hereU, update_self] at heldU
      rw [update_of_ne hereV] at heldV
      rw [hereU, unique heldU v heldV]
    · rw [hereV, update_self] at heldV
      rw [update_of_ne hereU] at heldU
      rw [hereV, unique heldV u heldU]
    · rw [update_of_ne hereU] at heldU
      rw [update_of_ne hereV] at heldV
      exact inv.unique u v heldU heldV
  · change update s.pcs t pc u = .parked ↔ u ∈ s.queue.threads
    by_cases here : u = t
    · rw [here, update_self, ← inv.parked t]
      exact ⟨fun parked => absurd parked notParked', fun parked => absurd parked notParked⟩
    · rw [update_of_ne here]
      exact inv.parked u

theorem update_held (notHeld : s.pcs t ≠ .held) (owned : ∃ u, s.pcs u = .held) :
    ∃ u, update s.pcs t pc u = .held := by
  obtain ⟨u, held⟩ := owned
  have ne : u ≠ t := fun same => notHeld (same ▸ held)
  exact ⟨u, (update_of_ne ne _ _).trans held⟩

section

variable (inv : Inv addr s)

include inv

/-- A step that keeps the byte and the queue and takes the thread to no special place. -/
theorem Inv.setPc (here : s.pcs t = pc) (calm : pc ≠ .parked ∧ pc ≠ .held ∧ ¬pc.Restores) {pc' : Pc}
    (calm' : pc' ≠ .parked ∧ pc' ≠ .held) : Inv addr (s.setPc t pc') := by
  refine inv.move inv.word (here ▸ calm.1) calm'.1 (fun u held => ?_)
    (fun locked => update_held (here ▸ calm.2.1) (inv.owned locked))
    (fun held => absurd held calm'.2) fun waiting => (inv.pending waiting).imp_right ?_
  · by_cases same : u = t
    · rw [same, update_self] at held
      exact absurd held calm'.2
    · rw [update_of_ne same] at held
      exact inv.locked u held
  · rintro ⟨u, restores⟩
    refine ⟨u, ?_⟩
    have ne : u ≠ t := fun same => calm.2.2 (here ▸ same ▸ restores)
    rwa [update_of_ne ne]

theorem Inv.take (notParked : s.pcs t ≠ .parked) (free : s.state = 0) {state : BitVec 8}
    (word : state = stateLockFast ||| stateLockPoll ∨ state = stateLockSlow)
    (pending : s.queue ≠ [] → state = stateLockSlow ∨ ¬(s.pcs t).Restores) :
    Inv addr { s.setPc t .held with state } := by
  have nonzero : state ≠ 0 := by rcases word with rfl | rfl <;> decide
  refine inv.move (.inr word) notParked (by decide) (fun _ _ => nonzero)
    (fun _ => ⟨t, update_self _ _ _⟩)
    (fun _ u held => absurd free (inv.locked u held)) fun waiting => ?_
  rcases pending waiting with slow | not
  · exact .inl slow
  · obtain slow | ⟨u, restores⟩ := inv.pending waiting
    · exact absurd (slow.symm.trans free) (by decide)
    · have ne : u ≠ t := fun same => not (same ▸ restores)
      refine .inr ⟨u, ?_⟩
      rwa [update_of_ne ne]

theorem Inv.makeSlow (here : s.pcs t = .exchange) (locked : s.state ≠ 0) :
    Inv addr { s.setPc t .check with state := stateLockSlow } := by
  refine inv.move (.inr (.inr rfl)) (by rw [here]; decide) (by decide) (fun _ _ => by decide)
    (fun _ => update_held (by rw [here]; decide) (inv.owned locked))
    nofun fun _ => .inl rfl

theorem Inv.release (here : s.pcs t = .held) (pc : Pc)
    (which : pc = if s.state &&& stateMask = stateLockSlow then .wake else .idle) :
    Inv addr { s.setPc t pc with state := 0 } := by
  have calm : pc ≠ .parked ∧ pc ≠ .held := by
    rw [which]
    split <;> decide
  refine inv.move (.inl rfl) (by rw [here]; decide) calm.1 (fun u held => ?_)
    (fun nonzero => absurd rfl nonzero) (fun held => absurd held calm.2) fun waiting => .inr ?_
  · by_cases same : u = t
    · rw [same, update_self] at held
      exact absurd held calm.2
    · rw [update_of_ne same] at held
      exact absurd (inv.unique u t held here) same
  · by_cases slow : s.state = stateLockSlow
    · refine ⟨t, ?_⟩
      rw [update_self, which, slow]
      exact .inl rfl
    · obtain ⟨u, restores⟩ := (inv.pending waiting).resolve_left slow
      have ne : u ≠ t := fun same => by
        rw [same, here] at restores
        rcases restores with wake | exchange
        · cases wake
        · cases exchange
      refine ⟨u, ?_⟩
      rwa [update_of_ne ne]

theorem Inv.park (here : s.pcs t = .check) (slow : s.state = stateLockSlow) :
    Inv addr { s.setPc t .parked with queue := s.queue ++ [⟨t, addr, maskWriter⟩] } := by
  have fresh : t ∉ s.queue.threads := fun mem => by
    have := (inv.parked t).2 mem
    rw [here] at this
    cases this
  have others : ∀ u pc, pc ≠ .parked → update s.pcs t .parked u = pc → s.pcs u = pc := by
    intro u pc notParked at'
    by_cases same : u = t
    · rw [same, update_self] at at'
      exact absurd at'.symm notParked
    · rwa [update_of_ne same] at at'
  refine ⟨inv.word, fun u held => inv.locked u (others u _ (by decide) held),
    fun locked => update_held (by rw [here]; decide) (inv.owned locked),
    fun u v heldU heldV => inv.unique u v (others u _ (by decide) heldU)
      (others v _ (by decide) heldV), ?_, ?_, fun u => ?_, fun _ => .inl slow⟩
  · intro w mem
    rcases mem_append.1 mem with mem | last
    · exact inv.labels w mem
    · rw [mem_singleton.1 last]
  · rw [threads_append]
    exact nodup_append.2 ⟨inv.nodup, nodup_singleton _, fun u mem v last => by
      rw [mem_singleton.1 last]
      exact ne_of_mem_of_not_mem mem fresh⟩
  · rw [threads_append, mem_append, mem_singleton, ← inv.parked u]
    change update s.pcs t .parked u = .parked ↔ _
    by_cases same : u = t <;> simp [same]

omit [DecidableEq ι] in
/-- With the labels of the mutex a wake takes out somebody if there is anybody. -/
theorem Inv.woken_ne_nil (waiting : s.queue ≠ []) : s.queue.woken addr maskWriter 1 ≠ [] := by
  intro nobody
  obtain ⟨w, mem⟩ := exists_mem_of_ne_nil _ waiting
  have miss := woken_eq_nil Nat.one_pos nobody w mem
  have hit : w.label.matching addr maskWriter = true := by
    rw [inv.labels w mem, InlineFutex.Label.matching]
    simp [maskWriter]
  rw [hit] at miss
  cases miss

/-- The unlocker's wake: the woken thread takes over its duty. -/
theorem Inv.wakeOne (here : s.pcs t = .wake) :
    Inv addr ⟨s.state, s.queue.left addr maskWriter 1,
      resume (update s.pcs t .idle) (s.queue.woken addr maskWriter 1)⟩ := by
  have held : ∀ u, resume (update s.pcs t .idle) (s.queue.woken addr maskWriter 1) u =
      .held → s.pcs u = .held := by
    intro u held
    rw [resume] at held
    split at held
    · cases held
    · by_cases same : u = t
      · rw [same, update_self] at held
        cases held
      · rwa [update_of_ne same] at held
  refine ⟨inv.word, fun u at' => inv.locked u (held u at'), fun locked => ?_,
    fun u v heldU heldV => inv.unique u v (held u heldU) (held v heldV),
    fun w mem => inv.labels w (left_sublist.subset mem),
    inv.nodup.sublist (left_sublist.map _), fun u => ?_, fun waiting => .inr ?_⟩
  · obtain ⟨u, owner⟩ := inv.owned locked
    have ne : u ≠ t := fun same => by
      rw [same, here] at owner
      cases owner
    have notTaken : u ∉ s.queue.woken addr maskWriter 1 := fun taken => by
      have parked := (inv.parked u).2 (mem_threads_of_mem_woken taken)
      rw [owner] at parked
      cases parked
    refine ⟨u, ?_⟩
    change resume _ _ u = .held
    rwa [resume, if_neg notTaken, update_of_ne ne]
  · rw [mem_left_threads inv.nodup, ← inv.parked u]
    change resume _ _ u = .parked ↔ _
    rw [resume]
    split
    next taken =>
      exact ⟨fun parked => absurd parked (by decide), fun stays => absurd taken stays.2⟩
    next notTaken =>
      by_cases same : u = t
      · rw [same, update_self, here]
        exact ⟨fun parked => absurd parked (by decide), fun stays => absurd stays.1 (by decide)⟩
      · rw [update_of_ne same]
        exact ⟨fun parked => ⟨parked, notTaken⟩, fun stays => stays.1⟩
  · have nonempty : s.queue ≠ [] := fun none => waiting (by rw [none]; rfl)
    obtain ⟨u, taken⟩ := exists_mem_of_ne_nil _ (inv.woken_ne_nil nonempty)
    exact ⟨u, .inr (if_pos taken)⟩

/-- **Every step keeps the invariant.** -/
theorem Inv.step (taken : s.step addr t = some s') : Inv addr s' := by
  rw [State.step] at taken
  cases here : s.pcs t <;> simp only [here] at taken
  case idle =>
    cases taken
    exact inv.setPc here (by decide) (by simp)
  case loaded curState =>
    split at taken <;> cases taken
    next fast =>
      have free : s.state = 0 := inv.free_iff.1 (fast.2 ▸ fast.1)
      exact inv.take (by simp [here]) free (.inl rfl) fun _ => .inr (by simp [here, Pc.Restores])
    · exact inv.setPc here (by simp [Pc.Restores]) (by decide)
  case exchange =>
    cases taken
    split
    next free =>
      exact inv.take (by rw [here]; decide) (inv.free_iff.1 free) (.inr rfl) fun _ => .inl rfl
    next locked =>
      exact inv.makeSlow here (mt inv.free_iff.2 locked)
  case check =>
    split at taken <;> cases taken
    next slow =>
      exact inv.park here slow
    · exact inv.setPc here (by decide) (by decide)
  case parked =>
    cases taken
  case held =>
    cases taken
    exact inv.release here _ rfl
  case wake =>
    cases taken
    exact inv.wakeOne here

end

/-! ## What a step does to the threads, for the locks built on the mutex -/

section

variable (taken : s.step addr t = some s')

include taken

/-- A step of `t` moves another thread only by waking it. -/
theorem step_others (inv : Inv addr s) {u : ι} (ne : u ≠ t) :
    s'.pcs u = s.pcs u ∨ s.pcs u = .parked ∧ s'.pcs u = .exchange := by
  have frame : ∀ pc, update s.pcs t pc u = s.pcs u := fun pc =>
    update_of_ne ne _ _
  rw [State.step] at taken
  cases here : s.pcs t <;> simp only [here] at taken
  case wake =>
    cases taken
    by_cases woken : u ∈ s.queue.woken addr maskWriter 1
    · exact .inr ⟨(inv.parked u).2 (mem_threads_of_mem_woken woken), if_pos woken⟩
    · exact .inl ((if_neg woken).trans (frame _))
  case parked =>
    cases taken
  case idle | exchange | held =>
    cases taken
    exact .inl (frame _)
  case loaded | check =>
    split at taken <;> cases taken <;> exact .inl (frame _)

/-- A thread inside `wlock` stays inside it or becomes the owner. -/
theorem step_lock (locking : s.pcs t ≠ .held ∧ s.pcs t ≠ .wake) :
    s'.pcs t ≠ .wake ∧ s'.pcs t ≠ .idle := by
  have there : ∀ pc, update s.pcs t pc t = pc := fun pc => update_self _ _ _
  rw [State.step] at taken
  cases here : s.pcs t <;> simp only [here] at taken
  case held => exact absurd here locking.1
  case wake => exact absurd here locking.2
  case parked =>
    cases taken
  case idle =>
    cases taken
    simp [State.setPc]
  case exchange =>
    cases taken
    simp only [State.setPc, there]
    split <;> decide
  case loaded | check =>
    split at taken <;> cases taken <;> simp [State.setPc]

/-- The owner that unlocks has at most its wake left to do. -/
theorem step_unlock (inv : Inv addr s)
    (unlocking : s.pcs t = .held ∨ s.pcs t = .wake) : s'.pcs t = .wake ∨ s'.pcs t = .idle := by
  rw [State.step] at taken
  rcases unlocking with here | here <;> simp only [here] at taken
  · cases taken
    simp only [State.setPc, update_self]
    split
    · exact .inl rfl
    · exact .inr rfl
  · cases taken
    have notParked : t ∉ s.queue.woken addr maskWriter 1 := fun woken => by
      have := (inv.parked t).2 (mem_threads_of_mem_woken woken)
      rw [here] at this
      cases this
    exact .inr ((if_neg notParked).trans (update_self _ _ _))

end

omit [DecidableEq ι] in
theorem Boot.inv (boot : Boot s) : Inv addr s := by
  obtain ⟨word, queue, idle⟩ := boot
  refine ⟨.inl word, fun t held => ?_, fun locked => absurd word locked, fun t u held => ?_, ?_, ?_,
    fun t => ?_, fun waiting => ?_⟩
  · rw [idle t] at held
    cases held
  · rw [idle t] at held
    cases held
  · simp [queue]
  · simp [queue, threads]
  · simp [queue, threads, idle t]
  · exact absurd queue waiting

theorem Runs.inv (reached : Runs addr s) : Inv addr s :=
  reached.invariant (I := Inv addr) (fun _ boot => boot.inv) fun _ _ _ inv ⟨_, taken⟩ =>
    inv.step taken

end Steps

/-- **`StdMutex`.**  In every state that any interleaving of `lock` and `unlock` leads to,
at most one thread holds the mutex.  Whenever a thread is parked, the byte is the slow
value or an unlocker has its wake still to do or a thread its exchange; in particular a
free mutex with a parked thread has such a step outstanding. -/
theorem exclusive_and_no_lost_wakeup (addr : BitVec 64) (s : State ι) (reached : Runs addr s) :
    (∀ t u, s.pcs t = .held → s.pcs u = .held → t = u) ∧
    (∀ t, s.pcs t = .parked ↔ t ∈ s.queue.threads) ∧
    ((∃ t, s.pcs t = .parked) → s.state = stateLockSlow ∨
      ∃ u, s.pcs u = .wake ∨ s.pcs u = .exchange) ∧
    ((∃ t, s.pcs t = .parked) → (∀ u, s.pcs u ≠ .held) →
      ∃ u, s.pcs u = .wake ∨ s.pcs u = .exchange) := by
  have inv := reached.inv
  have pending : (∃ t, s.pcs t = .parked) → s.state = stateLockSlow ∨
      ∃ u, s.pcs u = .wake ∨ s.pcs u = .exchange := by
    rintro ⟨t, parked⟩
    have mem := (inv.parked t).1 parked
    exact inv.pending fun none => by
      rw [none] at mem
      cases mem
  refine ⟨inv.unique, inv.parked, pending, fun parked free => ?_⟩
  refine (pending parked).resolve_left fun slow => ?_
  obtain ⟨u, held⟩ := inv.owned (by rw [slow]; decide)
  exact free u held

def unused : State Bool := ⟨0, [], fun _ => .idle⟩

/-- One thread locks, the other parks, the owner has exchanged the byte with 0. -/
def beforeWake : Option (State Bool) :=
  [false, false, true, true, true, true, false].foldlM (State.step 7) unused

theorem beforeWake_runs {s : State Bool} (run : beforeWake = some s) : Runs 7 s :=
  Reachable.events (.start ⟨rfl, rfl, fun _ => rfl⟩) run

theorem beforeWake_not_lost :
    ∃ s, beforeWake = some s ∧ s.pcs true = .parked ∧ s.state = 0 ∧
      ∃ u, s.pcs u = .wake ∨ s.pcs u = .exchange := by
  refine ⟨_, rfl, rfl, rfl, ?_⟩
  exact (exclusive_and_no_lost_wakeup 7 _ (beforeWake_runs rfl)).2.2.2 ⟨true, rfl⟩ (by decide)

end MiniOsv.Sync.StdMutex
