/-
# Libc.Signal -- signal masks, waiter lists and the pending slot

A thread "waits" for a signal while it blocks it: `sigprocmask` enters the calling thread
in `waiters[i]` for every bit it blocks, and the mask says the same a second time.  `kill`
goes through the list of its signal, writes the signal into the one pending slot of every
thread there and is done if there was any.  `sigwait` waits until the slot is not 0.

`Agrees` says that mask and lists are one thing.  It holds as long as nobody blocks a
signal that it blocks already (`masks_agree_with_waiters`): `SIG_BLOCK` does not look at
the mask, and enters the thread a second time.

The sections of `waiters_mutex` exclude each other, and nobody but the thread itself
touches its mask and its entries in the lists, so a call of `sigprocmask` is one step.
-/
import MiniOsv.Theory.Transition
import Mathlib.Data.Set.Card

namespace MiniOsv.Libc.Signal

open Theory BitVec
open Function

def nsignals : ℕ := 64

/-- `std::bitset<nsignals>`; bit `i` is signal `i + 1`. -/
abbrev Sigset := BitVec 64

/-- Signal `signo` is in the set. -/
def Sigset.has (set : Sigset) (signo : ℕ) : Bool := set.getLsbD (signo - 1)

/-- `getpid()`. -/
def osvPid : ℤ := 2

inductive How where
  | block
  | unblock
  | setmask
  deriving DecidableEq

/-- What `is_sig_dfl` and `is_sig_ign` tell apart. -/
inductive Action where
  | dfl
  | ign
  | handler
  deriving DecidableEq

/-- Where a thread is. -/
inductive Pc where
  /-- Not started, or past its exit notifiers. -/
  | gone
  | running
  /-- In the `wait_until` of `sigwait(set)`. -/
  | waiting (set : Sigset)
  /-- The predicate has stored `signo` to `*sig`; the slot is not cleared yet. -/
  | taken (set : Sigset) (signo : ℕ)
  deriving DecidableEq

structure State (ι : Type) where
  mask : ι → Sigset
  waiters : ℕ → List ι
  /-- `thread_pending_signal`. -/
  pending : ι → ℕ
  actions : ℕ → Action
  pcs : ι → Pc
  /-- `osv::poweroff()` was called. -/
  off : Bool
  /-- The signals `kill` reported as delivered to the thread, oldest first. -/
  accepted : ι → List ℕ
  /-- What the thread's calls of `sigwait` returned, with their sets. -/
  returned : ι → List (ℕ × Sigset)

open State

def State.initial {ι : Type} : State ι where
  mask _ := 0
  waiters _ := []
  pending _ := 0
  actions _ := .dfl
  pcs _ := .gone
  off := false
  accepted _ := []
  returned _ := []

variable {ι : Type} [DecidableEq ι]

/-! ## The waiter lists -/

/-- `waiters[sigidx].push_front(thread::current())`. -/
def waitForSignal (t : ι) (list : List ι) : List ι := t :: list

/-- `waiters[sigidx].remove(t)`. -/
def unwaitForSignal (t : ι) (list : List ι) : List ι := list.filter (· ≠ t)

/-- A loop over all signals that changes the list of each. -/
def eachSignal (f : ℕ → List ι → List ι) (waiters : ℕ → List ι) : ℕ → List ι :=
  (List.range nsignals).foldl (fun w i => update w i (f i (w i))) waiters

omit [DecidableEq ι] in
theorem foldl_update (f : ℕ → List ι → List ι) (waiters : ℕ → List ι) (n i : ℕ) :
    (List.range n).foldl (fun w i => update w i (f i (w i))) waiters i =
      if i < n then f i (waiters i) else waiters i := by
  induction n with
  | zero => simp
  | succ n ih =>
    rw [List.range_succ, List.foldl_append, List.foldl_cons, List.foldl_nil]
    by_cases last : i = n
    · subst last
      rw [update_self, ih]
      simp
    · rw [update_of_ne last, ih]
      by_cases below : i < n
      · rw [if_pos below, if_pos (by omega)]
      · rw [if_neg below, if_neg (by omega)]

omit [DecidableEq ι] in
theorem eachSignal_apply (f : ℕ → List ι → List ι) (waiters : ℕ → List ι) {i : ℕ}
    (signal : i < nsignals) : eachSignal f waiters i = f i (waiters i) := by
  rw [eachSignal, foldl_update, if_pos signal]

namespace State

/-- `sigprocmask` by thread `t`, with the old mask. -/
def sigprocmask (s : State ι) (t : ι) (how : How) (set : Option Sigset) : Sigset × State ι :=
  (s.mask t,
    match set with
    | none => s
    | some set =>
      match how with
      | .block =>
        { s with
          waiters := eachSignal
            (fun i list => if set.getLsbD i then waitForSignal t list else list) s.waiters
          mask := update s.mask t (s.mask t ||| set) }
      | .unblock =>
        { s with
          waiters := eachSignal
            (fun i list => if set.getLsbD i then unwaitForSignal t list else list) s.waiters
          mask := update s.mask t (s.mask t &&& ~~~set) }
      | .setmask =>
        { s with
          waiters := eachSignal
            (fun i list =>
              let list := unwaitForSignal t list
              if set.getLsbD i then waitForSignal t list else list) s.waiters
          mask := update s.mask t set })

/-- The exit notifier. -/
def exitNotifier (s : State ι) (t : ι) : State ι :=
  if s.mask t = 0 then s
  else
    { s with
      waiters := eachSignal
        (fun i list => if (s.mask t).getLsbD i then unwaitForSignal t list else list) s.waiters }

/-- `wake_up_signal_waiters`: how many entries there were. -/
def wakeUpSignalWaiters (s : State ι) (signo : ℕ) : ℕ × State ι :=
  ((s.waiters (signo - 1)).length,
    { s with
      pending := (s.waiters (signo - 1)).foldl (fun p t => update p t signo) s.pending
      accepted := fun t =>
        if t ∈ s.waiters (signo - 1) then s.accepted t ++ [signo] else s.accepted t })

end State

/-- How `kill` ends. -/
inductive Killed where
  | esrch
  | einval
  /-- Signal 0 only tests the pid. -/
  | tested
  | poweroff
  | ignored
  /-- Returned 0 after waking threads that wait. -/
  | delivered
  /-- A new thread runs the handler. -/
  | handlerThread
  deriving DecidableEq

def State.kill (s : State ι) (pid sig : ℤ) : Killed × State ι :=
  if pid ≠ osvPid ∧ pid ≠ 0 ∧ pid ≠ -1 then (.esrch, s)
  else if sig = 0 then (.tested, s)
  else if sig < 0 ∨ (nsignals : ℤ) < sig then (.einval, s)
  else
    match s.actions (sig.toNat - 1) with
    | .dfl => (.poweroff, { s with off := true })
    | .ign => (.ignored, s)
    | .handler =>
      let woken := s.wakeUpSignalWaiters sig.toNat
      if woken.1 ≠ 0 then (.delivered, woken.2) else (.handlerThread, woken.2)

/-! ## Steps -/

inductive Event (ι : Type) where
  | create (t : ι)
  | exit (t : ι)
  | sigprocmask (t : ι) (how : How) (set : Option Sigset)
  | sigaction (signum : ℕ) (act : Action)
  | kill (pid sig : ℤ)
  | sigwait (t : ι) (set : Sigset)
  /-- The predicate of `sigwait` is evaluated, after a wake or without one. -/
  | look (t : ι)
  /-- `thread_pending_signal = 0`, and the return. -/
  | finish (t : ι)

def State.step (s : State ι) (event : Event ι) : Option (State ι) :=
  if s.off then none
  else
    match event with
    | .create t =>
      if s.pcs t = .gone then
        some { s with
               pcs := update s.pcs t .running
               mask := update s.mask t 0
               pending := update s.pending t 0
               accepted := update s.accepted t []
               returned := update s.returned t [] }
      else none
    | .exit t =>
      if s.pcs t = .running then
        some { s.exitNotifier t with pcs := update s.pcs t .gone }
      else none
    | .sigprocmask t how set =>
      if s.pcs t = .running then some (s.sigprocmask t how set).2 else none
    | .sigaction signum act =>
      -- Other numbers are refused with EINVAL.
      if 1 ≤ signum ∧ signum ≤ nsignals then
        some { s with actions := update s.actions (signum - 1) act }
      else some s
    | .kill pid sig => some (s.kill pid sig).2
    | .sigwait t set =>
      if s.pcs t = .running then some { s with pcs := update s.pcs t (.waiting set) }
      else none
    | .look t =>
      match s.pcs t with
      | .waiting set =>
        if s.pending t = 0 then some s
        else some { s with pcs := update s.pcs t (.taken set (s.pending t)) }
      | _ => none
    | .finish t =>
      match s.pcs t with
      | .taken set signo =>
        some { s with
               pcs := update s.pcs t .running
               pending := update s.pending t 0
               returned := update s.returned t (s.returned t ++ [(signo, set)]) }
      | _ => none

/-! ## Mask and lists -/

/-- **Mask and lists are one thing**: a live thread is once in the list of each signal it
blocks, and in no other list; a thread that is gone is in none. -/
def Agrees (s : State ι) : Prop :=
  ∀ t i, i < nsignals → (s.waiters i).count t =
    if s.pcs t ≠ .gone ∧ (s.mask t).getLsbD i = true then 1 else 0

theorem count_waitForSignal (t : ι) (list : List ι) (u : ι) :
    (waitForSignal t list).count u = list.count u + if u = t then 1 else 0 := by
  rw [waitForSignal, List.count_cons]
  by_cases same : u = t
  · simp [same]
  · simp [same, Ne.symm same]

theorem count_unwaitForSignal (t : ι) (list : List ι) (u : ι) :
    (unwaitForSignal t list).count u = if u = t then 0 else list.count u := by
  by_cases same : u = t
  · subst same
    rw [if_pos rfl, List.count_eq_zero]
    simp [unwaitForSignal]
  · rw [if_neg same, unwaitForSignal, List.count_filter (by simpa using same)]

namespace Agrees

variable {s s' : State ι}

section

variable (agrees : Agrees s)

include agrees

/-- What touches neither masks nor lists and starts or ends no thread. -/
theorem congr (waiters : s'.waiters = s.waiters) (mask : s'.mask = s.mask)
    (alive : ∀ t, s'.pcs t = .gone ↔ s.pcs t = .gone) : Agrees s' := by
  intro t i signal
  rw [waiters, mask, agrees t i signal]
  simp only [ne_eq, alive]

/-- **What thread `t` does to its own entries.** -/
theorem own {t : ι} {f : ℕ → List ι → List ι}
    (waiters : ∀ i, i < nsignals → s'.waiters i = f i (s.waiters i))
    (keeps : ∀ i list u, u ≠ t → (f i list).count u = list.count u)
    (others : ∀ u, u ≠ t → s'.mask u = s.mask u ∧ s'.pcs u = s.pcs u)
    (self : ∀ i, i < nsignals → (f i (s.waiters i)).count t =
      if s'.pcs t ≠ .gone ∧ (s'.mask t).getLsbD i = true then 1 else 0) : Agrees s' := by
  intro u i signal
  rw [waiters i signal]
  by_cases same : u = t
  · subst same
    exact self i signal
  · obtain ⟨mask, pc⟩ := others u same
    rw [keeps i _ u same, mask, pc]
    exact agrees u i signal

/-- **`sigprocmask` of thread `t`**: a new mask, and a change of its own entries. -/
theorem procmask {t : ι} {mask : Sigset} {f : ℕ → List ι → List ι}
    (running : s.pcs t = .running)
    (keeps : ∀ i list u, u ≠ t → (f i list).count u = list.count u)
    (self : ∀ i, i < nsignals →
      (f i (s.waiters i)).count t = if mask.getLsbD i = true then 1 else 0) :
    Agrees { s with waiters := eachSignal f s.waiters, mask := update s.mask t mask } := by
  refine agrees.own (t := t) (fun i signal => eachSignal_apply _ _ signal) keeps
    (fun u other => ⟨update_of_ne other _ _, rfl⟩) fun i signal => ?_
  simp [self i signal, running]

theorem block {t : ι} {set : Sigset} (running : s.pcs t = .running)
    (fresh : s.mask t &&& set = 0) : Agrees (s.sigprocmask t .block (some set)).2 := by
  refine agrees.procmask running (fun i list u other => ?_) fun i signal => ?_
  · split
    · rw [count_waitForSignal, if_neg other, Nat.add_zero]
    · rfl
  · have apart : ((s.mask t).getLsbD i && set.getLsbD i) = false := by
      rw [← getLsbD_and, fresh]
      exact getLsbD_zero
    rw [getLsbD_or]
    cases bit : set.getLsbD i with
    | true =>
      have unblocked : (s.mask t).getLsbD i = false := by simpa [bit] using apart
      rw [if_pos rfl, count_waitForSignal, agrees t i signal, unblocked]
      simp
    | false =>
      rw [if_neg (by decide), agrees t i signal, running, Bool.or_false]
      simp

theorem unblock {t : ι} {set : Sigset} (running : s.pcs t = .running) :
    Agrees (s.sigprocmask t .unblock (some set)).2 := by
  refine agrees.procmask running (fun i list u other => ?_) fun i signal => ?_
  · split
    · rw [count_unwaitForSignal, if_neg other]
    · rfl
  · have inside : i < 64 := signal
    rw [getLsbD_and, getLsbD_not]
    cases bit : set.getLsbD i with
    | true =>
      rw [if_pos rfl, count_unwaitForSignal, if_pos rfl]
      simp
    | false =>
      rw [if_neg (by decide), agrees t i signal, running]
      simp [inside]

theorem setmask {t : ι} {set : Sigset} (running : s.pcs t = .running) :
    Agrees (s.sigprocmask t .setmask (some set)).2 := by
  refine agrees.procmask running (fun i list u other => ?_) fun i signal => ?_ <;> dsimp only
  · split
    · rw [count_waitForSignal, count_unwaitForSignal, if_neg other, if_neg other, Nat.add_zero]
    · rw [count_unwaitForSignal, if_neg other]
  · split
    · rw [count_waitForSignal, count_unwaitForSignal, if_pos rfl, if_pos rfl]
    · rw [count_unwaitForSignal, if_pos rfl]

theorem exit (t : ι) (leaves : s'.waiters = (s.exitNotifier t).waiters)
    (mask : s'.mask = s.mask) (pcs : s'.pcs = update s.pcs t .gone) : Agrees s' := by
  refine agrees.own (t := t)
    (f := fun i list => if (s.mask t).getLsbD i then unwaitForSignal t list else list)
    (fun i signal => ?_) (fun i list u other => ?_)
    (fun u other => ⟨by rw [mask], by rw [pcs, update_of_ne other]⟩) fun i signal => ?_
  · rw [leaves, exitNotifier]
    split
    next none =>
      simp [none]
    · dsimp only
      rw [eachSignal_apply _ _ signal]
  · split
    · rw [count_unwaitForSignal, if_neg other]
    · rfl
  · have gone : ¬ (s'.pcs t ≠ .gone ∧ (s'.mask t).getLsbD i = true) := by
      rw [pcs, update_self]
      exact fun both => both.1 rfl
    rw [if_neg gone]
    split
    · rw [count_unwaitForSignal, if_pos rfl]
    next bit =>
      rw [agrees t i signal, if_neg fun both => bit both.2]

theorem create {t : ι} (gone : s.pcs t = .gone) (waiters : s'.waiters = s.waiters)
    (mask : s'.mask = update s.mask t 0) (pcs : s'.pcs = update s.pcs t .running) : Agrees s' := by
  intro u i signal
  have before := agrees u i signal
  rw [waiters, mask, pcs, before]
  by_cases same : u = t
  · subst same
    simp [gone]
  · simp [update_of_ne same]

end

end Agrees

omit [DecidableEq ι] in
theorem alive_update {pcs : ι → Pc} [DecidableEq ι] {t : ι} {pc : Pc} (before : pcs t ≠ .gone)
    (after : pc ≠ .gone) (u : ι) : update pcs t pc u = .gone ↔ pcs u = .gone := by
  by_cases same : u = t
  · subst same
    simp [before, after]
  · rw [update_of_ne same]

/-- `kill` starts and ends no thread and changes no mask and no list. -/
theorem kill_frame (s : State ι) (pid sig : ℤ) : (s.kill pid sig).2.waiters = s.waiters ∧
    (s.kill pid sig).2.mask = s.mask ∧ (s.kill pid sig).2.pcs = s.pcs := by
  rw [kill]
  split
  · exact ⟨rfl, rfl, rfl⟩
  · split
    · exact ⟨rfl, rfl, rfl⟩
    · split
      · exact ⟨rfl, rfl, rfl⟩
      · split
        · exact ⟨rfl, rfl, rfl⟩
        · exact ⟨rfl, rfl, rfl⟩
        · dsimp only
          split <;> exact ⟨rfl, rfl, rfl⟩

/-- The signals of a `SIG_BLOCK` are not blocked yet. -/
def Fresh (s : State ι) : Event ι → Prop
  | .sigprocmask t .block (some set) => s.mask t &&& set = 0
  | _ => True

/-- **One step.** -/
theorem Agrees.step {s s' : State ι} (agrees : Agrees s) {event : Event ι}
    (fresh : Fresh s event) (taken : s.step event = some s') : Agrees s' := by
  unfold State.step at taken
  split at taken
  · cases taken
  · cases event with dsimp only at taken
    | create t =>
      split at taken <;> cases taken
      next gone =>
        exact agrees.create gone rfl rfl rfl
    | exit t =>
      split at taken
      · have mask : (s.exitNotifier t).mask = s.mask := by
          rw [State.exitNotifier]
          split <;> rfl
        cases taken
        exact agrees.exit t rfl mask rfl
      · cases taken
    | sigprocmask t how set =>
      split at taken <;> cases taken
      next running =>
        cases set with
        | none => exact agrees
        | some set =>
          cases how with
          | block => exact agrees.block running fresh
          | unblock => exact agrees.unblock running
          | setmask => exact agrees.setmask running
    | sigaction signum act =>
      split at taken <;> cases taken <;> exact agrees.congr rfl rfl fun _ => Iff.rfl
    | kill pid sig =>
      obtain ⟨waiters, mask, pcs⟩ := kill_frame s pid sig
      cases taken
      exact agrees.congr waiters mask fun u => by rw [pcs]
    | sigwait t set =>
      split at taken <;> cases taken
      next running =>
        exact agrees.congr rfl rfl (alive_update (by simp [running]) (by simp))
    | look t =>
      split at taken
      next set waiting =>
        split at taken <;> cases taken
        · exact agrees
        · exact agrees.congr rfl rfl (alive_update (by simp [waiting]) (by simp))
      · cases taken
    | finish t =>
      split at taken <;> cases taken
      next set signo reading =>
        exact agrees.congr rfl rfl (alive_update (by simp [reading]) (by simp))

/-- The runs in which nobody blocks what it blocks already. -/
def FreshRuns : State ι → Prop :=
  Reachable (· = initial) fun s s' => ∃ event, Fresh s event ∧ s.step event = some s'

theorem FreshRuns.agrees {s : State ι} (run : FreshRuns s) : Agrees s :=
  run.invariant (by rintro _ rfl t i _; simp [initial])
    fun _ _ _ agrees ⟨_, fresh, taken⟩ => agrees.step fresh taken

/-- The entries of a list are as many as the threads that block its signal. -/
theorem Agrees.length_eq {s : State ι} (agrees : Agrees s) {i : ℕ} (signal : i < nsignals) :
    (s.waiters i).length = Set.ncard {t | s.pcs t ≠ .gone ∧ (s.mask t).getLsbD i = true} := by
  have nodup : (s.waiters i).Nodup := by
    rw [List.nodup_iff_count_le_one]
    intro t
    rw [agrees t i signal]
    split <;> decide
  have members : {t | s.pcs t ≠ .gone ∧ (s.mask t).getLsbD i = true} =
      ((s.waiters i).toFinset : Set ι) := by
    ext t
    have count := agrees t i signal
    rw [Finset.mem_coe, List.mem_toFinset, ← List.count_pos_iff, count]
    constructor
    · intro both
      rw [if_pos (show _ ∧ _ from both)]
      decide
    · intro pos
      by_contra not
      rw [if_neg (show ¬ (_ ∧ _) from not)] at pos
      cases pos
  rw [members, Set.ncard_coe_finset, List.toFinset_card_of_nodup nodup]

/-- **Mask and waiter lists agree**, and `wake_up_signal_waiters` counts threads. -/
theorem masks_agree_with_waiters {s : State ι} (run : FreshRuns s) :
    (∀ t i, i < nsignals → s.pcs t ≠ .gone →
      (s.waiters i).count t = if (s.mask t).getLsbD i = true then 1 else 0) ∧
    (∀ t i, i < nsignals → s.pcs t = .gone → t ∉ s.waiters i) ∧
    ∀ signo, 1 ≤ signo → signo ≤ nsignals → (s.wakeUpSignalWaiters signo).1 =
      Set.ncard {t | s.pcs t ≠ .gone ∧ (s.mask t).has signo = true} := by
  have agrees := run.agrees
  refine ⟨fun t i signal alive => ?_, fun t i signal gone => ?_, fun signo low high => ?_⟩
  · rw [agrees t i signal]
    simp [alive]
  · rw [← List.count_eq_zero, agrees t i signal]
    simp [gone]
  · exact agrees.length_eq (by omega)

/-- One thread blocks signal 1, then signals 2 and 3. -/
def twoBlocks : List (Event ℕ) :=
  [.create 0, .sigprocmask 0 .block (some 1), .sigprocmask 0 .block (some 6)]

theorem twoBlocks_agree :
    ∃ s : State ℕ, twoBlocks.foldlM step initial = some s ∧
      (s.wakeUpSignalWaiters 2).1 =
        Set.ncard {t | s.pcs t ≠ .gone ∧ (s.mask t).has 2 = true} := by
  refine ⟨_, rfl, (masks_agree_with_waiters ?_).2.2 2 (by decide) (by decide)⟩
  have first : FreshRuns (initial : State ℕ) := .start rfl
  have second := first.next ⟨.create 0, trivial, rfl⟩
  have third := second.next ⟨.sigprocmask 0 .block (some 1), rfl, rfl⟩
  exact third.next ⟨.sigprocmask 0 .block (some 6), rfl, rfl⟩

/-- One thread blocks signal 1 twice: it is in the list twice, and a `kill` would count
two threads where there is one. -/
theorem blockedTwice_listed_twice :
    ∃ s : State ℕ,
      Reachable (· = initial) (fun s s' => ∃ event, s.step event = some s') s ∧
      s.pcs 0 ≠ .gone ∧ (s.waiters 0).count 0 = 2 ∧ (s.wakeUpSignalWaiters 1).1 = 2 ∧
      ∀ t, s.pcs t ≠ .gone → t = 0 := by
  have run : [Event.create 0, .sigprocmask 0 .block (some 1),
      .sigprocmask 0 .block (some 1)].foldlM step (initial : State ℕ) = some _ := rfl
  refine ⟨_, Reachable.events (.start rfl) run, by decide, by decide, by decide, fun t alive => ?_⟩
  by_contra other
  exact alive (update_of_ne other _ _)

end MiniOsv.Libc.Signal
