/-
# Libc.Itimer -- setitimer, alarm and the alarm thread

An `itimer` keeps the next due time, the interval and the thread that asked for the alarm.
Its alarm thread sleeps in a condition wait with a timer armed for the due time it saw.
When it has the mutex again it asks only whether that timer expired, and then acts on the
fields as they are now.

A setting can therefore be replaced or cancelled between the expiry of the old timer and
the moment the alarm thread gets the mutex: the signal goes out for a setting that is gone
and uses up the new one.  A setting made by a signal handler does not say whose alarm it
is, so that there may be no owner to interrupt.

The abstract timer is the book of what was set, cancelled and signalled: `plan` is the
setting in force after a book, and a signal is `Proper` if the plan was due and it was
sent for this very setting.  `alarms_proper` says when the code keeps to that.

Times are integers.  The code has nanoseconds in 64 bits, so this is about times and settings
below 292 years.
-/
import Mathlib.Data.Int.Notation
import Mathlib.Tactic.Common
import MiniOsv.Theory.Transition

namespace MiniOsv.Libc.Itimer

open Theory Option

/-! ## The abstract timer -/

inductive Entry where
  | set (due interval : ℤ)
  | cancel
  /-- A signal, sent for the setting with number `account`. -/
  | signal (account : ℕ) (sentAt : ℤ)

/-- The number of the current setting; the newest entry stands first. -/
def settings : List Entry → ℕ
  | [] => 0
  | .signal _ _ :: book => settings book
  | .set _ _ :: book => settings book + 1
  | .cancel :: book => settings book + 1

/-- The next due time and the interval, if an alarm is set. -/
def plan : List Entry → Option (ℤ × ℤ)
  | [] => none
  | .set due interval :: _ => some (due, interval)
  | .cancel :: _ => none
  | .signal _ sentAt :: book =>
    (plan book).bind fun p => if p.2 ≠ 0 then some (sentAt + p.2, p.2) else none

/-- **Every signal was due and was sent for the setting in force.** -/
def Proper : List Entry → Prop
  | [] => True
  | .signal account sentAt :: book =>
    account = settings book ∧ (∃ p, plan book = some p ∧ p.1 ≤ sentAt) ∧ Proper book
  | .set _ _ :: book => Proper book
  | .cancel :: book => Proper book

/-! ## The code -/

structure Timeval where
  tvSec : ℤ
  tvUsec : ℤ

def Timeval.nanoseconds (tv : Timeval) : ℤ := tv.tvSec * 1000000000 + tv.tvUsec * 1000

structure Itimerval where
  itInterval : Timeval
  itValue : Timeval

/-- The alarm thread in `_cond.wait(_mutex, &tmr)`: the timer is armed for `time`, it may
have expired and the thread may have been woken. -/
structure Wait where
  account : ℕ
  time : ℤ
  expired : Bool
  woken : Bool

/-- Where the alarm thread is. -/
inductive Alarm where
  | notStarted
  /-- At the top of the loop, without the mutex. -/
  | loop
  | timed (wait : Wait)
  /-- In `_cond.wait(_mutex)`. -/
  | untimed (woken : Bool)

/-- `_cond.wake_one`. -/
def Alarm.wakeOne : Alarm → Alarm
  | .timed wait => .timed { wait with woken := true }
  | .untimed _ => .untimed true
  | alarm => alarm

/-- `_alarm_thread->start()`, once. -/
def Alarm.start : Alarm → Alarm
  | .notStarted => .loop
  | alarm => alarm

def noAlarm : ℤ := 0

/-- `crashed`: `_owner_thread` was null when it was dereferenced. -/
structure State (θ : Type) where
  clock : ℤ
  due : ℤ
  interval : ℤ
  ownerThread : Option θ
  alarm : Alarm
  book : List Entry
  crashed : Bool

inductive Event (θ : Type) where
  /-- `itimer::set` by thread `t`; `none` is a null pointer. -/
  | set (t : θ) (newValue : Option Itimerval)
  | cancelThisThread (t : θ)
  | tick (d : ℕ)
  | expire
  /-- The alarm thread has the mutex; `ignored` tells whether its signal is. -/
  | work (ignored : Bool)

namespace State

section

variable {θ : Type} (isSignalHandler : θ → Bool)

def cancel (s : State θ) (t : θ) : State θ :=
  { s with
    due := noAlarm
    interval := 0
    ownerThread := if isSignalHandler t then s.ownerThread else none
    alarm := s.alarm.wakeOne }

def setInterval (s : State θ) (tv : Timeval) : State θ := { s with interval := tv.nanoseconds }

def setValue (s : State θ) (t : θ) (tv : Timeval) : State θ :=
  { s with
    due := s.clock + tv.nanoseconds
    ownerThread := if isSignalHandler t then s.ownerThread else some t
    alarm := s.alarm.start.wakeOne }

def enterInBook (s : State θ) (entry : Entry) : State θ := { s with book := entry :: s.book }

/-- `itimer::set` behind the test for a null pointer. -/
def set (s : State θ) (t : θ) (newValue : Itimerval) : State θ :=
  if newValue.itValue.tvSec ≠ 0 ∨ newValue.itValue.tvUsec ≠ 0 then
    (((s.cancel isSignalHandler t).setInterval newValue.itInterval).setValue isSignalHandler t
      newValue.itValue).enterInBook
        (.set (s.clock + newValue.itValue.nanoseconds) newValue.itInterval.nanoseconds)
  else (s.cancel isSignalHandler t).enterInBook .cancel

/-- The timer has expired: the next due time, `kill` and `_owner_thread->interrupted`. -/
def ring (s : State θ) (account : ℕ) (ignored : Bool) : State θ :=
  { s with
    due := if s.interval ≠ 0 then s.clock + s.interval else noAlarm
    alarm := .loop
    book := .signal account s.clock :: s.book
    crashed := s.crashed || (!ignored && s.ownerThread.isNone) }

/-- The alarm thread up to its next release of the mutex. -/
def work (s : State θ) (ignored : Bool) : Option (State θ) :=
  match s.alarm with
  | .notStarted => none
  | .loop =>
    if s.due ≠ noAlarm then
      some { s with
        alarm := .timed
          { account := settings s.book, time := s.due, expired := false, woken := false } }
    else some { s with alarm := .untimed false }
  | .timed wait =>
    if wait.expired then some (s.ring wait.account ignored)
    else if wait.woken then some { s with alarm := .loop }
    else none
  | .untimed woken => if woken then some { s with alarm := .loop } else none

def expire (s : State θ) : Option (State θ) :=
  match s.alarm with
  | .timed wait =>
    if wait.time ≤ s.clock then some { s with alarm := .timed { wait with expired := true } }
    else none
  | _ => none

variable [DecidableEq θ]

def step (s : State θ) : Event θ → Option (State θ)
  | .set _ none => some s
  | .set t (some newValue) => some (s.set isSignalHandler t newValue)
  | .cancelThisThread t =>
    if s.ownerThread = some t then some ((s.cancel isSignalHandler t).enterInBook .cancel)
    else some s
  | .tick d => some { s with clock := s.clock + d }
  | .expire => s.expire
  | .work ignored => s.work ignored

end

def current {θ : Type} (s : State θ) : Option (ℤ × ℤ) :=
  if s.due ≠ noAlarm then some (s.due, s.interval) else none

structure Initial {θ : Type} (s : State θ) : Prop where
  due : s.due = noAlarm
  interval : s.interval = 0
  ownerThread : s.ownerThread = none
  alarm : s.alarm = .notStarted
  book : s.book = []
  crashed : s.crashed = false

end State

section

variable {θ : Type} (isSignalHandler : θ → Bool)

/-- The alarm thread's timer has expired, and it does not have the mutex yet. -/
def Alarm.Fired : Alarm → Prop
  | .timed wait => wait.expired = true
  | _ => False

/-- The alarm thread was woken from its timed wait, and it does not have the mutex yet. -/
def Alarm.Called : Alarm → Prop
  | .timed wait => wait.woken = true
  | _ => False

def Orderly (s : State θ) : Event θ → Prop
  | .set _ none => True
  | .set t (some newValue) =>
    ¬ s.alarm.Fired ∧
      (newValue.itValue.tvSec ≠ 0 ∨ newValue.itValue.tvUsec ≠ 0 →
        (isSignalHandler t = true → s.ownerThread ≠ none) ∧
          s.clock + newValue.itValue.nanoseconds ≠ noAlarm)
  | .cancelThisThread t => s.ownerThread = some t → ¬ s.alarm.Fired
  | .tick _ => True
  | .expire => ¬ s.alarm.Called
  | .work _ => s.alarm.Fired → s.interval ≠ 0 → s.clock + s.interval ≠ noAlarm

def OrderlyStep [DecidableEq θ] (s t : State θ) : Prop :=
  ∃ event, Orderly isSignalHandler s event ∧ s.step isSignalHandler event = some t

/-- The alarm thread will see that an alarm is set: it is on its way to the mutex, or its
timer is armed for the due time. -/
def Alarm.Attends (due : ℤ) : Alarm → Prop
  | .notStarted => False
  | .loop => True
  | .timed wait => wait.woken = true ∨ wait.time = due
  | .untimed woken => woken = true

/-- The timer keeps its book: the signals are proper, the fields are the plan, an alarm is
attended to, and the owner was there when it was needed. -/
structure Faithful (s : State θ) : Prop where
  proper : Proper s.book
  plan : plan s.book = s.current
  attended : s.due ≠ noAlarm → s.alarm.Attends s.due
  owner : s.crashed = false

/-! ## The invariant -/

/-- What the alarm thread's place says. -/
def Alarm.Fits (clock due : ℤ) (account : ℕ) : Alarm → Prop
  | .notStarted => due = noAlarm
  | .loop => True
  | .timed wait =>
    (wait.expired = true → wait.woken = false ∧ wait.time ≤ clock) ∧
      (wait.woken = false → wait.account = account ∧ wait.time = due ∧ due ≠ noAlarm)
  | .untimed woken => woken = false → due = noAlarm

structure Inv (s : State θ) : Prop where
  proper : Proper s.book
  plan : Itimer.plan s.book = s.current
  fits : s.alarm.Fits s.clock s.due (settings s.book)
  owned : s.due ≠ noAlarm → s.ownerThread ≠ none
  clean : s.crashed = false

theorem Inv.initial {s : State θ} (initial : s.Initial) : Inv s := by
  obtain ⟨due, interval, ownerThread, alarm, book, crashed⟩ := initial
  refine ⟨?_, ?_, ?_, fun set => absurd due set, crashed⟩
  · rw [book]
    trivial
  · rw [book, State.current, if_neg (not_not.mpr due)]
    rfl
  · rw [alarm]
    exact due

/-- A woken alarm thread fits any setting, if its timer had not expired. -/
theorem Alarm.Fits.wakeOne {alarm : Alarm} {clock due : ℤ} {account : ℕ}
    (fits : alarm.Fits clock due account) (calm : ¬ alarm.Fired) (due' : ℤ) (account' : ℕ)
    (started : alarm ≠ .notStarted ∨ due' = noAlarm) : alarm.wakeOne.Fits clock due' account' := by
  cases alarm with
  | notStarted => exact started.resolve_left fun no => no rfl
  | loop => trivial
  | timed wait =>
    exact ⟨fun expired => absurd expired calm, fun asleep => absurd asleep Bool.true_eq_false.mp⟩
  | untimed woken => exact fun asleep => absurd asleep Bool.true_eq_false.mp

theorem Alarm.Fits.start {alarm : Alarm} {clock due : ℤ} {account : ℕ}
    (fits : alarm.Fits clock due account) : alarm.start.Fits clock due account := by
  cases alarm with
  | notStarted => trivial
  | loop | timed _ | untimed _ => exact fits

theorem Alarm.start_fired {alarm : Alarm} (calm : ¬ alarm.Fired) : ¬ alarm.start.Fired := by
  cases alarm with
  | notStarted => exact id
  | loop | timed _ | untimed _ => exact calm

theorem Alarm.start_ne (alarm : Alarm) : alarm.start ≠ .notStarted := by
  cases alarm <;> exact nofun

theorem Alarm.Fits.tick {alarm : Alarm} {clock due : ℤ} {account : ℕ} (d : ℕ)
    (fits : alarm.Fits clock due account) : alarm.Fits (clock + d) due account := by
  cases alarm with
  | timed wait =>
    refine ⟨fun expired => ?_, fits.2⟩
    obtain ⟨asleep, reached⟩ := fits.1 expired
    exact ⟨asleep, by omega⟩
  | notStarted | loop | untimed _ => exact fits

namespace Inv

variable {isSignalHandler} {s : State θ}

section

variable (inv : Inv s)

include inv

theorem cancel (t : θ) (calm : ¬ s.alarm.Fired) :
    Inv ((s.cancel isSignalHandler t).enterInBook .cancel) where
  proper := inv.proper
  plan := rfl
  fits := inv.fits.wakeOne calm _ _ (.inr rfl)
  owned := fun set => absurd rfl set
  clean := inv.clean

theorem set {t : θ} {newValue : Itimerval} (calm : ¬ s.alarm.Fired)
    (orderly : newValue.itValue.tvSec ≠ 0 ∨ newValue.itValue.tvUsec ≠ 0 →
      (isSignalHandler t = true → s.ownerThread ≠ none) ∧
        s.clock + newValue.itValue.nanoseconds ≠ noAlarm) :
    Inv (s.set isSignalHandler t newValue) := by
  unfold State.set
  split
  case isFalse => exact inv.cancel t calm
  case isTrue given =>
    obtain ⟨handler, due⟩ := orderly given
    refine ⟨inv.proper, ?_, ?_, fun _ => ?_, inv.clean⟩
    · exact (if_pos due).symm
    · show (s.alarm.wakeOne.start.wakeOne).Fits _ _ _
      rw [show s.alarm.wakeOne.start.wakeOne = s.alarm.start.wakeOne by cases s.alarm <;> rfl]
      exact inv.fits.start.wakeOne (Alarm.start_fired calm) _ _ (.inl (Alarm.start_ne _))
    · simp only [State.enterInBook, State.setValue, State.setInterval, State.cancel]
      split
      case isTrue inside => exact handler inside
      case isFalse => exact some_ne_none t

/-- The alarm thread rings for the setting it armed its timer for, when it is due. -/
theorem ring {wait : Wait} (alarm : s.alarm = .timed wait) (expired : wait.expired = true)
    (ignored : Bool) (next : s.interval ≠ 0 → s.clock + s.interval ≠ noAlarm) :
    Inv (s.ring wait.account ignored) := by
  have fits := inv.fits
  rw [alarm] at fits
  obtain ⟨asleep, reached⟩ := fits.1 expired
  obtain ⟨account, time, set⟩ := fits.2 asleep
  have before : Itimer.plan s.book = some (s.due, s.interval) := inv.plan.trans (if_pos set)
  have owner : s.ownerThread.isNone = false :=
    isNone_eq_false_iff.mpr (isSome_iff_ne_none.mpr (inv.owned set))
  have proper : Proper (s.ring wait.account ignored).book :=
    ⟨account, ⟨_, before, time ▸ reached⟩, inv.proper⟩
  refine ⟨proper, ?_, trivial, fun _ => inv.owned set, ?_⟩
  · show (Itimer.plan s.book).bind _ = _
    rw [before, bind_some]
    by_cases again : s.interval ≠ 0
    · have due : (s.ring wait.account ignored).due = s.clock + s.interval := if_pos again
      rw [if_pos again, State.current, due, if_pos (next again)]
      rfl
    · have due : (s.ring wait.account ignored).due = noAlarm := if_neg again
      rw [if_neg again, State.current, due, if_neg (not_not.mpr rfl)]
  · simp [State.ring, inv.clean, owner]

theorem moved {alarm : Alarm} (fits : alarm.Fits s.clock s.due (settings s.book)) :
    Inv { s with alarm := alarm } :=
  ⟨inv.proper, inv.plan, fits, inv.owned, inv.clean⟩

theorem work {ignored : Bool} {t : State θ}
    (orderly : s.alarm.Fired → s.interval ≠ 0 → s.clock + s.interval ≠ noAlarm)
    (taken : s.work ignored = some t) : Inv t := by
  unfold State.work at taken
  cases alarm : s.alarm with rw [alarm] at taken
  | notStarted =>
    cases taken
  | loop =>
    dsimp only at taken
    split at taken
    case isTrue set =>
      cases taken
      exact inv.moved ⟨fun no => absurd no Bool.false_ne_true, fun _ => ⟨rfl, rfl, set⟩⟩
    case isFalse unset =>
      cases taken
      exact inv.moved fun _ => not_not.mp unset
  | timed wait =>
    dsimp only at taken
    split at taken
    case isTrue expired =>
      cases taken
      rw [alarm] at orderly
      exact inv.ring alarm expired ignored (orderly expired)
    case isFalse =>
      split at taken
      case isTrue =>
        cases taken
        exact inv.moved trivial
      case isFalse => cases taken
  | untimed woken =>
    dsimp only at taken
    split at taken
    case isTrue =>
      cases taken
      exact inv.moved trivial
    case isFalse => cases taken

theorem expire {t : State θ} (calm : ¬ s.alarm.Called) (taken : s.expire = some t) : Inv t := by
  unfold State.expire at taken
  have fits := inv.fits
  cases alarm : s.alarm with
  | timed wait =>
    rw [alarm] at taken fits calm
    dsimp only at taken
    split at taken
    case isTrue reached =>
      cases taken
      exact inv.moved ⟨fun _ => ⟨Bool.eq_false_iff.mpr calm, reached⟩, fits.2⟩
    case isFalse => cases taken
  | notStarted | loop | untimed _ =>
    rw [alarm] at taken
    cases taken

/-- **Every orderly step keeps the invariant.** -/
theorem step [DecidableEq θ] {t : State θ} (taken : OrderlyStep isSignalHandler s t) : Inv t := by
  obtain ⟨event, orderly, taken⟩ := taken
  cases event with
  | set t newValue =>
    cases newValue with
    | none => exact Option.some.inj taken ▸ inv
    | some newValue => exact Option.some.inj taken ▸ inv.set orderly.1 orderly.2
  | cancelThisThread t =>
    simp only [State.step] at taken
    split at taken
    case isTrue own => exact Option.some.inj taken ▸ inv.cancel t (orderly own)
    case isFalse => exact Option.some.inj taken ▸ inv
  | tick d =>
    cases taken
    exact ⟨inv.proper, inv.plan, inv.fits.tick d, inv.owned, inv.clean⟩
  | expire => exact inv.expire orderly taken
  | work ignored => exact inv.work orderly taken

theorem attended (set : s.due ≠ noAlarm) : s.alarm.Attends s.due := by
  have fits := inv.fits
  cases alarm : s.alarm with rw [alarm] at fits
  | notStarted =>
    exact set fits
  | loop => trivial
  | timed wait =>
    cases woken : wait.woken with
    | true => exact .inl woken
    | false => exact .inr (fits.2 woken).2.1
  | untimed woken =>
    cases woken with
    | true => rfl
    | false => exact absurd (fits rfl) set

end

end Inv

/-! ## Whole runs -/

/-- **The timer keeps its book** in every orderly run: no signal for a setting that is gone
or cancelled and none before its time, no setting lost, no null owner. -/
theorem alarms_proper [DecidableEq θ] (s : State θ)
    (reached : Reachable State.Initial (OrderlyStep isSignalHandler) s) : Faithful s := by
  have inv : Inv s :=
    reached.invariant (fun _ => Inv.initial) fun _ _ _ inv taken => inv.step taken
  exact ⟨inv.proper, inv.plan, inv.attended, inv.clean⟩

end

/-- Nothing has been set; the thread `true` runs signal handlers. -/
def quiet : State Bool :=
  { clock := 5, due := noAlarm, interval := 0, ownerThread := none, alarm := .notStarted
    book := [], crashed := false }

def once (seconds : ℤ) : Itimerval := ⟨⟨0, 0⟩, ⟨seconds, 0⟩⟩

theorem oneAlarm_proper :
    ∃ s : State Bool, Reachable State.Initial (OrderlyStep id) s ∧
      s.book = [.signal 1 1000000005, .set 1000000005 0] ∧ s.due = noAlarm ∧ Faithful s := by
  have begun : Reachable State.Initial (OrderlyStep id) quiet :=
    .start ⟨rfl, rfl, rfl, rfl, rfl, rfl⟩
  have set := begun.next ⟨.set false (some (once 1)), ⟨id, fun _ => by decide⟩, rfl⟩
  have armed := set.next ⟨.work false, fun fired => fired.elim, rfl⟩
  have later := armed.next ⟨.tick 1000000000, trivial, rfl⟩
  have expired := later.next ⟨.expire, Bool.false_ne_true, rfl⟩
  have rung := expired.next ⟨.work false, fun _ periodic => absurd rfl periodic, rfl⟩
  exact ⟨_, rung, rfl, rfl, alarms_proper id _ rung⟩

/-- Three runs.  An alarm is set anew when the old timer has expired: the signal is for the
old setting and the new one is gone.  An alarm is cancelled at that moment: the owner is
null.  A signal handler sets the first alarm: there is no owner. -/
theorem lateAlarm_rings :
    (∃ s, [.set false (some (once 1)), .work false, .tick 1000000000, .expire,
        .set false (some (once 10)), .work false].foldlM (State.step id) quiet = some s ∧
      s.clock = 1000000005 ∧ s.due = noAlarm ∧
      s.book = [.signal 1 1000000005, .set 11000000005 0, .set 1000000005 0] ∧
      ¬ Proper s.book) ∧
    (∃ s, [.set false (some (once 1)), .work false, .tick 1000000000, .expire,
        .cancelThisThread false, .work false].foldlM (State.step id) quiet = some s ∧
      s.crashed = true) ∧
    ∃ s, [.set true (some (once 1)), .work false, .tick 1000000000, .expire,
        .work false].foldlM (State.step id) quiet = some s ∧
      s.crashed = true := by
  refine ⟨⟨_, rfl, rfl, rfl, rfl, fun proper => ?_⟩, ⟨_, rfl, rfl⟩, ⟨_, rfl, rfl⟩⟩
  exact absurd proper.1 (by decide)

end MiniOsv.Libc.Itimer
