/-
# Sched.MigrationLock -- the counter behind migrate_disable and pinning

`_migration_lock_counter` of a thread counts its calls of `migrate_disable` that are not yet
matched, plus one if the thread is pinned.  `thread::pin(t, cpu)` makes a helper thread work on
the counter of `t`: on the CPU of `t` and with interrupts disabled, so that `t` cannot run, but
while the counter is not zero it adds one, sleeps with interrupts enabled and tries again.  `t`
itself changes the counter with a load and a store, and can be preempted in between.

The state is that of one thread `t` with any number of helpers.  `irq c` is the helper that has
disabled interrupts on CPU `c`; `t` takes steps only while its own CPU is not so occupied.
`disabled` (the unmatched calls) and `movedHeld` (a helper has moved `t` in spite of one) are not
in the code.  Each helper that sleeps has added one to the counter, and has before that taken
one off if it found `t` pinned; the balance of the counter is a sum over the helpers.
-/
import MiniOsv.Theory.Tally
import MiniOsv.Theory.Transition

namespace MiniOsv.Sched.MigrationLock

open Theory
open Function
open Option (ite_none_left_eq_some ite_none_right_eq_some)

set_option linter.unusedSectionVars false

/-! ## The model -/

/-- The place of a helper in `thread::pin(t, target)`; `removed` says that it found `t` pinned
and has taken the one for that off the counter. -/
inductive HelperPc
  | idle
  /-- Before the section, or moving after `t`. -/
  | follow
  | test
  | compare (removed : Bool)
  | loop (removed : Bool)
  | sleeping (removed : Bool)
  | assign (removed : Bool)
  | mark (removed : Bool)
  | move
  deriving DecidableEq, Repr

open HelperPc

structure Helper (Cpu : Type) where
  pc : HelperPc
  cpu : Cpu
  target : Cpu
  deriving DecidableEq, Repr

/-- The place of `t` in `migrate_disable`, `migrate_enable` and `thread::pin(target)` of itself. -/
inductive SelfPc (Cpu : Type)
  | run
  /-- `migrate_disable` (`up`) or `migrate_enable` has loaded the counter. -/
  | count (up : Bool) (loaded : ℤ)
  /-- `_pinned` was false, `migrate_disable` comes next; then it has loaded the counter. -/
  | disable (target : Cpu)
  | store (target : Cpu) (loaded : ℤ)
  | mark (target : Cpu)
  | place (target : Cpu)
  deriving DecidableEq, Repr

structure State (Cpu κ : Type) where
  counter : ℤ
  pinned : Bool
  cpu : Cpu
  self : SelfPc Cpu
  helpers : κ → Helper Cpu
  irq : Cpu → Option κ
  disabled : ℕ
  movedHeld : Bool

inductive Event (Cpu κ : Type)
  | migrateDisable
  | migrateEnable
  | pinSelf (target : Cpu)
  | goSelf
  | unpinSelf
  /-- The section of the helper of `unpin` by another thread. -/
  | unpinOther
  | pin (h : κ) (target : Cpu)
  /-- The next step of a helper; `movable` says that the status of `t` lets it be moved. -/
  | go (h : κ) (movable : Bool)

/-- The call of `migrate_disable` that `pin` has made and `_pinned` does not yet stand for. -/
def SelfPc.held {Cpu : Type} : SelfPc Cpu → ℕ
  | .mark _ => 1
  | _ => 0

def SelfPc.pinning {Cpu : Type} : SelfPc Cpu → Bool
  | .disable _ | .store _ _ | .mark _ => true
  | _ => false

/-- Neither that, nor between the load and the store of `migrate_disable` or `migrate_enable`. -/
def SelfPc.calm {Cpu : Type} : SelfPc Cpu → Bool
  | .run | .place _ => true
  | _ => false

/-- A value that was loaded is still in the counter, and `migrate_enable` matches a call. -/
def SelfPc.Fresh {Cpu : Type} (counter : ℤ) (disabled : ℕ) : SelfPc Cpu → Prop
  | .count up loaded => loaded = counter ∧ (up = false → 0 < disabled)
  | .store _ loaded => loaded = counter
  | _ => True

def pinCount (pinned : Bool) : ℕ := if pinned then 1 else 0

section Model

variable {Cpu κ : Type} [DecidableEq Cpu] [DecidableEq κ]

namespace State

def setHelper (s : State Cpu κ) (h : κ) (helper : Helper Cpu) : State Cpu κ :=
  { s with helpers := update s.helpers h helper }

def setPc (s : State Cpu κ) (h : κ) (pc : HelperPc) : State Cpu κ :=
  s.setHelper h { s.helpers h with pc := pc }

/-- Interrupts on the CPU of a helper are disabled by it, or enabled again. -/
def lockIrq (s : State Cpu κ) (h : κ) : State Cpu κ :=
  { s with irq := update s.irq (s.helpers h).cpu (some h) }

def unlockIrq (s : State Cpu κ) (h : κ) : State Cpu κ :=
  { s with irq := update s.irq (s.helpers h).cpu none }

def dropPin (s : State Cpu κ) : State Cpu κ :=
  if s.pinned then { s with pinned := false, counter := s.counter - 1 } else s

def go (s : State Cpu κ) (h : κ) (movable : Bool) : Option (State Cpu κ) :=
  let helper := s.helpers h
  match helper.pc with
  | .idle => none
  | .follow =>
    if s.irq helper.cpu = none then
      if helper.cpu = s.cpu then some ((s.lockIrq h).setPc h .test)
      else some (s.setHelper h { helper with cpu := s.cpu })
    else none
  | .test =>
    some ({ s with counter := s.counter - pinCount s.pinned }.setPc h (.compare s.pinned))
  | .compare removed =>
    if s.cpu = helper.target then
      some (({ s with counter := s.counter + 1, pinned := true }.unlockIrq h).setPc h .idle)
    else some (s.setPc h (.loop removed))
  | .loop removed =>
    if s.counter = 0 then some (s.setPc h (.assign removed))
    else some (({ s with counter := s.counter + 1 }.unlockIrq h).setPc h (.sleeping removed))
  | .sleeping removed =>
    if s.irq helper.cpu = none then
      some (({ s with counter := s.counter - 1 }.lockIrq h).setPc h (.loop removed))
    else none
  | .assign removed => some ({ s with counter := 1 }.setPc h (.mark removed))
  | .mark _ => some ({ s with pinned := true }.setPc h .move)
  | .move =>
    if movable then
      some (({ s with cpu := helper.target,
                      movedHeld := s.movedHeld || decide (0 < s.disabled + s.self.held) }.unlockIrq
              h).setPc h .idle)
    else some ((s.unlockIrq h).setPc h .idle)

def goSelf (s : State Cpu κ) : Option (State Cpu κ) :=
  match s.self with
  | .run => none
  | .count true loaded =>
    some { s with counter := loaded + 1, disabled := s.disabled + 1, self := .run }
  | .count false loaded =>
    some { s with counter := loaded - 1, disabled := s.disabled - 1, self := .run }
  | .disable target => some { s with self := .store target s.counter }
  | .store target loaded => some { s with counter := loaded + 1, self := .mark target }
  | .mark target => some { s with pinned := true, self := .place target }
  | .place target => some { s with cpu := target, self := .run }

def step (s : State Cpu κ) : Event Cpu κ → Option (State Cpu κ)
  | .pin h target =>
    if (s.helpers h).pc = .idle then some (s.setHelper h ⟨.follow, s.cpu, target⟩) else none
  | .go h movable => s.go h movable
  | event =>
    -- The other events run on the CPU of `t`.
    if s.irq s.cpu ≠ none then none
    else
      match event with
      | .goSelf => s.goSelf
      | .unpinOther => some s.dropPin
      | event =>
        if s.self ≠ .run then none
        else
          match event with
          | .migrateDisable => some { s with self := .count true s.counter }
          | .migrateEnable =>
            if 0 < s.disabled then some { s with self := .count false s.counter } else none
          | .pinSelf target =>
            some { s with self := if s.pinned then .place target else .disable target }
          | .unpinSelf => some s.dropPin
          | _ => none

/-- A thread that was never pinned and holds no migration lock. -/
def Initial (s : State Cpu κ) : Prop :=
  s.counter = 0 ∧ s.pinned = false ∧ s.self = .run ∧ (∀ h, (s.helpers h).pc = .idle) ∧
    (∀ c, s.irq c = none) ∧ s.disabled = 0 ∧ s.movedHeld = false

end State

/-! ## Which runs are balanced -/

/-- Interrupts are disabled. -/
def HelperPc.inSection : HelperPc → Bool
  | .test | .compare _ | .loop _ | .assign _ | .mark _ | .move => true
  | _ => false

def HelperPc.isSleeping : HelperPc → Bool
  | .sleeping _ => true
  | _ => false

def HelperPc.removed : HelperPc → Bool
  | .compare removed | .loop removed | .sleeping removed | .assign removed => removed
  | _ => false

namespace State

/-- `t` is not unpinned while a helper sleeps that has taken the one for the pin off the counter;
`t` is not moved while another helper sleeps; and no helper begins or resumes its section while
`t` is about to pin itself, or changes the counter. -/
def Allowed (s : State Cpu κ) : Event Cpu κ → Prop
  | .unpinSelf => ∀ h, (s.helpers h).pc ≠ .sleeping true
  | .unpinOther => (∀ h, (s.helpers h).pc ≠ .sleeping true) ∧ ∀ up loaded, s.self ≠ .count up loaded
  | .goSelf => ∀ target, s.self = .place target → target ≠ s.cpu →
      ∀ h, (s.helpers h).pc.isSleeping = false
  | .go h _ =>
    ((s.helpers h).pc = .move → ∀ j, (s.helpers j).pc.isSleeping = false) ∧
      ((s.helpers h).pc = .follow ∨ (s.helpers h).pc.isSleeping = true → s.self.calm = true)
  | _ => True

def ReachedAllowed (s : State Cpu κ) : Prop :=
  Reachable Initial (fun s t => ∃ event, s.Allowed event ∧ s.step event = some t) s

end State

/-! ## The invariant -/

/-- What a helper has added and not yet taken off. -/
def HelperPc.holds : HelperPc → ℕ
  | .sleeping removed | .mark removed => 1 - pinCount removed
  | _ => 0

/-- What a helper has taken off and not yet put back. -/
def HelperPc.taken : HelperPc → ℕ
  | .compare removed | .loop removed | .assign removed => pinCount removed
  | _ => 0

namespace State

/-- What the helper in the section knows. -/
def Knows (s : State Cpu κ) : HelperPc → Prop
  | .compare removed => s.pinned = removed
  | .assign _ => s.counter = 0
  | .mark removed => s.pinned = removed ∧ s.disabled = 0
  | .move => s.disabled = 0
  | _ => True

end State

structure Inv [Fintype κ] (s : State Cpu κ) : Prop where
  balance : s.counter + tally (fun h : Helper Cpu => h.pc.taken) s.helpers =
    s.disabled + s.self.held + pinCount s.pinned + tally (fun h : Helper Cpu => h.pc.holds) s.helpers
  locked : ∀ c h, s.irq c = some h ↔ (s.helpers h).pc.inSection = true ∧ (s.helpers h).cpu = c
  together : ∀ h, (s.helpers h).pc.inSection = true ∨ (s.helpers h).pc.isSleeping = true →
    (s.helpers h).cpu = s.cpu
  removed : ∀ h, (s.helpers h).pc.removed = true → s.pinned = true
  calm : ∀ h, (s.helpers h).pc.inSection = true → s.self.calm = true
  unpinned : s.self.pinning = true → s.pinned = false
  fresh : s.self.Fresh s.counter s.disabled
  knows : ∀ h, s.Knows (s.helpers h).pc
  moved : s.movedHeld = false

variable [Fintype κ] {s s' : State Cpu κ} {h : κ}

variable {pc : HelperPc}

theorem HelperPc.knows_of_outside (outside : pc.inSection = false) (s : State Cpu κ) :
    s.Knows pc := by
  cases pc <;> trivial

theorem HelperPc.taken_of_outside (outside : pc.inSection = false) : pc.taken = 0 := by
  cases pc <;> first | rfl | cases outside

/-- While the CPU of `t` is not occupied, no helper is in its section. -/
theorem Inv.quiet (inv : Inv s) (free : s.irq s.cpu = none) (j : κ) :
    (s.helpers j).pc.inSection = false := by
  rw [Bool.eq_false_iff]
  intro inside
  have occupied := (inv.locked s.cpu j).2 ⟨inside, inv.together j (.inl inside)⟩
  rw [free] at occupied
  cases occupied

theorem Inv.alone (inv : Inv s) (inside : (s.helpers h).pc.inSection = true) {j : κ} (ne : j ≠ h) :
    (s.helpers j).pc.inSection = false := by
  rw [Bool.eq_false_iff]
  intro other
  have mine := (inv.locked s.cpu h).2 ⟨inside, inv.together h (.inl inside)⟩
  have its := (inv.locked s.cpu j).2 ⟨other, inv.together j (.inl other)⟩
  exact ne (Option.some.inj (its.symm.trans mine))

/-! ## Steps of the thread -/

variable {counter : ℤ}

/-- A step on the CPU of `t` that is not occupied. -/
theorem Inv.thread (inv : Inv s) (free : s.irq s.cpu = none) {pinned : Bool} {cpu : Cpu}
    {self : SelfPc Cpu} {disabled : ℕ}
    (balance : counter - (disabled + self.held + pinCount pinned) =
      s.counter - (s.disabled + s.self.held + pinCount s.pinned))
    (stays : cpu = s.cpu ∨ ∀ j, (s.helpers j).pc.isSleeping = false)
    (keeps : (s.pinned = true → pinned = true) ∨ ∀ j, (s.helpers j).pc ≠ .sleeping true)
    (unpinned : self.pinning = true → pinned = false)
    (fresh : self.Fresh counter disabled) :
    Inv { s with counter := counter, pinned := pinned, cpu := cpu, self := self,
                 disabled := disabled } := by
  have quiet := inv.quiet free
  refine ⟨?_, inv.locked, ?_, ?_, ?_, unpinned, fresh, ?_, inv.moved⟩
  · have old := inv.balance
    show counter + tally (fun h : Helper Cpu => h.pc.taken) s.helpers =
      disabled + self.held + pinCount pinned + tally (fun h : Helper Cpu => h.pc.holds) s.helpers
    omega
  · rintro j (inside | asleep)
    · rw [quiet j] at inside
      cases inside
    · rcases stays with same | none
      · exact (inv.together j (.inr asleep)).trans same.symm
      · rw [none j] at asleep
        cases asleep
  · intro j removed
    rcases keeps with mono | none
    · exact mono (inv.removed j removed)
    · -- Only a sleeping helper can have removed the pin.
      have outside := quiet j
      have awake := none j
      have took : (s.helpers j).pc.removed = true := removed
      cases pc : (s.helpers j).pc <;> rw [pc] at took outside awake <;>
        simp_all [HelperPc.removed, HelperPc.inSection]
  · intro j inside
    rw [quiet j] at inside
    cases inside
  · intro j
    exact HelperPc.knows_of_outside (quiet j) _

theorem Inv.dropPin (inv : Inv s) (free : s.irq s.cpu = none)
    (allowed : ∀ j, (s.helpers j).pc ≠ .sleeping true)
    (still : ∀ up loaded, s.self ≠ .count up loaded) : Inv s.dropPin := by
  unfold State.dropPin
  split
  case isTrue isPinned =>
    refine inv.thread free ?_ (.inl rfl) (.inr allowed) (fun _ => rfl) ?_
    · simp only [pinCount, isPinned, if_true, Bool.false_eq_true, if_false]
      omega
    · -- A pinned thread that has loaded the counter is in `migrate_disable` or `migrate_enable`.
      cases self : s.self with
      | count up loaded => exact absurd self (still up loaded)
      | store target loaded =>
        have unpinned := inv.unpinned (by rw [self]; rfl)
        rw [isPinned] at unpinned
        cases unpinned
      | _ => trivial
  case isFalse => exact inv

/-! ## Steps of a helper -/

theorem tally_setPc (f : HelperPc → ℕ) (helpers : κ → Helper Cpu) (h : κ) (helper : Helper Cpu) :
    tally (fun h : Helper Cpu => f h.pc) (update helpers h helper) + f (helpers h).pc =
      tally (fun h : Helper Cpu => f h.pc) helpers + f helper.pc :=
  tally_update (fun h : Helper Cpu => f h.pc) helpers h helper

/-- One helper takes a step while all others are outside of their sections. -/
theorem Inv.helper (inv : Inv s) {helper : Helper Cpu} {pinned : Bool} {cpu : Cpu}
    {irq : Cpu → Option κ} {movedHeld : Bool}
    (others : ∀ j, j ≠ h → (s.helpers j).pc.inSection = false)
    (calm : s.self.calm = true)
    (balance : counter + helper.pc.taken - (helper.pc.holds + pinCount pinned) =
      s.counter + (s.helpers h).pc.taken - ((s.helpers h).pc.holds + pinCount s.pinned))
    (keeps : s.pinned = true → pinned = true) (removed : helper.pc.removed = true → pinned = true)
    (locked : ∀ c j, irq c = some j ↔ j = h ∧ helper.pc.inSection = true ∧ helper.cpu = c)
    (together : helper.pc.inSection = true ∨ helper.pc.isSleeping = true → helper.cpu = cpu)
    (stays : cpu = s.cpu ∨ ∀ j, (s.helpers j).pc.isSleeping = false)
    (knows : State.Knows { s with counter := counter, pinned := pinned } helper.pc)
    (moved : movedHeld = false) :
    Inv { s with counter := counter, pinned := pinned, cpu := cpu, irq := irq, movedHeld := movedHeld,
                 helpers := update s.helpers h helper } := by
  have taken := tally_setPc taken s.helpers h helper
  have holds := tally_setPc holds s.helpers h helper
  have each : ∀ j, j = h ∧ update s.helpers h helper j = helper ∨
      j ≠ h ∧ update s.helpers h helper j = s.helpers j := fun j => by
    rcases eq_or_ne j h with rfl | ne
    · exact .inl ⟨rfl, update_self ..⟩
    · exact .inr ⟨ne, update_of_ne ne ..⟩
  refine ⟨?_, fun c j => ?_, fun j => ?_, fun j => ?_, fun j => ?_, fun window => ?_,
    ?_, fun j => ?_, moved⟩ <;> dsimp only
  · have old := inv.balance
    omega
  · rcases each j with ⟨rfl, eq⟩ | ⟨ne, eq⟩ <;> rw [eq, locked c j]
    · simp
    · simp [others j ne, ne]
  · rcases each j with ⟨rfl, eq⟩ | ⟨ne, eq⟩ <;> rw [eq]
    · exact together
    · rw [others j ne]
      rintro (inside | asleep)
      · cases inside
      · rcases stays with stay | none
        · exact (inv.together j (.inr asleep)).trans stay.symm
        · rw [none j] at asleep
          cases asleep
  · rcases each j with ⟨rfl, eq⟩ | ⟨ne, eq⟩ <;> rw [eq]
    · exact removed
    · exact fun took => keeps (inv.removed j took)
  · exact fun _ => calm
  · cases self : s.self <;> simp [self, SelfPc.calm, SelfPc.pinning] at calm window
  · cases self : s.self with
    | run | place => trivial
    | _ => rw [self] at calm; cases calm
  · rcases each j with ⟨rfl, eq⟩ | ⟨ne, eq⟩ <;> rw [eq]
    · exact knows
    · exact knows_of_outside (others j ne) _

theorem Inv.act (inv : Inv s) {old : HelperPc} (here : (s.helpers h).pc = old)
    (inside : old.inSection = true) {pinned : Bool} (inside' : pc.inSection = true)
    (balance : counter + pc.taken - (pc.holds + pinCount pinned) =
      s.counter + old.taken - (old.holds + pinCount s.pinned))
    (keeps : s.pinned = true → pinned = true) (removed : pc.removed = true → pinned = true)
    (knows : State.Knows { s with counter := counter, pinned := pinned } pc) :
    Inv ({ s with counter := counter, pinned := pinned }.setPc h pc) := by
  subst here
  refine inv.helper (fun j ne => inv.alone inside ne) (inv.calm h inside) balance keeps removed
    (fun c j => ?_) (fun _ => inv.together h (.inl inside)) (.inl rfl) knows inv.moved
  simp only [inside', true_and]
  constructor
  · intro occupied
    obtain ⟨other, here⟩ := (inv.locked c j).1 occupied
    by_cases same : j = h
    · exact ⟨same, same ▸ here⟩
    · rw [inv.alone inside same] at other
      cases other
  · rintro ⟨rfl, here⟩
    exact (inv.locked c j).2 ⟨inside, here⟩

theorem Inv.leave (inv : Inv s) {old : HelperPc} (here : (s.helpers h).pc = old)
    (inside : old.inSection = true) {pinned : Bool} {cpu : Cpu} {movedHeld : Bool}
    (outside : pc.inSection = false)
    (balance : counter + pc.taken - (pc.holds + pinCount pinned) =
      s.counter + old.taken - (old.holds + pinCount s.pinned))
    (keeps : s.pinned = true → pinned = true) (removed : pc.removed = true → pinned = true)
    (stays : cpu = s.cpu ∨ pc.isSleeping = false ∧ ∀ j, (s.helpers j).pc.isSleeping = false)
    (moved : movedHeld = false) :
    Inv (({ s with counter := counter, pinned := pinned, cpu := cpu,
                   movedHeld := movedHeld }.unlockIrq h).setPc h pc) := by
  subst here
  refine inv.helper (fun j ne => inv.alone inside ne) (inv.calm h inside) balance keeps removed
    (fun c j => ?_) (fun busy => ?_) (stays.imp_right And.right) (knows_of_outside outside _) moved
  · show update s.irq (s.helpers h).cpu none c = some j ↔ _
    simp only [outside, Bool.false_eq_true, false_and, and_false, iff_false]
    by_cases here : c = (s.helpers h).cpu
    · subst here
      rw [update_self]
      simp
    · rw [update_of_ne here]
      intro occupied
      obtain ⟨other, at_⟩ := (inv.locked c j).1 occupied
      by_cases same : j = h
      · exact here (by rw [← at_, same])
      · rw [inv.alone inside same] at other
        cases other
  · rcases stays with stay | ⟨awake, -⟩
    · exact (inv.together h (.inl inside)).trans stay.symm
    · simp [outside, awake] at busy

theorem Inv.enter (inv : Inv s) (free : s.irq (s.helpers h).cpu = none) (here : (s.helpers h).cpu = s.cpu)
    (calm : s.self.calm = true) (inside : pc.inSection = true)
    (balance : counter + pc.taken - (pc.holds + pinCount s.pinned) =
      s.counter + (s.helpers h).pc.taken - ((s.helpers h).pc.holds + pinCount s.pinned))
    (removed : pc.removed = true → s.pinned = true)
    (knows : State.Knows { s with counter := counter } pc) :
    Inv (({ s with counter := counter }.lockIrq h).setPc h pc) := by
  have quiet := inv.quiet (here ▸ free)
  refine inv.helper (fun j _ => quiet j) calm balance id removed (fun c j => ?_)
    (fun _ => here) (.inl rfl) knows inv.moved
  show update s.irq (s.helpers h).cpu (some h) c = some j ↔ _
  simp only [inside, true_and]
  by_cases at_ : c = (s.helpers h).cpu
  · subst at_
    rw [update_self]
    exact ⟨fun own => ⟨(Option.some.inj own).symm, rfl⟩, fun own => congrArg some own.1.symm⟩
  · rw [update_of_ne at_]
    constructor
    · intro occupied
      have other := ((inv.locked c j).1 occupied).1
      rw [quiet j] at other
      cases other
    · rintro ⟨-, same⟩
      exact absurd same.symm at_

section

variable (inv : Inv s)

include inv

/-- A helper outside of its section starts, or moves after `t`. -/
theorem Inv.outside {helper : Helper Cpu} (idle : (s.helpers h).pc = .idle ∨
    (s.helpers h).pc = .follow) (follows : helper.pc = .follow) : Inv (s.setHelper h helper) := by
  have same : ∀ j, ((s.setHelper h helper).helpers j).pc.inSection = (s.helpers j).pc.inSection ∧
      ((s.setHelper h helper).helpers j).pc.isSleeping = (s.helpers j).pc.isSleeping ∧
      ((s.setHelper h helper).helpers j).pc.removed = (s.helpers j).pc.removed ∧
      ((s.helpers j).pc.inSection = true ∨ (s.helpers j).pc.isSleeping = true →
        (s.setHelper h helper).helpers j = s.helpers j) := by
    intro j
    by_cases own : j = h
    · subst own
      simp only [State.setHelper, update_self, follows]
      rcases idle with pc | pc <;> rw [pc] <;> simp [HelperPc.inSection, HelperPc.isSleeping,
        HelperPc.removed]
    · simp [State.setHelper, own]
  have taken := tally_setPc HelperPc.taken s.helpers h helper
  have holds := tally_setPc HelperPc.holds s.helpers h helper
  have none : (s.helpers h).pc.taken = 0 ∧ (s.helpers h).pc.holds = 0 := by
    rcases idle with pc | pc <;> rw [pc] <;> exact ⟨rfl, rfl⟩
  rw [none.1, follows, show HelperPc.follow.taken = 0 from rfl] at taken
  rw [none.2, follows, show HelperPc.follow.holds = 0 from rfl] at holds
  refine ⟨?_, fun c j => ?_, fun j busy => ?_, fun j took => ?_, fun j inside => ?_, inv.unpinned,
    inv.fresh, fun j => ?_, inv.moved⟩
  · have old := inv.balance
    show s.counter + tally (fun h : Helper Cpu => h.pc.taken) (update s.helpers h helper) =
      s.disabled + s.self.held + pinCount s.pinned +
        tally (fun h : Helper Cpu => h.pc.holds) (update s.helpers h helper)
    omega
  · obtain ⟨inside, -, -, fixed⟩ := same j
    rw [inside]
    refine (inv.locked c j).trans (and_congr_right fun isInside => ?_)
    rw [fixed (.inl isInside)]
  · obtain ⟨inside, asleep, -, fixed⟩ := same j
    rw [inside, asleep] at busy
    rw [fixed busy]
    exact inv.together j busy
  · rw [(same j).2.2.1] at took
    exact inv.removed j took
  · rw [(same j).1] at inside
    exact inv.calm j inside
  · obtain ⟨inside, -, -, fixed⟩ := same j
    by_cases isInside : (s.helpers j).pc.inSection = true
    · rw [fixed (.inl isInside)]
      exact inv.knows j
    · rw [Bool.not_eq_true] at isInside
      exact HelperPc.knows_of_outside (inside.trans isInside) _

/-- Only the helper in the section has taken something off. -/
theorem Inv.taken_eq (inside : (s.helpers h).pc.inSection = true) :
    tally (fun h : Helper Cpu => h.pc.taken) s.helpers = (s.helpers h).pc.taken := by
  refine Finset.sum_eq_single h (fun j _ ne => ?_) fun absent => absurd (Finset.mem_univ h) absent
  exact taken_of_outside (inv.alone inside ne)

theorem Inv.taken_le : tally (fun h : Helper Cpu => h.pc.taken) s.helpers ≤ pinCount s.pinned := by
  by_cases some_ : ∃ j, (s.helpers j).pc.inSection = true
  · obtain ⟨j, inside⟩ := some_
    have pinned := inv.removed j
    rw [inv.taken_eq inside]
    cases pc : (s.helpers j).pc with
    | compare removed | loop removed | assign removed =>
      rw [pc] at pinned
      cases removed with
      | true =>
        rw [pinned rfl]
        exact le_refl _
      | false => exact Nat.zero_le _
    | _ => exact Nat.zero_le _
  · have none : tally (fun h : Helper Cpu => h.pc.taken) s.helpers = 0 := tally_eq_zero.2 fun j =>
      taken_of_outside (Bool.eq_false_iff.2 fun inside => some_ ⟨j, inside⟩)
    rw [none]
    exact Nat.zero_le _

/-- A counter that the helper in the section finds at zero: nobody else adds to it. -/
theorem Inv.assigns {removed : Bool} (pc : (s.helpers h).pc = .assign removed) :
    s.disabled = 0 ∧ s.pinned = removed := by
  have inside : (s.helpers h).pc.inSection = true := by rw [pc]; rfl
  have zero : s.counter = 0 := by
    have knows := inv.knows h
    rwa [pc] at knows
  have only : tally (fun h : Helper Cpu => h.pc.taken) s.helpers = pinCount removed := by
    rw [inv.taken_eq inside, pc]
    rfl
  have balance := inv.balance
  have pinned := inv.removed h
  rw [only, zero] at balance
  rw [pc] at pinned
  cases removed with
  | true =>
    rw [pinned rfl] at balance ⊢
    simp only [pinCount, if_true] at balance
    exact ⟨by omega, rfl⟩
  | false =>
    simp only [pinCount, Bool.false_eq_true, if_false] at balance
    refine ⟨by omega, ?_⟩
    by_contra isPinned
    rw [Bool.not_eq_false] at isPinned
    rw [isPinned] at balance
    simp only [if_true] at balance
    omega

attribute [local simp] taken holds pinCount in
theorem Inv.go {movable : Bool} (allowed : s.Allowed (.go h movable))
    (result : s.go h movable = some s') : Inv s' := by
  obtain ⟨still, calm⟩ := allowed
  have knows := inv.knows h
  have took := inv.removed h
  unfold State.go at result
  dsimp only at result
  split at result
  case h_1 => cases result
  case h_2 pc =>
    split at result
    case isFalse => cases result
    case isTrue free =>
      split at result
      case isTrue here =>
        cases result
        exact inv.enter free here (calm (.inl pc)) rfl (by rw [pc]; rfl) nofun trivial
      case isFalse =>
        cases result
        exact inv.outside (.inr pc) pc
  case h_3 pc =>
    cases result
    refine inv.act pc rfl rfl ?_ id id rfl
    simp only [taken, holds]
    omega
  case h_4 removed pc =>
    rw [pc] at knows took
    split at result
    case isTrue =>
      cases result
      have isPinned : s.pinned = removed := knows
      refine inv.leave pc rfl rfl ?_ (fun _ => rfl) nofun (.inl rfl) inv.moved
      simp only [taken, holds, isPinned, pinCount, if_true]
      omega
    case isFalse =>
      cases result
      exact inv.act pc rfl rfl rfl id took trivial
  case h_5 removed pc =>
    rw [pc] at took
    split at result
    case isTrue zero =>
      cases result
      exact inv.act pc rfl rfl rfl id took zero
    case isFalse =>
      cases result
      refine inv.leave pc rfl rfl ?_ id took (.inl rfl) inv.moved
      cases removed with
      | true => simp
      | false =>
        simp
        omega
  case h_6 removed pc =>
    have asleep : (s.helpers h).pc.isSleeping = true := by rw [pc]; rfl
    rw [pc] at took
    split at result
    case isFalse => cases result
    case isTrue free =>
      cases result
      refine inv.enter free (inv.together h (.inr asleep)) (calm (.inr asleep)) rfl ?_ took trivial
      rw [pc]
      cases removed with
      | true => simp
      | false =>
        simp
        omega
  case h_7 removed pc =>
    cases result
    obtain ⟨none, isPinned⟩ := inv.assigns pc
    rw [pc] at knows
    have zero : s.counter = 0 := knows
    refine inv.act pc rfl rfl ?_ id nofun ⟨isPinned, none⟩
    rw [zero, isPinned]
    cases removed <;> simp
  case h_8 removed pc =>
    cases result
    rw [pc] at knows
    obtain ⟨isPinned, none⟩ := knows
    refine inv.act pc rfl rfl ?_ (fun _ => rfl) nofun none
    rw [isPinned]
    cases removed <;> simp
  case h_9 pc =>
    have inside : (s.helpers h).pc.inSection = true := by rw [pc]; rfl
    rw [pc] at knows
    have none : s.disabled = 0 := knows
    have held : s.self.held = 0 := by
      have window := inv.calm h inside
      cases self : s.self <;> rw [self] at window <;> first | rfl | cases window
    split at result
    case isTrue =>
      cases result
      refine inv.leave pc rfl rfl rfl id nofun
        (.inr ⟨rfl, still pc⟩) ?_
      rw [inv.moved, none, held]
      rfl
    case isFalse =>
      cases result
      exact inv.leave pc rfl rfl rfl id nofun (.inl rfl) inv.moved

theorem Inv.goSelf (free : s.irq s.cpu = none) (allowed : s.Allowed .goSelf)
    (result : s.goSelf = some s') : Inv s' := by
  have fresh := inv.fresh
  have unpinned := inv.unpinned
  unfold State.goSelf at result
  cases self : s.self with simp only [self] at result unpinned fresh
  | run => cases result
  | count up loaded =>
    obtain ⟨rfl, matched⟩ := fresh
    cases up with
    | true =>
      cases result
      refine inv.thread free ?_ (.inl rfl) (.inl id) nofun trivial
      simp only [self, SelfPc.held]
      push_cast
      omega
    | false =>
      cases result
      have positive := matched rfl
      refine inv.thread free ?_ (.inl rfl) (.inl id) nofun trivial
      simp only [self, SelfPc.held]
      omega
  | disable target =>
    cases result
    refine inv.thread free ?_ (.inl rfl) (.inl id) (fun _ => unpinned rfl) rfl
    rw [self]
    rfl
  | store target loaded =>
    obtain rfl : loaded = s.counter := fresh
    cases result
    refine inv.thread free ?_ (.inl rfl) (.inl id) (fun _ => unpinned rfl) trivial
    simp only [self, SelfPc.held]
    omega
  | mark target =>
    cases result
    refine inv.thread free ?_ (.inl rfl) (.inl fun _ => rfl) nofun trivial
    simp only [self, SelfPc.held, unpinned rfl, pinCount, if_true, Bool.false_eq_true, if_false]
    omega
  | place target =>
    cases result
    refine inv.thread free ?_ ?_ (.inl id) nofun trivial
    · simp only [self, SelfPc.held]
    · by_cases same : target = s.cpu
      · exact .inl same
      · exact .inr (allowed target self same)

theorem Inv.step {event : Event Cpu κ} (allowed : s.Allowed event)
    (result : s.step event = some s') : Inv s' := by
  cases event
  case pin h target =>
    obtain ⟨idle, result⟩ := ite_none_right_eq_some.1 result
    cases result
    exact inv.outside (.inl idle) rfl
  case go h movable => exact inv.go allowed result
  all_goals
    obtain ⟨free, result⟩ := ite_none_left_eq_some.1 result
    rw [not_not] at free
  case goSelf => exact inv.goSelf free allowed result
  case unpinOther =>
    cases result
    exact inv.dropPin free allowed.1 allowed.2
  all_goals
    obtain ⟨self, result⟩ := ite_none_left_eq_some.1 result
    have run : s.self = .run := not_not.1 self
  case migrateDisable =>
    cases result
    exact inv.thread free (by rw [run]; rfl) (.inl rfl) (.inl id) nofun ⟨rfl, nofun⟩
  case migrateEnable =>
    obtain ⟨some_, result⟩ := ite_none_right_eq_some.1 result
    cases result
    exact inv.thread free (by rw [run]; rfl) (.inl rfl) (.inl id) nofun ⟨rfl, fun _ => some_⟩
  case pinSelf target =>
    cases result
    refine inv.thread free ?_ (.inl rfl) (.inl id) ?_ ?_
    · rw [run]
      cases s.pinned <;> rfl
    · cases s.pinned <;> simp [SelfPc.pinning]
    · cases s.pinned <;> trivial
  case unpinSelf =>
    cases result
    exact inv.dropPin free allowed fun up loaded => by rw [run]; exact nofun

end

theorem State.ReachedAllowed.inv (reached : s.ReachedAllowed) : Inv s := by
  refine Reachable.invariant (I := Inv) ?_ ?_ reached
  · rintro s ⟨zero, unpinned, run, idle, free, none, unmoved⟩
    have pcs : ∀ j, (s.helpers j).pc = .idle := idle
    refine ⟨?_, fun c j => ?_, fun j busy => ?_, fun j took => ?_, fun j inside => ?_, fun _ => unpinned,
      by rw [run]; trivial, fun j => ?_, unmoved⟩
    · have taken : tally (fun h : Helper Cpu => h.pc.taken) s.helpers = 0 :=
        tally_eq_zero.2 fun j => by simp [pcs, taken]
      have holds : tally (fun h : Helper Cpu => h.pc.holds) s.helpers = 0 :=
        tally_eq_zero.2 fun j => by simp [pcs, holds]
      simp [taken, holds, zero, unpinned, run, none, pinCount, SelfPc.held]
    · simp [free, pcs, inSection]
    · simp [pcs, inSection, isSleeping] at busy
    · simp [pcs, removed] at took
    · simp [pcs, inSection] at inside
    · rw [pcs]
      trivial
  · rintro s t - inv ⟨event, allowed, result⟩
    exact inv.step allowed result

/-- **The counter is the number of unmatched calls of `migrate_disable`, plus one if the thread is
pinned**, whenever no helper is at work; it is never negative; and no helper has moved the thread
while a call was unmatched. -/
theorem reachedAllowed_balanced (reached : s.ReachedAllowed) :
    ((∀ h, (s.helpers h).pc = .idle) →
      s.counter = s.disabled + s.self.held + pinCount s.pinned) ∧
      0 ≤ s.counter ∧ s.movedHeld = false := by
  have inv := reached.inv
  have balance := inv.balance
  refine ⟨fun idle => ?_, ?_, inv.moved⟩
  · have taken : tally (fun h : Helper Cpu => h.pc.taken) s.helpers = 0 :=
      tally_eq_zero.2 fun j => by simp [idle, taken]
    have holds : tally (fun h : Helper Cpu => h.pc.holds) s.helpers = 0 :=
      tally_eq_zero.2 fun j => by simp [idle, holds]
    rw [taken, holds] at balance
    simpa using balance
  · have taken := inv.taken_le
    omega

end Model

/-! ## Two runs -/

/-- Two CPUs, one helper, and a thread on the first CPU. -/
def unpinnedThread : State Bool Unit where
  counter := 0
  pinned := false
  cpu := false
  self := .run
  helpers := fun _ => ⟨.idle, false, false⟩
  irq := fun _ => none
  disabled := 0
  movedHeld := false

/-- The helper waits until the thread has called `migrate_enable`, and moves it then. -/
theorem waitedFor_balanced : ∃ s : State Bool Unit, s.ReachedAllowed ∧ s.cpu = true ∧
    s.counter = s.disabled + s.self.held + pinCount s.pinned ∧ s.movedHeld = false := by
  have begun : unpinnedThread.ReachedAllowed :=
    .start ⟨rfl, rfl, rfl, fun _ => rfl, fun _ => rfl, rfl, rfl⟩
  have loaded := begun.next ⟨.migrateDisable, trivial, rfl⟩
  have held := loaded.next ⟨.goSelf, nofun, rfl⟩
  have asked := held.next ⟨.pin () true, trivial, rfl⟩
  have entered := asked.next ⟨.go () true, ⟨nofun, fun _ => rfl⟩, rfl⟩
  have tested := entered.next ⟨.go () true, ⟨nofun, fun _ => rfl⟩, rfl⟩
  have compared := tested.next ⟨.go () true, ⟨nofun, fun _ => rfl⟩, rfl⟩
  have asleep := compared.next ⟨.go () true, ⟨nofun, fun _ => rfl⟩, rfl⟩
  have reloaded := asleep.next ⟨.migrateEnable, trivial, rfl⟩
  have released := reloaded.next ⟨.goSelf, nofun, rfl⟩
  have resumed := released.next ⟨.go () true, ⟨nofun, fun _ => rfl⟩, rfl⟩
  have found := resumed.next ⟨.go () true, ⟨nofun, fun _ => rfl⟩, rfl⟩
  have assigned := found.next ⟨.go () true, ⟨nofun, fun _ => rfl⟩, rfl⟩
  have marked := assigned.next ⟨.go () true, ⟨nofun, fun _ => rfl⟩, rfl⟩
  have moved := marked.next ⟨.go () true, ⟨fun _ _ => rfl, fun _ => rfl⟩, rfl⟩
  obtain ⟨balanced, -, unheld⟩ := reachedAllowed_balanced moved
  exact ⟨_, moved, rfl, balanced fun _ => rfl, unheld⟩

/-- A pinned thread that holds a migration lock unpins itself while the helper sleeps: the helper
moves it all the same, and one call of `migrate_disable` is no longer counted.  Nor is one during
which a helper pins the thread. -/
theorem pinned_uncounted :
    (∃ s : State Bool Unit,
      [.pinSelf false, .goSelf, .goSelf, .goSelf, .goSelf, .migrateDisable, .goSelf, .pin () true,
        .go () true, .go () true, .go () true, .go () true, .unpinSelf, .go () true, .go () true,
        .go () true, .go () true, .go () true].foldlM State.step unpinnedThread = some s ∧
      (∀ h, (s.helpers h).pc = .idle) ∧ s.cpu = true ∧ s.movedHeld = true ∧
      s.counter = 1 ∧ s.disabled = 1 ∧ s.pinned = true) ∧
    ∃ s : State Bool Unit,
      [.migrateDisable, .pin () false, .go () true, .go () true, .go () true, .goSelf].foldlM
        State.step unpinnedThread = some s ∧
      (∀ h, (s.helpers h).pc = .idle) ∧ s.counter = 1 ∧ s.disabled = 1 ∧ s.pinned = true :=
  ⟨⟨_, rfl, fun _ => rfl, rfl, rfl, rfl, rfl, rfl⟩, _, rfl, fun _ => rfl, rfl, rfl, rfl⟩

end MiniOsv.Sched.MigrationLock
