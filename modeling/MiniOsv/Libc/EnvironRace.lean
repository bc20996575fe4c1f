/-
# Libc.EnvironRace -- concurrent calls of `setenv(name, value, 0)`

`setenv` looks for the name in one section of `env_lock` and inserts in another one, and
it passes 1 for `overwrite` to `env_insert` in any case.  Two calls that both found the
name absent therefore both insert, and the second overwrites what the first has set and
perhaps returned from.

Every call of the system is a thread of its own here, with its own value for the one name.
`first_value_stays` is about the runs in which a call inserts only while the name is still
absent; nothing else is asked of the interleaving.
-/
import MiniOsv.Theory.Transition
import MiniOsv.Libc.Environ

namespace MiniOsv.Libc.Environ.Race

open Theory Option Function

/-- Where a call is. -/
inductive Pc where
  | called
  /-- Behind the first section, which found no entry. -/
  | absent
  | returned (ret : Ret)
  deriving DecidableEq

structure State (ι : Type) where
  env : Env
  pcs : ι → Pc

inductive Event (ι : Type) where
  | peek (t : ι)
  /-- From the first `malloc` to the return, with what `malloc` answers. -/
  | insert (t : ι) (strOk : Bool) (bigger : Option ℕ)

def visible (env : Env) (name : CString) : Option (List Char) :=
  match env.getenv name with
  | some (.value chars, _) => chars
  | _ => none

variable {ι : Type} [DecidableEq ι] (name : CString) (value : ι → CString)

namespace State

def finish (s : State ι) (t : ι) (env : Env) (ret : Ret) : State ι :=
  ⟨env, update s.pcs t (.returned ret)⟩

def step (s : State ι) : Event ι → Option (State ι)
  | .peek t =>
    if s.pcs t = .called then do
      if ← s.env.peek name then return s.finish t s.env .ok
      return { s with pcs := update s.pcs t .absent }
    else none
  | .insert t strOk bigger =>
    if s.pcs t = .absent then do
      if !strOk then return s.finish t s.env .enomem
      let (inserted, env) ← s.env.envInsert (nameValue name (value t)) name.strlen true bigger
      return s.finish t env (if inserted then .ok else .enomem)
    else none

end State

/-- All calls made, none begun, and the name not in the environment. -/
def Init (s : State ι) : Prop :=
  (∃ entries, Valid s.env entries) ∧ visible s.env name = none ∧ ∀ t, s.pcs t = .called

def Mallocs (s : State ι) : Event ι → Prop
  | .peek _ => True
  | .insert _ _ bigger => Unused s.env bigger

/-- Nobody has inserted since the call looked, if it comes to `env_insert`. -/
def StillAbsent (s : State ι) : Event ι → Prop
  | .peek _ => True
  | .insert _ strOk _ => strOk = true → visible s.env name = none

def Steps (s s' : State ι) : Prop := ∃ event, Mallocs s event ∧ s.step name value event = some s'

def QuietSteps (s s' : State ι) : Prop :=
  ∃ event, Mallocs s event ∧ StillAbsent name s event ∧ s.step name value event = some s'

/-! ## The invariant -/

theorem visible_eq {env : Env} {entries : List CString} (valid : Valid env entries) {name : CString}
    (proper : name.chars ≠ [] ∧ '=' ∉ name.chars) : visible env name = vars entries name.chars := by
  obtain ⟨ret, call, served⟩ := getenv_served valid proper
  rw [visible, call, served.answer name rfl]

theorem peek_eq {env : Env} {entries : List CString} (valid : Valid env entries)
    {name : CString} (proper : name.chars ≠ [] ∧ '=' ∉ name.chars) :
    env.peek name = some (visible env name).isSome := by
  obtain ⟨rest, slots⟩ := valid.slots
  rw [visible_eq valid proper]
  rcases envFind_name entries rest proper.2 List.take_length with
    ⟨absent, found⟩ | ⟨before, e, after, cut, _, present, found⟩
  · simp [Env.peek, slots, CString.strlen, found, vars, absent]
  · simp [Env.peek, slots, CString.strlen, found, vars, present]

variable {name value}

/-- **What `env_insert` makes visible.** -/
theorem insert_visible {env : Env} {entries : List CString} (valid : Valid env entries)
    (proper : name.chars ≠ [] ∧ '=' ∉ name.chars) (v : CString) {bigger : Option ℕ}
    (unused : Unused env bigger) :
    ∃ inserted env', env.envInsert (nameValue name v) name.strlen true bigger =
        some (inserted, env') ∧ (∃ entries', Valid env' entries') ∧
      visible env' name = if inserted then some v.chars else visible env name := by
  have named : nameOf (nameValue name v) = some name.chars :=
    nameOf_eq_some.2 ⟨proper.2, v.chars, rfl⟩
  obtain ⟨inserted, env', entries', call, valid', _, changed, unchanged⟩ :=
    envInsert_spec valid named unused
  refine ⟨inserted, env', call, ⟨entries', valid'⟩, ?_⟩
  cases inserted with
  | true =>
    rw [visible_eq valid' proper, vars_update (changed rfl)]
    simp [nameValue]
  | false =>
    obtain ⟨rfl, rfl⟩ := unchanged rfl
    rfl

structure Inv (name : CString) (value : ι → CString) (s : State ι) : Prop where
  valid : ∃ entries, Valid s.env entries
  /-- What is visible was given by one of the calls. -/
  given : ∀ v, visible s.env name = some v → ∃ t, v = (value t).chars
  /-- A call that has returned 0 leaves the name visible. -/
  set : ∀ t, s.pcs t = .returned .ok → (visible s.env name).isSome = true

omit [DecidableEq ι] in
theorem Init.inv {s : State ι} (init : Init name s) : Inv name value s where
  valid := init.1
  given v shown := by
    rw [init.2.1] at shown
    cases shown
  set t pc := by
    rw [init.2.2 t] at pc
    cases pc

/-- **One step**: the invariant is kept, and what is visible stays. -/
theorem Inv.step {s s' : State ι} (inv : Inv name value s)
    (proper : name.chars ≠ [] ∧ '=' ∉ name.chars) (taken : QuietSteps name value s s') :
    Inv name value s' ∧ ∀ v, visible s.env name = some v → visible s'.env name = some v := by
  obtain ⟨event, mallocs, absent, taken⟩ := taken
  obtain ⟨entries, valid⟩ := inv.valid
  cases event with
  | peek t =>
    have peek := peek_eq valid proper
    simp only [State.step] at taken
    split at taken
    · rw [peek, bind_eq_bind, bind_some] at taken
      split at taken <;> cases taken
      next present =>
        refine ⟨⟨inv.valid, inv.given, fun u _ => present⟩, fun v shown => shown⟩
      · refine ⟨⟨inv.valid, inv.given, fun u pc => ?_⟩, fun v shown => shown⟩
        by_cases same : u = t
        · subst same
          simp at pc
        · exact inv.set u (by simpa [same] using pc)
    · cases taken
  | insert t strOk bigger =>
    simp only [State.step] at taken
    split at taken
    · cases strOk with
      | false =>
        cases taken
        refine ⟨⟨inv.valid, inv.given, fun u pc => ?_⟩, fun v shown => shown⟩
        by_cases same : u = t
        · subst same
          simp [State.finish] at pc
        · exact inv.set u (by simpa [State.finish, same] using pc)
      | true =>
        have none : visible s.env name = none := absent rfl
        obtain ⟨inserted, env', call, valid', shown⟩ :=
          insert_visible valid proper (value t) mallocs
        simp only [call, bind_eq_bind, bind_some] at taken
        cases taken
        refine ⟨⟨valid', fun v seen => ?_, fun u pc => ?_⟩, fun v seen => ?_⟩
        · cases inserted with
          | true => exact ⟨t, (Option.some.inj (shown.symm.trans seen)).symm⟩
          | false => exact inv.given v (shown.symm.trans seen)
        · by_cases same : u = t
          · subst same
            cases inserted with
            | true => exact shown ▸ rfl
            | false => simp [State.finish] at pc
          · have some := inv.set u (by simpa [State.finish, same] using pc)
            rw [none] at some
            cases some
        · rw [none] at seen
          cases seen
    · cases taken

/-- **The first value stays.**  In every run in which a call inserts only while the name is
absent: a visible value was given by one of the calls and is visible ever after, so that no
second one becomes visible, and once a call has returned 0 there is one. -/
theorem first_value_stays (proper : name.chars ≠ [] ∧ '=' ∉ name.chars) {s : State ι}
    (run : Reachable (Init name) (QuietSteps name value) s) :
    (∀ t, s.pcs t = .returned .ok → ∃ u, visible s.env name = some (value u).chars) ∧
    (∀ v, visible s.env name = some v → ∃ u, v = (value u).chars) ∧
    ∀ s', Relation.ReflTransGen (QuietSteps name value) s s' →
      ∀ v, visible s.env name = some v → visible s'.env name = some v := by
  have keep : ∀ s, Reachable (Init name) (QuietSteps name value) s → Inv name value s :=
    fun s run => run.invariant (fun _ init => init.inv)
      fun _ _ _ inv taken => (inv.step proper taken).1
  have inv := keep s run
  refine ⟨fun t pc => ?_, inv.given, fun s' later v shown => ?_⟩
  · obtain ⟨v, shown⟩ := isSome_iff_exists.1 (inv.set t pc)
    obtain ⟨u, rfl⟩ := inv.given v shown
    exact ⟨u, shown⟩
  · -- Along the rest of the run, with the invariant of each state on the way.
    induction later with
    | refl => exact shown
    | tail before taken ih => exact ((keep _ (run.trans before)).step proper taken).2 v ih

/-! ## Two calls -/

/-- The first call sets `A`, the second one `B`. -/
def twoValues (second : Bool) : CString := if second then nameB else nameA

def start : State Bool := ⟨emptyEnv, fun _ => .called⟩

theorem start_init : Init nameA start :=
  ⟨⟨[], emptyEnv_valid⟩, by decide, fun _ => rfl⟩

/-- Both calls look first.  The second one inserts; then `malloc` fails for the first. -/
theorem secondInsert_stays :
    ∃ s : State Bool, s.pcs false = .returned .enomem ∧ s.pcs true = .returned .ok ∧
      visible s.env nameA = some nameB.chars := by
  have begun : Reachable (Init nameA) (QuietSteps nameA twoValues) start := .start start_init
  have first := begun.next ⟨.peek false, trivial, trivial, rfl⟩
  have second := first.next ⟨.peek true, trivial, trivial, rfl⟩
  have inserted := second.next
    ⟨.insert true true (some 1), fun p h => by cases h; rfl, fun _ => rfl, rfl⟩
  have fails : ∀ s : State Bool, Mallocs s (.insert false false none) ∧
      StillAbsent nameA s (.insert false false none) :=
    fun s => ⟨fun p some => (by cases some), fun no => (by cases no)⟩
  have stays := (first_value_stays (by decide) inserted).2.2 _
    (.single ⟨.insert false false none, (fails _).1, (fails _).2, rfl⟩)
  exact ⟨_, rfl, rfl, stays nameB.chars rfl⟩

/-- Both calls look first.  The second one inserts and returns 0; then the first inserts. -/
theorem secondInsert_overwrites :
    ∃ s s' : State Bool, Reachable (Init nameA) (Steps nameA twoValues) s ∧
      s.pcs true = .returned .ok ∧ visible s.env nameA = some nameB.chars ∧
      Steps nameA twoValues s s' ∧ visible s'.env nameA = some nameA.chars := by
  have begun : Reachable (Init nameA) (Steps nameA twoValues) start := .start start_init
  have first := begun.next ⟨.peek false, trivial, rfl⟩
  have second := first.next ⟨.peek true, trivial, rfl⟩
  have inserted := second.next ⟨.insert true true (some 1), fun p h => by cases h; rfl, rfl⟩
  exact ⟨_, _, inserted, rfl, rfl,
    ⟨.insert false true (some 2), fun p h => by cases h; rfl, rfl⟩, rfl⟩

end MiniOsv.Libc.Environ.Race
