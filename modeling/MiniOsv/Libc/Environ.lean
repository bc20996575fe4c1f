/-
# Libc.Environ -- the environment of libc/env/env.cc

`__environ` points to an array of pointers to `NAME=value` strings that ends with a null
pointer.  Nothing else holds the variables: a name is found by comparing its characters
with the front of each string and looking for the `=` behind them.

Memory is a map from addresses to arrays.  What would be undefined in C (a read behind the
end of an array or of one that was freed, a second `free`, a `free` of the array that was
not allocated) makes an operation `none`.  Strings are values: nobody writes to a string
that is in the array.  What `malloc` answers is a parameter of the operation.
-/
import MiniOsv.Theory.Directory
import Mathlib.Data.List.TakeWhile

namespace MiniOsv.Libc.Environ

open Theory List Option Directory
open Function

/-! ## Strings -/

def nul : Char := Char.ofNat 0

/-- A C string, without its terminator. -/
structure CString where
  chars : List Char
  noNul : nul ∉ chars
  deriving DecidableEq

open CString

namespace CString

/-- `s[i]`, the terminator included. -/
def charAt (s : CString) (i : ℕ) : Char := s.chars.getD i nul

def strlen (s : CString) : ℕ := s.chars.length

/-- `strchr(s, '=')`, as an index. -/
def strchrEq (s : CString) : Option ℕ := s.chars.findIdx? (· == '=')

end CString

/-- `!strncmp(a, b, n)`. -/
def strncmpEq : ℕ → List Char → List Char → Bool
  | 0, _, _ => true
  | _ + 1, [], [] => true
  | n + 1, a :: as, b :: bs => a == b && strncmpEq n as bs
  | _ + 1, _, _ => false

/-- The test of `env_find`. -/
def entryMatches (name : List Char) (namelen : ℕ) (e : CString) : Bool :=
  strncmpEq namelen e.chars name && e.charAt namelen == '='

/-! ## Arrays -/

abbrev Slots := List (Option CString)

structure Block where
  slots : Slots
  /-- Whether it came from `malloc`. -/
  heap : Bool
  deriving DecidableEq

structure Env where
  memory : ℕ → Option Block
  environ : ℕ
  owned : Option ℕ
  /-- The calls of `free`, each with the value `__environ` had. -/
  frees : List (ℕ × ℕ)

open Env

/-- The loop of `env_find`: the index of the entry, `some none` for a null pointer. -/
def envFind (name : List Char) (namelen : ℕ) : Slots → Option (Option ℕ)
  | [] => none
  | none :: _ => some none
  | some e :: rest =>
    if entryMatches name namelen e then some (some 0)
    else (envFind name namelen rest).map fun found => found.map (· + 1)

/-- The loop that counts the entries. -/
def countEntries : Slots → Option ℕ
  | [] => none
  | none :: _ => some 0
  | some _ :: rest => (countEntries rest).map (· + 1)

/-- The loop of `unsetenv`, from the slot `e` on: `do e[0] = e[1]; while (*e++)`. -/
def shiftDown : Slots → Option Slots
  | _ :: none :: rest => some (none :: none :: rest)
  | _ :: some e :: rest => (shiftDown (some e :: rest)).map (some e :: ·)
  | _ => none

namespace Env

/-- The array `__environ` points to. -/
def slots (env : Env) : Option Slots := (env.memory env.environ).map Block.slots

/-- Write the array `__environ` points to. -/
def store (env : Env) (slots : Slots) : Env :=
  { env with
    memory := update env.memory env.environ
      ((env.memory env.environ).map fun block => { block with slots := slots }) }

def free (env : Env) : Option ℕ → Option Env
  | none => some env
  | some p =>
    match env.memory p with
    | some ⟨_, true⟩ =>
      some { env with
             memory := update env.memory p none
             frees := env.frees ++ [(p, env.environ)] }
    | _ => none

/-- The end of `env_insert`: the new array takes the place of the old one. -/
def adopt (env : Env) (copied : Slots) (bigger : ℕ) : Option Env := do
  let env := { env with memory := update env.memory bigger (some ⟨copied, true⟩) }
  let env ← env.free env.owned
  some { env with owned := some bigger, environ := bigger }

def envInsert (env : Env) (str : CString) (namelen : ℕ) (overwrite : Bool) (bigger : Option ℕ) :
    Option (Bool × Env) := do
  let slots ← env.slots
  match ← envFind str.chars namelen slots with
  | some i => some (true, if overwrite then env.store (slots.set i (some str)) else env)
  | none =>
    let count ← countEntries slots
    match bigger with
    | none => some (false, env)
    | some bigger => some (true, ← env.adopt (slots.take count ++ [some str, none]) bigger)

end Env

/-! ## The four functions -/

/-- What a call returns. -/
inductive Ret where
  | ok
  | einval
  | enomem
  /-- `getenv`: the value, or a null pointer. -/
  | value (chars : Option (List Char))
  deriving DecidableEq

/-- A variable name that `setenv` and `unsetenv` take. -/
def badName (name : CString) : Bool := name.chars.isEmpty || name.strchrEq.isSome

/-- `name`, `=` and `value`. -/
def nameValue (name value : CString) : CString where
  chars := name.chars ++ '=' :: value.chars
  noNul := by
    have other : nul ≠ '=' := by decide
    simp [name.noNul, value.noNul, other]

namespace Env

def getenv (env : Env) (name : CString) : Option (Ret × Env) :=
  if name.chars.isEmpty then some (.value none, env)
  else do
    let slots ← env.slots
    match ← envFind name.chars name.strlen slots with
    | none => some (.value none, env)
    | some i =>
      let e ← slots.getD i none
      some (.value (some (e.chars.drop (name.strlen + 1))), env)

/-- The first section of `setenv`. -/
def peek (env : Env) (name : CString) : Option Bool := do
  let slots ← env.slots
  return (← envFind name.chars name.strlen slots).isSome

/-- `setenv`; `strOk` and `bigger` are what the two calls of `malloc` answer. -/
def setenv (env : Env) (name value : CString) (overwrite strOk : Bool) (bigger : Option ℕ) :
    Option (Ret × Env) :=
  if badName name then some (.einval, env)
  else do
    if (← env.peek name) && !overwrite then return (.ok, env)
    if !strOk then return (.enomem, env)
    let (inserted, env) ← env.envInsert (nameValue name value) name.strlen true bigger
    return (if inserted then .ok else .enomem, env)

def putenv (env : Env) (str : CString) (bigger : Option ℕ) : Option (Ret × Env) :=
  match str.strchrEq with
  | none => some (.einval, env)
  | some eq =>
    if eq = 0 then some (.einval, env)
    else do
      let (inserted, env) ← env.envInsert str eq true bigger
      return (if inserted then .ok else .enomem, env)

def unsetenv (env : Env) (name : CString) : Option (Ret × Env) :=
  if badName name then some (.einval, env)
  else do
    let slots ← env.slots
    match ← envFind name.chars name.strlen slots with
    | none => return (.ok, env)
    | some i =>
      let shifted ← shiftDown (slots.drop i)
      return (.ok, env.store (slots.take i ++ shifted))

end Env

/-! ## Names -/

def nameOf (e : CString) : Option (List Char) :=
  if '=' ∈ e.chars then some (e.chars.takeWhile (· ≠ '=')) else none

theorem nameOf_eq_some {e : CString} {name : List Char} :
    nameOf e = some name ↔ '=' ∉ name ∧ ∃ value, e.chars = name ++ '=' :: value := by
  constructor
  · intro named
    rw [nameOf] at named
    split at named <;> cases named
    next inside =>
      refine ⟨fun mem => ?_, ?_⟩
      · simpa using mem_takeWhile_imp mem
      · have rest : e.chars.dropWhile (· ≠ '=') ≠ [] := by
          intro empty
          have every := dropWhile_eq_nil_iff.1 empty _ inside
          simp at every
        obtain ⟨c, tail, cut⟩ := exists_cons_of_ne_nil rest
        have first : c = '=' := by
          have head := head_dropWhile_not (fun c => decide (c ≠ '=')) rest
          simp only [cut, head_cons] at head
          simpa using head
        refine ⟨tail, ?_⟩
        have whole := takeWhile_append_dropWhile (p := fun c => decide (c ≠ '=')) (l := e.chars)
        rw [cut, first] at whole
        exact whole.symm
  · rintro ⟨clean, value, cut⟩
    have inside : '=' ∈ e.chars := by simp [cut]
    rw [nameOf, if_pos inside, cut, takeWhile_append_of_pos]
    · simp
    · intro c mem
      simpa using fun equal : c = '=' => clean (equal ▸ mem)

theorem strncmpEq_iff {n : ℕ} {a b : List Char} (long : n ≤ b.length) :
    strncmpEq n a b = true ↔ a.take n = b.take n := by
  induction n generalizing a b with
  | zero => simp [strncmpEq]
  | succ n ih =>
    cases b with
    | nil => cases long
    | cons y bs =>
      cases a with
      | nil => simp [strncmpEq]
      | cons x as =>
        simp [strncmpEq, ih (Nat.le_of_succ_le_succ long)]

theorem charAt_eq {e : CString} {i : ℕ} : e.charAt i = '=' ↔ e.chars[i]? = some '=' := by
  rw [charAt, getD_eq_getElem?_getD]
  cases e.chars[i]? with
  | none => simp [nul]
  | some c => simp

/-- **The test of `env_find` finds the name**, and no name of which it is a part. -/
theorem entryMatches_iff {str name : List Char} {e : CString} (clean : '=' ∉ name)
    (front : str.take name.length = name) :
    entryMatches str name.length e = true ↔ nameOf e = some name := by
  have long : name.length ≤ str.length := by
    have length := congrArg List.length front
    rw [length_take] at length
    omega
  rw [entryMatches, Bool.and_eq_true_iff, strncmpEq_iff long, beq_iff_eq, charAt_eq, front,
    nameOf_eq_some]
  constructor
  · rintro ⟨same, sign⟩
    obtain ⟨inside, at_⟩ := List.getElem?_eq_some_iff.1 sign
    refine ⟨clean, e.chars.drop (name.length + 1), ?_⟩
    calc e.chars = e.chars.take name.length ++ e.chars.drop name.length :=
          (take_append_drop _ _).symm
      _ = name ++ '=' :: e.chars.drop (name.length + 1) := by
          rw [same, drop_eq_getElem_cons inside, at_]
  · rintro ⟨_, value, cut⟩
    rw [cut]
    simp

/-! ## Null-terminated arrays -/

/-- The entries, the null pointer and what may lie behind it. -/
def terminated (entries : List CString) (rest : Slots) : Slots := entries.map some ++ none :: rest

variable {entries : List CString}

theorem envFind_none {str : List Char} {len : ℕ} (rest : Slots)
    (others : ∀ e ∈ entries, entryMatches str len e = false) :
    envFind str len (terminated entries rest) = some none := by
  induction entries with
  | nil => rfl
  | cons e entries ih =>
    rw [terminated, map_cons, cons_append, envFind, if_neg (by simp [others e])]
    exact congrArg (Option.map _) (ih fun b mem => others b (mem_cons_of_mem _ mem))

theorem envFind_cut {str : List Char} {len : ℕ} {before after : List CString} {e : CString}
    (rest : Slots) (others : ∀ b ∈ before, entryMatches str len b = false)
    (found : entryMatches str len e = true) :
    envFind str len (terminated (before ++ e :: after) rest) = some (some before.length) := by
  induction before with
  | nil => exact if_pos found
  | cons b before ih =>
    rw [terminated, cons_append, map_cons, cons_append, envFind, if_neg (by simp [others b])]
    exact congrArg (Option.map _) (ih fun c mem => others c (mem_cons_of_mem _ mem))

theorem countEntries_terminated (entries : List CString) (rest : Slots) :
    countEntries (terminated entries rest) = some entries.length := by
  induction entries with
  | nil => rfl
  | cons e entries ih => exact congrArg (Option.map _) ih

/-- The loop of `unsetenv` drops the first entry and leaves one more null pointer. -/
theorem shiftDown_terminated (e : CString) (after : List CString) (rest : Slots) :
    shiftDown (terminated (e :: after) rest) = some (terminated after (none :: rest)) := by
  induction after generalizing e with
  | nil => rfl
  | cons a after ih => exact congrArg (Option.map _) (ih a)

/-- Finding a name among the entries of a null-terminated array. -/
theorem envFind_name {str name : List Char} (entries : List CString) (rest : Slots)
    (clean : '=' ∉ name) (front : str.take name.length = name) :
    (lookup nameOf entries name = none ∧
      envFind str name.length (terminated entries rest) = some none) ∨
    ∃ before e after, entries = before ++ e :: after ∧ nameOf e = some name ∧
      lookup nameOf entries name = some e ∧
      envFind str name.length (terminated entries rest) = some (some before.length) := by
  cases found : lookup nameOf entries name with
  | none =>
    refine .inl ⟨rfl, envFind_none rest fun e mem => ?_⟩
    rw [Bool.eq_false_iff, ne_eq, entryMatches_iff clean front]
    exact lookup_eq_none.1 found e mem
  | some e =>
    obtain ⟨named, before, after, cut, others⟩ := cut_of_lookup found
    refine .inr ⟨before, e, after, cut, named, rfl, ?_⟩
    rw [cut]
    refine envFind_cut rest (fun b mem => ?_) ((entryMatches_iff clean front).2 named)
    rw [Bool.eq_false_iff, ne_eq, entryMatches_iff clean front]
    exact others b mem

/-! ## Validity -/

/-- `__environ` points to a null-terminated array of `entries`, no name occurs twice, and
`owned_environ` is an allocated array or null. -/
structure Valid (env : Env) (entries : List CString) : Prop where
  array : ∃ rest heap, env.memory env.environ = some ⟨terminated entries rest, heap⟩
  unique : Unique nameOf entries
  owned : ∀ p, env.owned = some p → ∃ slots, env.memory p = some ⟨slots, true⟩

/-- What `malloc` may answer: a place that is not in use. -/
def Unused (env : Env) (bigger : Option ℕ) : Prop := ∀ p, bigger = some p → env.memory p = none

/-- At most one array was freed: it was allocated and not freed before, and `__environ`
does not point to it any more. -/
def FreesOnce (env env' : Env) : Prop :=
  env'.frees = env.frees ∨
    ∃ p slots, env'.frees = env.frees ++ [(p, env.environ)] ∧
      env.memory p = some ⟨slots, true⟩ ∧ env'.memory p = none ∧ env'.environ ≠ p

variable {env : Env}

theorem Valid.slots (valid : Valid env entries) :
    ∃ rest, env.slots = some (terminated entries rest) := by
  obtain ⟨rest, heap, array⟩ := valid.array
  exact ⟨rest, by rw [Env.slots, array, map_some]⟩

variable {entries' : List CString}

theorem Valid.store (valid : Valid env entries)
    (rest : Slots) (unique : Unique nameOf entries') :
    Valid (env.store (terminated entries' rest)) entries' where
  array := by
    obtain ⟨old, heap, array⟩ := valid.array
    exact ⟨rest, heap, by simp [Env.store, array]⟩
  unique := unique
  owned p owned := by
    obtain ⟨slots, block⟩ := valid.owned p owned
    by_cases same : p = env.environ
    · subst same
      exact ⟨terminated entries' rest, by simp [Env.store, block]⟩
    · exact ⟨slots, by simp [Env.store, same, block]⟩

/-- The new array is in place, and the old one is freed if it was allocated. -/
theorem adopt_spec (valid : Valid env entries)
    (unique : Unique nameOf entries') {bigger : ℕ} (unused : env.memory bigger = none) :
    ∃ env', env.adopt (terminated entries' []) bigger = some env' ∧ Valid env' entries' ∧
      FreesOnce env env' := by
  cases owned : env.owned with
  | none =>
    have placed : update env.memory bigger (some ⟨terminated entries' [], true⟩) bigger =
        some ⟨terminated entries' [], true⟩ := update_self bigger _ _
    refine ⟨{ env with
      memory := update env.memory bigger (some ⟨terminated entries' [], true⟩)
      owned := some bigger
      environ := bigger }, by simp [adopt, owned, free], ⟨⟨[], true, placed⟩, unique, ?_⟩,
      .inl rfl⟩
    intro p same
    obtain rfl : bigger = p := Option.some.inj same
    exact ⟨_, placed⟩
  | some p =>
    obtain ⟨old, block⟩ := valid.owned p owned
    have distinct : p ≠ bigger := by
      rintro rfl
      rw [unused] at block
      cases block
    have placed : update
        (update env.memory bigger (some ⟨terminated entries' [], true⟩)) p none bigger =
        some ⟨terminated entries' [], true⟩ := by
      rw [update_of_ne distinct.symm, update_self]
    refine ⟨{ env with
      memory := update
        (update env.memory bigger (some ⟨terminated entries' [], true⟩)) p none
      frees := env.frees ++ [(p, env.environ)]
      owned := some bigger
      environ := bigger }, by simp [adopt, owned, free, distinct, block],
      ⟨⟨[], true, placed⟩, unique, ?_⟩,
      .inr ⟨p, old, rfl, block, update_self p _ _, distinct.symm⟩⟩
    intro q same
    obtain rfl : bigger = q := Option.some.inj same
    exact ⟨_, placed⟩

/-- **`env_insert` of a string with a name.** -/
theorem envInsert_spec (valid : Valid env entries)
    {str : CString} {name : List Char} (named : nameOf str = some name) {bigger : Option ℕ}
    (unused : Unused env bigger) :
    ∃ inserted env' entries', env.envInsert str name.length true bigger = some (inserted, env') ∧
      Valid env' entries' ∧ FreesOnce env env' ∧
      (inserted = true →
        lookup nameOf entries' =
          update (lookup nameOf entries) name (some str)) ∧
      (inserted = false → env' = env ∧ entries' = entries) := by
  obtain ⟨rest, slots⟩ := valid.slots
  obtain ⟨clean, value, chars⟩ := nameOf_eq_some.1 named
  have front : str.chars.take name.length = name := by rw [chars, take_left]
  rcases envFind_name entries rest clean front with
    ⟨absent, found⟩ | ⟨before, e, after, cut, other, _, found⟩
  · cases bigger with
    | none =>
      refine ⟨false, env, entries, ?_, valid, .inl rfl, nofun, fun _ => ⟨rfl, rfl⟩⟩
      simp [envInsert, slots, found, countEntries_terminated]
    | some bigger =>
      have copied : (terminated entries rest).take entries.length ++ [some str, none] =
          terminated (entries ++ [str]) [] := by
        simp [terminated]
      have unique := valid.unique.append named absent
      obtain ⟨env', adopted, valid', frees⟩ := adopt_spec valid unique (unused bigger rfl)
      refine ⟨true, env', entries ++ [str], ?_, valid', frees, fun _ => ?_, nofun⟩
      · simp [envInsert, slots, found, countEntries_terminated, copied, adopted]
      · rw [unique.lookup_cut named, append_nil]
  · subst cut
    have replaced : (terminated (before ++ e :: after) rest).set before.length (some str) =
        terminated (before ++ str :: after) rest := by
      simp [terminated]
    have unique := valid.unique.replace (named.trans other.symm)
    refine ⟨true, env.store (terminated (before ++ str :: after) rest), before ++ str :: after, ?_,
      valid.store rest unique, .inl rfl, fun _ => ?_, nofun⟩
    · simp [envInsert, slots, found, replaced]
    · rw [unique.lookup_cut named, valid.unique.lookup_cut other, update_idem]

/-! ## The environment as a map -/

/-- Values by names. -/
abbrev Vars := List Char → Option (List Char)

/-- What the entries say about each name. -/
def vars (entries : List CString) : Vars := fun name =>
  (lookup nameOf entries name).map fun e => e.chars.drop (name.length + 1)

theorem vars_update {name : List Char} {str : CString}
    (changed : lookup nameOf entries' = update (lookup nameOf entries) name (some str)) :
    vars entries' = update (vars entries) name (some (str.chars.drop (name.length + 1))) := by
  funext other
  rw [vars, changed]
  by_cases same : other = name
  · subst same
    simp
  · simp [same, vars]

/-- A call, with what `malloc` answers in it. -/
inductive Op where
  | getenv (name : CString)
  | setenv (name value : CString) (overwrite strOk : Bool) (bigger : Option ℕ)
  | putenv (str : CString) (bigger : Option ℕ)
  | unsetenv (name : CString)

namespace Op

/-- The name is not empty and has no `=`. -/
def Proper : Op → Prop
  | .getenv name | .setenv name .. | .unsetenv name => name.chars ≠ [] ∧ '=' ∉ name.chars
  | .putenv .. => True

instance (op : Op) : Decidable op.Proper :=
  match op with
  | .getenv _ | .setenv .. | .unsetenv _ => inferInstanceAs (Decidable (_ ∧ _))
  | .putenv .. => inferInstanceAs (Decidable True)

def bigger : Op → Option ℕ
  | .setenv _ _ _ _ bigger | .putenv _ bigger => bigger
  | _ => none

end Op

def Env.step (env : Env) : Op → Option (Ret × Env)
  | .getenv name => env.getenv name
  | .setenv name value overwrite strOk bigger => env.setenv name value overwrite strOk bigger
  | .putenv str bigger => env.putenv str bigger
  | .unsetenv name => env.unsetenv name

/-- **What a call means** that has returned `ret`: only a call that succeeded changes
anything, and only at its own name. -/
def Vars.after (m : Vars) : Op → Ret → Vars
  | .setenv name value overwrite _ _, .ok =>
    if !overwrite && (m name.chars).isSome then m
    else update m name.chars (some value.chars)
  | .putenv str _, .ok =>
    update m (str.chars.takeWhile (· ≠ '='))
      (some (str.chars.drop ((str.chars.takeWhile (· ≠ '=')).length + 1)))
  | .unsetenv name, .ok => update m name.chars none
  | _, _ => m

/-- What is asked of one call. -/
structure Served (env : Env) (entries : List CString) (op : Op) (ret : Ret) (env' : Env)
    (entries' : List CString) : Prop where
  valid : Valid env' entries'
  vars : Environ.vars entries' = (Environ.vars entries).after op ret
  answer : ∀ name, op = .getenv name → ret = .value (Environ.vars entries name.chars)
  failed : ret = .einval ∨ ret = .enomem → env' = env
  frees : FreesOnce env env'

theorem badName_of_proper {name : CString} (proper : name.chars ≠ [] ∧ '=' ∉ name.chars) :
    badName name = false := by
  have none : name.strchrEq = none := by
    rw [strchrEq, List.findIdx?_eq_none_iff]
    intro c mem
    simpa using fun equal : c = '=' => proper.2 (equal ▸ mem)
  simp [badName, proper.1, none]

section

variable (valid : Valid env entries)

include valid

theorem getenv_served {name : CString} (proper : name.chars ≠ [] ∧ '=' ∉ name.chars) :
    ∃ ret, env.getenv name = some (ret, env) ∧ Served env entries (.getenv name) ret env entries := by
  obtain ⟨rest, slots⟩ := valid.slots
  have front : name.chars.take name.chars.length = name.chars := take_length
  have served : Served env entries (.getenv name) (.value (vars entries name.chars)) env entries :=
    ⟨valid, rfl, fun other same => (by cases same; rfl), fun _ => rfl, .inl rfl⟩
  refine ⟨_, ?_, served⟩
  rcases envFind_name entries rest proper.2 front with
    ⟨absent, found⟩ | ⟨before, e, after, cut, _, present, found⟩
  · simp [getenv, proper.1, slots, strlen, found, vars, absent]
  · have entry : (terminated entries rest)[before.length]?.getD none = some e := by
      rw [cut]
      simp [terminated]
    simp [getenv, proper.1, slots, strlen, found, vars, present, entry]

theorem setenv_served {name value : CString} {overwrite strOk : Bool} {bigger : Option ℕ}
    (proper : name.chars ≠ [] ∧ '=' ∉ name.chars) (unused : Unused env bigger) :
    ∃ ret env' entries', env.setenv name value overwrite strOk bigger = some (ret, env') ∧
      Served env entries (.setenv name value overwrite strOk bigger) ret env' entries' := by
  obtain ⟨rest, slots⟩ := valid.slots
  have bad := badName_of_proper proper
  have front : name.chars.take name.chars.length = name.chars := take_length
  have peek : env.peek name = some (vars entries name.chars).isSome := by
    rcases envFind_name entries rest proper.2 front with
      ⟨absent, found⟩ | ⟨before, e, after, cut, _, present, found⟩
    · simp [peek, slots, strlen, found, vars, absent]
    · simp [peek, slots, strlen, found, vars, present]
  by_cases keep : (vars entries name.chars).isSome = true ∧ overwrite = false
  · -- The variable exists and is not to be overwritten.
    refine ⟨.ok, env, entries, by simp [setenv, bad, peek, keep], valid, ?_,
      nofun, fun _ => rfl, .inl rfl⟩
    simp [Vars.after, keep]
  · cases strOk with
    | false =>
      exact ⟨.enomem, env, entries, by simp [setenv, bad, peek, keep], valid, rfl,
        nofun, fun _ => rfl, .inl rfl⟩
    | true =>
      have named : nameOf (nameValue name value) = some name.chars :=
        nameOf_eq_some.2 ⟨proper.2, value.chars, rfl⟩
      obtain ⟨inserted, env', entries', call, valid', frees, changed, unchanged⟩ :=
        envInsert_spec valid named unused
      have result : env.setenv name value overwrite true bigger =
          some (if inserted then .ok else .enomem, env') := by
        simp [setenv, bad, peek, keep, strlen, call]
      refine ⟨_, env', entries', result, ?_⟩
      cases inserted with
      | true =>
        refine ⟨valid', ?_, nofun, fun h => ?_, frees⟩
        · have overwrites : ¬ (!overwrite && (vars entries name.chars).isSome) = true := by
            simpa [and_comm] using keep
          rw [vars_update (changed rfl), if_pos rfl, Vars.after, if_neg overwrites]
          simp [nameValue]
        · rcases h with h | h <;> cases h
      | false =>
        obtain ⟨rfl, rfl⟩ := unchanged rfl
        exact ⟨valid, rfl, nofun, fun _ => rfl, frees⟩

theorem putenv_served {str : CString} {bigger : Option ℕ} (unused : Unused env bigger) :
    ∃ ret env' entries', env.putenv str bigger = some (ret, env') ∧
      Served env entries (.putenv str bigger) ret env' entries' := by
  cases sign : str.strchrEq with
  | none =>
    exact ⟨.einval, env, entries, by simp [putenv, sign], valid, rfl,
      nofun, fun _ => rfl, .inl rfl⟩
  | some eq =>
    by_cases first : eq = 0
    · exact ⟨.einval, env, entries, by simp [putenv, sign, first], valid, rfl,
        nofun, fun _ => rfl, .inl rfl⟩
    · obtain ⟨inside, here, earlier⟩ := List.findIdx?_eq_some_iff_getElem.1 sign
      have length : (str.chars.takeWhile (· ≠ '=')).length = eq := by
        have cut : str.chars = str.chars.take eq ++ '=' :: str.chars.drop (eq + 1) := by
          rw [← beq_iff_eq.1 here, ← drop_eq_getElem_cons inside, take_append_drop]
        have clean : ∀ c ∈ str.chars.take eq, decide (c ≠ '=') = true := by
          intro c mem
          obtain ⟨i, below, rfl⟩ := mem_take_iff_getElem.1 mem
          simpa using earlier i (by omega)
        rw [cut, takeWhile_append_of_pos clean, takeWhile_cons_of_neg (by simp),
          append_nil, length_take]
        omega
      have named : nameOf str = some (str.chars.takeWhile (· ≠ '=')) :=
        if_pos (beq_iff_eq.1 here ▸ getElem_mem inside)
      obtain ⟨inserted, env', entries', call, valid', frees, changed, unchanged⟩ :=
        envInsert_spec valid named unused
      have result : env.putenv str bigger =
          some (if inserted then .ok else .enomem, env') := by
        rw [length] at call
        simp [putenv, sign, first, call]
      refine ⟨_, env', entries', result, ?_⟩
      cases inserted with
      | true =>
        refine ⟨valid', ?_, nofun, fun h => ?_, frees⟩
        · rw [vars_update (changed rfl), if_pos rfl, Vars.after]
        · rcases h with h | h <;> cases h
      | false =>
        obtain ⟨rfl, rfl⟩ := unchanged rfl
        exact ⟨valid, rfl, nofun, fun _ => rfl, frees⟩

theorem unsetenv_served {name : CString} (proper : name.chars ≠ [] ∧ '=' ∉ name.chars) :
    ∃ ret env' entries', env.unsetenv name = some (ret, env') ∧
      Served env entries (.unsetenv name) ret env' entries' := by
  obtain ⟨rest, slots⟩ := valid.slots
  have bad := badName_of_proper proper
  have front : name.chars.take name.chars.length = name.chars := take_length
  rcases envFind_name entries rest proper.2 front with
    ⟨absent, found⟩ | ⟨before, e, after, cut, named, _, found⟩
  · refine ⟨.ok, env, entries, by simp [unsetenv, bad, slots, strlen, found], valid, ?_,
      nofun, fun _ => rfl, .inl rfl⟩
    have already : vars entries name.chars = none := by rw [vars, absent, map_none]
    rw [Vars.after, ← already, update_eq_self]
  · subst cut
    have dropped : (terminated (before ++ e :: after) rest).drop before.length =
        terminated (e :: after) rest := by
      simp [terminated]
    have rejoined : (terminated (before ++ e :: after) rest).take before.length ++
        terminated after (none :: rest) = terminated (before ++ after) (none :: rest) := by
      simp [terminated]
    refine ⟨.ok, env.store (terminated (before ++ after) (none :: rest)), before ++ after, ?_,
      valid.store _ valid.unique.remove, ?_, nofun, fun h => ?_, .inl rfl⟩
    · simp [unsetenv, bad, slots, strlen, found, dropped, shiftDown_terminated, rejoined]
    · funext other
      rw [Vars.after]
      by_cases same : other = name.chars
      · subst same
        rw [update_self, vars, valid.unique.lookup_remove named, map_none]
      · rw [update_of_ne same, vars, vars, valid.unique.lookup_cut named, update_of_ne same]
    · rcases h with h | h <;> cases h

/-! ## Runs -/

theorem step_served {op : Op}
    (proper : op.Proper) (unused : Unused env op.bigger) :
    ∃ ret env' entries', env.step op = some (ret, env') ∧
      Served env entries op ret env' entries' := by
  cases op with
  | getenv name =>
    obtain ⟨ret, call, served⟩ := getenv_served valid proper
    exact ⟨ret, env, entries, call, served⟩
  | setenv name value overwrite strOk bigger => exact setenv_served valid proper unused
  | putenv str bigger => exact putenv_served valid unused
  | unsetenv name => exact unsetenv_served valid proper

end

/-- The calls made so far with what they returned, oldest first, and where they led. -/
inductive Run (start : Env) : List (Op × Ret) → Env → Prop
  | start : Run start [] start
  | call {history : List (Op × Ret)} {env env' : Env} {op : Op} {ret : Ret}
      (run : Run start history env) (proper : op.Proper) (unused : Unused env op.bigger)
      (taken : env.step op = some (ret, env')) : Run start (history ++ [(op, ret)]) env'

/-- What a history says about each name: the last call that set or removed it counts. -/
def meaning (m : Vars) (history : List (Op × Ret)) : Vars :=
  history.foldl (fun m call => m.after call.1 call.2) m

theorem Run.valid {start env : Env} {history : List (Op × Ret)}
    (valid : Valid start entries) (run : Run start history env) :
    ∃ entries', Valid env entries' ∧ vars entries' = meaning (vars entries) history := by
  induction run with
  | start => exact ⟨entries, valid, rfl⟩
  | call run proper unused taken ih =>
    obtain ⟨entries', valid', same⟩ := ih
    obtain ⟨ret, env', entries'', call, served⟩ := step_served valid' proper unused
    cases taken.symm.trans call
    refine ⟨entries'', served.valid, ?_⟩
    rw [served.vars, same, meaning, meaning, foldl_append]
    rfl

/-- The name a call is about. -/
def Op.name : Op → List Char
  | .getenv name | .setenv name .. | .unsetenv name => name.chars
  | .putenv str _ => str.chars.takeWhile (· ≠ '=')

theorem Vars.after_other (m : Vars) (op : Op) (ret : Ret) {other : List Char}
    (different : other ≠ op.name) : m.after op ret other = m other := by
  cases op with
  | getenv name => rfl
  | setenv name value overwrite strOk bigger =>
    cases ret with
    | ok =>
      simp only [Vars.after]
      split
      · rfl
      · exact update_of_ne different _ _
    | _ => rfl
  | putenv str bigger =>
    cases ret with
    | ok => exact update_of_ne different _ _
    | _ => rfl
  | unsetenv name =>
    cases ret with
    | ok => exact update_of_ne different _ _
    | _ => rfl

/-- **The environment is a finite map.**  After any calls from any valid environment, it is
null-terminated with at most one entry per name and holds what the history says; and the
next call is served whatever `malloc` answers: `getenv` returns what the history says, no
other name is affected, a call that fails changes nothing, and at most one array is freed,
which was allocated, was not freed before and is not the environment any more. -/
theorem environment_is_map {start env : Env} {entries : List CString} {history : List (Op × Ret)}
    (valid : Valid start entries) (run : Run start history env) :
    ∃ entries', Valid env entries' ∧ vars entries' = meaning (vars entries) history ∧
      ∀ op, op.Proper → Unused env op.bigger →
        ∃ ret env' entries'', env.step op = some (ret, env') ∧
          Served env entries' op ret env' entries'' ∧
          ∀ other, other ≠ op.name → vars entries'' other = vars entries' other := by
  obtain ⟨entries', valid', same⟩ := run.valid valid
  refine ⟨entries', valid', same, fun op proper unused => ?_⟩
  obtain ⟨ret, env', entries'', call, served⟩ := step_served valid' proper unused
  refine ⟨ret, env', entries'', call, served, fun other different => ?_⟩
  rw [served.vars, Vars.after_other _ _ _ different]

/-- The static empty environment. -/
def emptyEnv : Env := ⟨fun p => if p = 0 then some ⟨[none], false⟩ else none, 0, none, []⟩

theorem emptyEnv_valid : Valid emptyEnv [] where
  array := ⟨[], false, rfl⟩
  unique := nodup_nil
  owned _ h := by cases h

def nameA : CString := ⟨['A'], by decide⟩

def nameB : CString := ⟨['B'], by decide⟩

def setA : Op := .setenv nameA nameB true true (some 1)

def setB : Op := .setenv nameB nameA true true (some 2)

theorem setA_run : ∃ env, Run emptyEnv [(setA, .ok), (setB, .ok), (.unsetenv nameA, .ok)] env ∧
    ∃ entries, Valid env entries ∧
      vars entries = meaning (vars []) [(setA, .ok), (setB, .ok), (.unsetenv nameA, .ok)] := by
  have first := @Run.call emptyEnv _ _ _ setA _ .start (by decide) (fun p h => by cases h; rfl) rfl
  have second := @Run.call emptyEnv _ _ _ setB _ first (by decide) (fun p h => by cases h; rfl) rfl
  have run := @Run.call emptyEnv _ _ _ (.unsetenv nameA) _ second (by decide)
    (fun p h => by cases h) rfl
  obtain ⟨entries, valid, same, _⟩ := environment_is_map emptyEnv_valid run
  exact ⟨_, run, entries, valid, same⟩

/-- The second new name: when `free` is called on the first array, `__environ` still points
to it. -/
theorem setB_frees_current :
    ∃ env, Run emptyEnv [(setA, .ok), (setB, .ok)] env ∧ (1, 1) ∈ env.frees := by
  have first := @Run.call emptyEnv _ _ _ setA _ .start (by decide) (fun p h => by cases h; rfl) rfl
  have second := @Run.call emptyEnv _ _ _ setB _ first (by decide) (fun p h => by cases h; rfl) rfl
  exact ⟨_, second, by decide⟩

end MiniOsv.Libc.Environ
