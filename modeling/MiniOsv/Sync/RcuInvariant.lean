/-
# Sync.RcuInvariant -- callbacks, grace periods and wakes

Three invariants, each over its own part of the state: every callback is in one place
(`Tokens`); what a CPU has published bounds the start of the sections that are active there
(`Grace`); and a thread that sleeps without having been woken has nothing to do, or some
other thread is about to wake it (`Wakes`).
-/
import MiniOsv.Sync.Rcu

namespace MiniOsv.Sync.Rcu

set_option linter.unusedSectionVars false

open State
open Function

variable {ι : Type} [DecidableEq ι] {cqsts : List ι} {size : ℕ}

/-! ## Places of a thread -/

/-- The callbacks that the thread has taken and not run. -/
def Pc.batch : Pc ι → List ℕ
  | .run l | .stuck l => l
  | _ => []

/-- The generation that the thread's own callbacks wait for. -/
def Pc.target : Pc ι → Option ℕ
  | .mark g | .ask g _ | .wakeAsked g _ _ => some g
  | .store _ g | .notify _ g | .wait g | .asleep g | .serve g => g
  | _ => none

/-- The other buffer holds a batch. -/
def Pc.collecting : Pc ι → Bool
  | .fetch | .clean => true
  | pc => pc.target.isSome

/-! ## Callbacks -/

structure Tokens (size : ℕ) (s : State ι) : Prop where
  waiting : ∀ i n, n ∈ s.waiting i ↔ s.loc n = .waiting i
  retry : ∀ i n, n ∈ s.retry i ↔ s.loc n = .retry i
  buffered : ∀ i b n, n ∈ s.callbacks i b ↔ s.loc n = .buffered i b
  running : ∀ i n, n ∈ (s.pcs i).batch ↔ s.loc n = .running i
  nodup : ∀ i, (s.waiting i).Nodup ∧ (s.retry i).Nodup ∧ (s.pcs i).batch.Nodup ∧
    ∀ b, (s.callbacks i b).Nodup
  born : ∀ n, s.loc n = .unborn ↔ s.tokens ≤ n
  ran : ∀ n, s.ran n = if s.loc n = .done then 1 else 0
  /-- A buffer that is not collected from is the current one. -/
  other : ∀ i, (s.pcs i).collecting = false → s.callbacks i (!s.buf i) = []
  /-- Calls wait only for a full buffer. -/
  full : ∀ i, s.waiting i ≠ [] → (s.callbacks i (s.buf i)).length = size
  room : ∀ i b, (s.callbacks i b).length ≤ size

/-! ## Grace periods -/

/-- No section that was active at the call of `n` is active now. -/
def State.Settled (s : State ι) (n : ℕ) : Prop :=
  ∀ j start, s.active j = some start → s.called n < start

/-- The batch of CPU `i` was deferred before generation `g` was taken. -/
def State.Batch (s : State ι) (i : ι) (g : ℕ) : Prop :=
  1 ≤ g ∧ g ≤ s.next ∧ ∀ n ∈ s.callbacks i (!s.buf i), s.called n < s.fetched g

def State.Good (cqsts : List ι) (s : State ι) (i : ι) : Pc ι → Prop
  | .mark g | .ask g _ | .wakeAsked g _ _ => s.Batch i g ∧ s.gen i ≤ g
  | .store v g => s.gen i ≤ v ∧ v ≤ s.next ∧ ∀ h, g = some h → h ≤ v ∧ s.Batch i h
  | .notify _ g | .wait g | .asleep g => ∀ h, g = some h → s.Batch i h ∧ h ≤ s.gen i
  | .serve g => ∀ h, g = some h →
      (s.Batch i h ∧ h ≤ s.gen i) ∧ (s.gen i < s.request i ∨ ∀ j ∈ cqsts, h ≤ s.gen j)
  | .clean => ∀ n ∈ s.callbacks i (!s.buf i), s.Settled n
  | _ => True

structure Grace (cqsts : List ι) (s : State ι) : Prop where
  called : ∀ n, n < s.tokens → s.called n < s.now
  started : ∀ i start, s.active i = some start → start < s.now
  fetched : ∀ g, 1 ≤ g → g ≤ s.next → s.fetched g < s.now
  ordered : ∀ g g', 1 ≤ g → g ≤ g' → g' ≤ s.next → s.fetched g ≤ s.fetched g'
  known : ∀ i, s.gen i ≤ s.next ∧ s.request i ≤ s.next
  /-- Sections on a CPU are younger than the generation it has published. -/
  published : ∀ i start, s.active i = some start → 1 ≤ s.gen i → s.fetched (s.gen i) < start
  good : ∀ i, s.Good cqsts i (s.pcs i)
  settled : ∀ n, (∃ i, s.loc n = .running i) ∨ s.loc n = .done → s.Settled n

structure Inv (cqsts : List ι) (size : ℕ) (s : State ι) : Prop where
  tokens : Tokens size s
  grace : Grace cqsts s

attribute [local simp] Pc.batch

theorem init_inv : Inv cqsts size (init : State ι) := by
  refine ⟨?_, ?_⟩
  · constructor <;> simp [init]
  · constructor <;> simp [init, Good]
    all_goals omega

attribute [local grind] Pc.batch Pc.target Pc.collecting setBuffer
attribute [local grind =] update_apply

namespace Tokens

variable {s s' : State ι} {i : ι}

theorem exchange (tokens : Tokens size s) (here : s.pcs i = .top) : Tokens size (s.exchange i) := by
  obtain ⟨waiting, retry, buffered, running, nodup, born, ran, other, full, room⟩ := tokens
  rw [State.exchange]
  constructor <;> grind

theorem take (tokens : Tokens size s) (here : s.pcs i = .clean) : Tokens size (s.take i) := by
  obtain ⟨waiting, retry, buffered, running, nodup, born, ran, other, full, room⟩ := tokens
  have taken : ∀ j n, n ∈ (update s.pcs i (.run (s.callbacks i (!s.buf i))) j).batch ↔
      (if n ∈ s.callbacks i (!s.buf i) then .running i else s.loc n) = .running j := by
    intro j n
    by_cases h : j = i
    · subst h
      have idle : n ∉ (s.pcs j).batch := by simp [here]
      rw [running j n] at idle
      simp [idle]
    · rw [update_of_ne h, running j n]
      grind
  rw [State.take]
  constructor <;> first | exact taken | grind

omit [DecidableEq ι] in
/-- A callback goes from one place to another; who is at a third one does not change. -/
theorem loc_update {n : ℕ} {goal place : Loc ι} (left : s.loc n ≠ place) (elsewhere : goal ≠ place)
    (m : ℕ) : update s.loc n goal m = place ↔ s.loc m = place := by
  by_cases same : m = n
  · subst same
    rw [update_self]
    exact iff_of_false elsewhere left
  · rw [update_of_ne same]

section

variable (tokens : Tokens size s)

include tokens

theorem run {n : ℕ} {l : List ℕ} (here : s.pcs i = .run (n :: l)) :
    Tokens size { s with
      pcs := update s.pcs i (.run l)
      loc := update s.loc n .done
      ran := update s.ran n (s.ran n + 1) } := by
  have mine : s.loc n = .running i := (tokens.running i n).1 (by simp [here])
  have elsewhere : ∀ place, place ≠ .running i → s.loc n ≠ place := fun place other same =>
    other (same.symm.trans mine)
  obtain ⟨fresh, nodupRest⟩ : n ∉ l ∧ l.Nodup := by
    have := (tokens.nodup i).2.2.1
    rwa [here, Pc.batch, List.nodup_cons] at this
  refine ⟨fun j m => ?_, fun j m => ?_, fun j b m => ?_, fun j m => ?_, fun j => ?_, fun m => ?_,
    fun m => ?_, fun j idle => ?_, tokens.full, tokens.room⟩
  · exact (tokens.waiting j m).trans (loc_update (elsewhere _ (by simp)) (by simp) m).symm
  · exact (tokens.retry j m).trans (loc_update (elsewhere _ (by simp)) (by simp) m).symm
  · exact (tokens.buffered j b m).trans (loc_update (elsewhere _ (by simp)) (by simp) m).symm
  · by_cases h : j = i
    · subst h
      have before := tokens.running j m
      rw [here, Pc.batch, List.mem_cons] at before
      by_cases same : m = n
      · subst same
        simp [fresh]
      · simpa [same] using before
    · have other : s.loc n ≠ .running j := fun same => h (by simpa [mine] using same.symm)
      dsimp only
      rw [update_of_ne h, tokens.running, loc_update other (by simp)]
  · obtain ⟨waiting, retry, batch, buffers⟩ := tokens.nodup j
    refine ⟨waiting, retry, ?_, buffers⟩
    by_cases h : j = i
    · subst h
      simpa using nodupRest
    · simpa [h] using batch
  · exact (loc_update (elsewhere _ (by simp)) (by simp) m).trans (tokens.born m)
  · by_cases same : m = n
    · subst same
      simp [tokens.ran m, mine]
    · simpa [same] using tokens.ran m
  · by_cases h : j = i
    · subst h
      exact tokens.other j (by rw [here]; rfl)
    · exact tokens.other j (by simpa [h] using idle)

/-- Steps that leave the callbacks where they are. -/
theorem moves {pc : Pc ι} {next now : ℕ} {gen request : ι → ℕ}
    {requested woken : ι → Bool} {active : ι → Option ℕ} {fetched : ℕ → ℕ}
    (batch : pc.batch = (s.pcs i).batch)
    (other : pc.collecting = false → s.callbacks i (!s.buf i) = []) :
    Tokens size { s with
      next := next, now := now, gen := gen, request := request, requested := requested
      woken := woken, active := active, fetched := fetched
      pcs := update s.pcs i pc } := by
  have batches : ∀ j, (update s.pcs i pc j).batch = (s.pcs j).batch := by
    intro j
    by_cases h : j = i
    · subst h
      rw [update_self, batch]
    · rw [update_of_ne h]
  refine ⟨tokens.waiting, tokens.retry, tokens.buffered, fun j n => ?_, fun j => ?_, tokens.born,
    tokens.ran, fun j idle => ?_, tokens.full, tokens.room⟩
  · rw [batches]
    exact tokens.running j n
  · rw [batches]
    exact tokens.nodup j
  · by_cases h : j = i
    · subst h
      exact other (by simpa using idle)
    · exact tokens.other j (by simpa [h] using idle)

theorem defer : Tokens size (s.call.put size i s.tokens) := by
  obtain ⟨waiting, retry, buffered, running, nodup, born, ran, other, full, room⟩ := tokens
  rw [put, call]
  split
  · constructor <;> grind
  · constructor <;> grind

theorem retried {n : ℕ} (mem : n ∈ s.retry i) :
    Tokens size (put size
      { s with retry := update s.retry i ((s.retry i).erase n) } i n) := by
  obtain ⟨waiting, retry, buffered, running, nodup, born, ran, other, full, room⟩ := tokens
  rw [put]
  split
  · constructor <;> grind
  · constructor <;> grind

end

end Tokens

/-- What may change without harm to what the thread of CPU `i` relies on. -/
structure Frame (s s' : State ι) (i : ι) : Prop where
  next : s.next ≤ s'.next
  gen : s'.gen i = s.gen i
  request : s.request i ≤ s'.request i
  gens : ∀ j, s.gen j ≤ s'.gen j
  batch : s'.callbacks i (!s'.buf i) = s.callbacks i (!s.buf i)
  called : ∀ n ∈ s.callbacks i (!s.buf i), s'.called n = s.called n
  fetched : ∀ g, g ≤ s.next → s'.fetched g = s.fetched g
  settled : ∀ n ∈ s.callbacks i (!s.buf i), s.Settled n → s'.Settled n

theorem Frame.batchAt {s s' : State ι} {i : ι} (frame : Frame s s' i) {g : ℕ} (batch : s.Batch i g) :
    s'.Batch i g := by
  obtain ⟨positive, bound, before⟩ := batch
  refine ⟨positive, Nat.le_trans bound frame.next, fun n mem => ?_⟩
  rw [frame.batch] at mem
  rw [frame.called n mem, frame.fetched g bound]
  exact before n mem

theorem Frame.good {s s' : State ι} {i : ι} (frame : Frame s s' i) {pc : Pc ι}
    (good : s.Good cqsts i pc) : s'.Good cqsts i pc := by
  cases pc with
  | mark g | ask g rest | wakeAsked g j rest =>
    exact ⟨frame.batchAt good.1, by rw [frame.gen]; exact good.2⟩
  | store v g =>
    exact ⟨by rw [frame.gen]; exact good.1, Nat.le_trans good.2.1 frame.next,
      fun h eq => ⟨(good.2.2 h eq).1, frame.batchAt (good.2.2 h eq).2⟩⟩
  | notify rest g | wait g | asleep g =>
    exact fun h eq => ⟨frame.batchAt (good h eq).1, by rw [frame.gen]; exact (good h eq).2⟩
  | serve g =>
    intro h eq
    obtain ⟨⟨batch, own⟩, reason⟩ := good h eq
    refine ⟨⟨frame.batchAt batch, by rw [frame.gen]; exact own⟩,
      reason.imp (fun less => ?_) fun all j mem => ?_⟩
    · rw [frame.gen]
      exact Nat.lt_of_lt_of_le less frame.request
    · exact Nat.le_trans (all j mem) (frame.gens j)
  | clean =>
    intro n mem
    rw [frame.batch] at mem
    exact frame.settled n mem (good n mem)
  | _ => trivial

namespace Grace

variable {s s' : State ι} {i : ι}

section

variable (grace : Grace cqsts s)

include grace

/-- A thread moves on to a place that is good for it; the others stay where they are. -/
theorem goods {pc : Pc ι} (pcs : s'.pcs = update s.pcs i pc) (frames : ∀ j, j ≠ i → Frame s s' j)
    (good : s'.Good cqsts i pc) (j : ι) : s'.Good cqsts j (s'.pcs j) := by
  rw [pcs]
  by_cases h : j = i
  · subst h
    rwa [update_self]
  · rw [update_of_ne h]
    exact (frames j h).good (grace.good j)

/-- A thread moves on; it may raise requests and wake others. -/
theorem moves {pc : Pc ι} {request : ι → ℕ} {requested woken : ι → Bool}
    (raised : ∀ j, s.request j ≤ request j ∧ request j ≤ s.next)
    (good : Good cqsts { s with request := request } i pc) :
    Grace cqsts { s with request := request, requested := requested, woken := woken
                         pcs := update s.pcs i pc } := by
  exact { grace with
    known := fun j => ⟨(grace.known j).1, (raised j).2⟩
    good := grace.goods rfl (fun j _ => ⟨Nat.le_refl _, rfl, (raised j).1, fun _ => Nat.le_refl _, rfl,
      fun _ _ => rfl, fun _ _ => rfl, fun _ _ h => h⟩) good }

theorem exchange (tokens : Tokens size s) : Grace cqsts (s.exchange i) := by
  refine { grace with
    good := grace.goods rfl (fun j h => ⟨Nat.le_refl _, rfl, Nat.le_refl _, fun _ => Nat.le_refl _,
      by simp [State.exchange, h], fun _ _ => rfl, fun _ _ => rfl, fun _ _ h => h⟩) ?_
    settled := fun n ended => grace.settled n ?_ }
  · split
    · trivial
    · exact nofun
  · have loc := tokens.waiting i n
    simp only [State.exchange] at ended
    grind

theorem take (here : s.pcs i = .clean) : Grace cqsts (s.take i) := by
  have ready : ∀ n ∈ s.callbacks i (!s.buf i), s.Settled n := by
    simpa [here, State.Good] using grace.good i
  refine { grace with
    good := grace.goods rfl (fun j h => ⟨Nat.le_refl _, rfl, Nat.le_refl _, fun _ => Nat.le_refl _,
      by simp [State.take, setBuffer, h], fun _ _ => rfl, fun _ _ => rfl, fun _ _ h => h⟩) trivial
    settled := fun n ended => ?_ }
  by_cases mem : n ∈ s.callbacks i (!s.buf i)
  · exact ready n mem
  · exact grace.settled n (by simpa [State.take, mem] using ended)

theorem run (tokens : Tokens size s) {n : ℕ} {l : List ℕ}
    (here : s.pcs i = .run (n :: l)) :
    Grace cqsts { s with
      pcs := update s.pcs i (.run l)
      loc := update s.loc n .done
      ran := update s.ran n (s.ran n + 1) } := by
  have mine : s.loc n = .running i := (tokens.running i n).1 (by simp [here])
  refine { grace with
    good := grace.goods rfl (fun j _ => ⟨Nat.le_refl _, rfl, Nat.le_refl _, fun _ => Nat.le_refl _,
      rfl, fun _ _ => rfl, fun _ _ => rfl, fun _ _ h => h⟩) trivial
    settled := fun m ended => ?_ }
  by_cases same : m = n
  · subst same
    exact grace.settled m (.inl ⟨i, mine⟩)
  · exact grace.settled m (by simpa [same] using ended)

theorem fetch (tokens : Tokens size s) :
    Grace cqsts { s with
      now := s.now + 1
      next := s.next + 1
      fetched := update s.fetched (s.next + 1) s.now
      pcs := update s.pcs i (.mark (s.next + 1)) } := by
  have old : ∀ g, g ≤ s.next → update s.fetched (s.next + 1) s.now g = s.fetched g :=
    fun g bound => update_of_ne (by omega) _ _
  have young : ∀ n ∈ s.callbacks i (!s.buf i), s.called n < s.now := by
    intro n mem
    apply grace.called
    have loc := (tokens.buffered i _ n).1 mem
    have born := tokens.born n
    rw [loc] at born
    simpa using born
  refine {
    called := fun n bound => Nat.lt_succ_of_lt (grace.called n bound)
    started := fun j start active => Nat.lt_succ_of_lt (grace.started j start active)
    fetched := fun g positive bound => ?_
    ordered := fun g g' positive le bound => ?_
    known := fun j => ⟨Nat.le_succ_of_le (grace.known j).1, Nat.le_succ_of_le (grace.known j).2⟩
    published := fun j start active positive => ?_
    good := grace.goods rfl (fun j _ => ⟨Nat.le_succ _, rfl, Nat.le_refl _, fun _ => Nat.le_refl _,
      rfl, fun _ _ => rfl, old, fun _ _ h => h⟩) ⟨⟨by omega, Nat.le_refl _, fun n mem => ?_⟩,
      Nat.le_succ_of_le (grace.known i).1⟩
    settled := grace.settled }
  · have bound : g ≤ s.next + 1 := bound
    by_cases last : g = s.next + 1
    · subst last
      simp
    · simp only [old g (by omega)]
      exact Nat.lt_succ_of_lt (grace.fetched g positive (by omega))
  · have bound : g' ≤ s.next + 1 := bound
    by_cases last : g' = s.next + 1
    · subst last
      by_cases also : g = s.next + 1
      · subst also
        exact Nat.le_refl _
      · simp only [old g (by omega), update_self]
        exact Nat.le_of_lt (grace.fetched g positive (by omega))
    · simp only [old g (by omega), old g' (by omega)]
      exact grace.ordered g g' positive le (by omega)
  · simp only [old _ (grace.known j).1]
    exact grace.published j start active positive
  · simpa using young n mem

/-- A thread publishes a generation: it is running, so no section is active on its CPU. -/
theorem store {v : ℕ} {g : Option ℕ} (here : s.pcs i = .store v g)
    (running : s.active i = none) :
    Grace cqsts { s with gen := update s.gen i v
                         pcs := update s.pcs i (.notify cqsts g) } := by
  have good := grace.good i
  rw [here] at good
  have raised : ∀ j, s.gen j ≤ update s.gen i v j := by
    intro j
    by_cases h : j = i
    · subst h
      simpa using good.1
    · simp [h]
  refine { grace with
    known := fun j => ⟨?_, (grace.known j).2⟩
    published := fun j start active => ?_
    good := grace.goods rfl (fun j h => ⟨Nat.le_refl _, by simp [h], Nat.le_refl _, raised, rfl,
      fun _ _ => rfl, fun _ _ => rfl, fun _ _ h => h⟩) fun h eq => ⟨(good.2.2 h eq).2, ?_⟩ }
  · by_cases h : j = i
    · subst h
      simpa using good.2.1
    · simpa [h] using (grace.known j).1
  · have ne : j ≠ i := by
      rintro rfl
      rw [running] at active
      cases active
    simpa [ne] using grace.published j start active
  · simpa using (good.2.2 h eq).1

/-- All CPUs have published the generation: what was active at its start has ended. -/
theorem settled_of_all (all : ∀ i, i ∈ cqsts) {g : ℕ} (batch : s.Batch i g)
    (reached : ∀ j ∈ cqsts, g ≤ s.gen j) {n : ℕ} (mem : n ∈ s.callbacks i (!s.buf i)) :
    s.Settled n := by
  intro j start active
  obtain ⟨positive, _, before⟩ := batch
  have published := reached j (all j)
  calc s.called n < s.fetched g := before n mem
    _ ≤ s.fetched (s.gen j) := grace.ordered g _ positive published (grace.known j).1
    _ < start := grace.published j start active (by omega)

/-- A step of callers: the batches, the generations and the sections stay. -/
theorem caller (tokens : Tokens size s)
    (same : s'.next = s.next ∧ s'.gen = s.gen ∧ s'.request = s.request ∧ s'.buf = s.buf ∧
      s'.fetched = s.fetched ∧ s'.active = s.active ∧ s'.pcs = s.pcs)
    (batches : ∀ i, s'.callbacks i (!s.buf i) = s.callbacks i (!s.buf i))
    (later : s.now ≤ s'.now) (old : ∀ n, n < s.tokens → s'.called n = s.called n)
    (new : ∀ n, n < s'.tokens → s'.called n < s'.now)
    (locs : ∀ n, (∃ i, s'.loc n = .running i) ∨ s'.loc n = .done →
      (∃ i, s.loc n = .running i) ∨ s.loc n = .done) : Grace cqsts s' := by
  obtain ⟨next, gen, request, buf, fetched, active, pcs⟩ := same
  have known : ∀ n, s.loc n ≠ .unborn → s'.called n = s.called n := by
    intro n born
    apply old
    have := tokens.born n
    grind
  have settled : ∀ n, s.loc n ≠ .unborn → s.Settled n → s'.Settled n := by
    intro n born h j start act
    rw [active] at act
    rw [known n born]
    exact h j start act
  refine ⟨new, ?_, ?_, ?_, ?_, ?_, fun j => ?_, fun n ended => ?_⟩
  · rw [active]
    exact fun i start act => Nat.lt_of_lt_of_le (grace.started i start act) later
  · rw [fetched, next]
    exact fun g positive bound => Nat.lt_of_lt_of_le (grace.fetched g positive bound) later
  · rw [fetched, next]
    exact grace.ordered
  · rw [gen, request, next]
    exact grace.known
  · rw [active, gen, fetched]
    exact grace.published
  · have frame : Frame s s' j := by
      have inBatch : ∀ n ∈ s.callbacks j (!s.buf j), s.loc n ≠ .unborn := by
        intro n mem
        rw [(tokens.buffered j _ n).1 mem]
        simp
      refine ⟨Nat.le_of_eq next.symm, by rw [gen], Nat.le_of_eq (congrFun request j).symm,
        fun k => Nat.le_of_eq (congrFun gen k).symm, ?_,
        fun n mem => known n (inBatch n mem), fun _ _ => by rw [fetched],
        fun n mem => settled n (inBatch n mem)⟩
      rw [buf]
      exact batches j
    rw [pcs]
    exact frame.good (grace.good j)
  · have before := locs n ended
    refine settled n ?_ (grace.settled n before)
    rcases before with ⟨i, loc⟩ | loc <;> rw [loc] <;> simp

/-- Sections end, and new ones start now. -/
theorem sections (tokens : Tokens size s) {active : ι → Option ℕ} {now : ℕ}
    (later : s.now ≤ now)
    (young : ∀ j start, active j = some start →
      s.active j = some start ∨ start = s.now ∧ s.now < now) :
    Grace cqsts { s with active := active, now := now } := by
  have settled : ∀ n, s.loc n ≠ .unborn → s.Settled n →
      Settled { s with active := active, now := now } n := by
    intro n known h j start act
    rcases young j start act with old | ⟨rfl, _⟩
    · exact h j start old
    · refine grace.called n (Nat.lt_of_not_le fun unborn => known ?_)
      exact (tokens.born n).2 unborn
  refine {
    called := fun n bound => Nat.lt_of_lt_of_le (grace.called n bound) later
    started := fun j start act => ?_
    fetched := fun g positive bound => Nat.lt_of_lt_of_le (grace.fetched g positive bound) later
    ordered := grace.ordered
    known := grace.known
    published := fun j start act positive => ?_
    good := fun j => ?_
    settled := fun n ended => settled n ?_ (grace.settled n ended) }
  · rcases young j start act with old | ⟨rfl, new⟩
    · exact Nat.lt_of_lt_of_le (grace.started j start old) later
    · exact new
  · rcases young j start act with old | ⟨rfl, _⟩
    · exact grace.published j start old positive
    · exact grace.fetched _ positive (grace.known j).1
  · have frame : Frame s { s with active := active, now := now } j := by
      refine ⟨Nat.le_refl _, rfl, Nat.le_refl _, fun _ => Nat.le_refl _, rfl, fun _ _ => rfl,
        fun _ _ => rfl, fun n mem => settled n ?_⟩
      rw [(tokens.buffered j _ n).1 mem]
      simp
    exact frame.good (grace.good j)
  · rcases ended with ⟨i, loc⟩ | loc <;> simp_all

end

end Grace

end MiniOsv.Sync.Rcu
