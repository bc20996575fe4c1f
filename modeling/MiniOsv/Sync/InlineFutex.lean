/-
# Sync.InlineFutex -- the futex queue and its selective wake

`inline_futex` keeps its waiters in an `intrusive_queue`: two singly linked lists
through the waiters' own records, one that is pushed to (newest first) and one that is
popped from (oldest first).  The push list is reversed in place and hung behind the pop
list only when a traversal runs out of nodes.  `wake` walks the queue, unlinks up to
`count` matching records into a list of its own, and wakes that list afterwards.

The model works on next pointers, as the code does.  `Represents` says which queue, in
order of arrival, two heads and the pointers stand for; `wake_spec` gives the effect of
`wake` on it for every split between the two lists.  The loops follow pointers, so they
take a bound on their number of rounds; more rounds than waiters always suffice.
-/
import MiniOsv.Theory.Chain

namespace MiniOsv.Sync.InlineFutex

open Theory List
open Function

variable {α : Type} [DecidableEq α]

/-- The part of a `futex_node` that `wake` selects by. -/
structure Label where
  key : BitVec 64
  mask : BitVec 32
  deriving DecidableEq

/-- The waiters' records: `next` and `woken()` of the `wait_record`, key and mask of the
`futex_node`. -/
structure Memory (α : Type) where
  next : α → Option α
  woken : α → Bool
  label : α → Label

/-- `intrusive_queue`: the heads of the two lists. -/
structure Queue (α : Type) where
  pushList : Option α
  popList : Option α
  deriving DecidableEq

/-- `item->next = target`. -/
def Memory.link (m : Memory α) (item : α) (target : Option α) : Memory α :=
  { m with next := update m.next item target }

/-! ## The intrusive queue -/

/-- The loop of `reverse`. -/
def reverse : ℕ → Memory α → Option α → Option α → Option (Memory α × Option α)
  | _, m, none, reversed => some (m, reversed)
  | 0, _, some _, _ => none
  | rounds + 1, m, some head, reversed =>
    reverse rounds (m.link head reversed) (m.next head) (some head)

def push (m : Memory α) (q : Queue α) (item : α) : Memory α × Queue α :=
  (m.link item q.pushList, { q with pushList := some item })

def pop (rounds : ℕ) (m : Memory α) (q : Queue α) : Option (Memory α × Queue α × Option α) :=
  match q.popList with
  | some r => some (m, { q with popList := m.next r }, some r)
  | none =>
    match q.pushList with
    | none => some (m, q, none)
    | some head => do
        let (m, popList) ← reverse rounds m (some head) none
        some (m, ⟨none, popList.bind m.next⟩, popList)

/-- The node after `pred`, pulling the push list over when the pop list ends there. -/
def next (rounds : ℕ) (m : Memory α) (q : Queue α) :
    Option α → Option (Memory α × Queue α × Option α)
  | none =>
    if q.popList = none ∧ q.pushList ≠ none then do
      let (m, popList) ← reverse rounds m q.pushList none
      some (m, ⟨none, popList⟩, popList)
    else some (m, q, q.popList)
  | some pred =>
    if m.next pred ≠ none then some (m, q, m.next pred)
    else if q.pushList = none then some (m, q, none)
    else do
      let (m, reversed) ← reverse rounds m q.pushList none
      some (m.link pred reversed, { q with pushList := none }, reversed)

/-! ## The futex operations -/

/-- The test of `wake`: key 0 stands for every key. -/
def Label.matching (label : Label) (key : BitVec 64) (maskPattern : BitVec 32) : Bool :=
  (label.key == key || key == 0) && label.mask &&& maskPattern != 0

def Memory.matching (m : Memory α) (key : BitVec 64) (maskPattern : BitVec 32) (curr : α) : Bool :=
  (m.label curr).matching key maskPattern

/-- The variables of the traversal in `wake`.  `wakeTail` is the record whose `next`
field `wake_tail` points to, `none` while it points to `wake_head`. -/
structure Scan (α : Type) where
  memory : Memory α
  queue : Queue α
  pred : Option α
  curr : Option α
  wakeHead : Option α
  wakeTail : Option α
  wokenCount : ℕ

/-- If `curr` ends the pop list, hang the push list behind it. -/
def Scan.pull (rounds : ℕ) (s : Scan α) (curr : α) : Option (Scan α) :=
  if s.memory.next curr = none then
    (next rounds s.memory s.queue (some curr)).map fun (m, q, _) =>
      { s with memory := m, queue := q }
  else some s

/-- Step over `curr` and unlink it, as head of the queue or behind its predecessor. -/
def Scan.unlink (rounds : ℕ) (s : Scan α) (curr : α) : Option (Scan α) :=
  let following := s.memory.next curr
  match s.pred with
  | none =>
    (pop rounds s.memory s.queue).map fun (m, q, _) =>
      { s with memory := m, queue := q, curr := following }
  | some pred => some { s with memory := s.memory.link pred following, curr := following }

/-- Append the unlinked record to the list of records to wake. -/
def Scan.collect (s : Scan α) (toWake : α) : Scan α :=
  let m := s.memory.link toWake none
  match s.wakeTail with
  | none =>
    { s with memory := m, wakeHead := some toWake, wakeTail := some toWake,
             wokenCount := s.wokenCount + 1 }
  | some last =>
    { s with memory := m.link last (some toWake), wakeTail := some toWake,
             wokenCount := s.wokenCount + 1 }

/-- One round of the traversal at the record `curr`. -/
def scanRound (rounds : ℕ) (key : BitVec 64) (maskPattern : BitVec 32) (s : Scan α) (curr : α) :
    Option (Scan α) := do
  let s ← s.pull rounds curr
  if s.memory.matching key maskPattern curr then
    let s ← s.unlink rounds curr
    some (s.collect curr)
  else
    some { s with pred := some curr, curr := s.memory.next curr }

/-- `while (curr && woken_count < count)`. -/
def scan (size : ℕ) (key : BitVec 64) (maskPattern : BitVec 32) (count : ℕ) :
    ℕ → Scan α → Option (Scan α)
  | rounds, s =>
    match s.curr with
    | none => some s
    | some curr =>
      if s.wokenCount < count then
        match rounds with
        | 0 => none
        | rounds + 1 => do
            let s ← scanRound size key maskPattern s curr
            scan size key maskPattern count rounds s
      else some s

/-- `while (it)`: wakes the collected records, with `assert(!it->woken())`.  The result
lists the records in the order of their wakes. -/
def wakeCollected : ℕ → Memory α → Option α → Option (Memory α × List α)
  | _, m, none => some (m, [])
  | 0, _, some _ => none
  | rounds + 1, m, some it =>
    let nextNode := m.next it
    if m.woken it then none
    else do
      let (m, wakes) ←
        wakeCollected rounds { m with woken := update m.woken it true } nextNode
      some (m, it :: wakes)

/-- What a call of `wake` leaves, wakes (in this order) and returns. -/
structure Outcome (α : Type) where
  memory : Memory α
  queue : Queue α
  wakes : List α
  returned : ℕ

def wake (rounds : ℕ) (m : Memory α) (q : Queue α) (key : BitVec 64) (maskPattern : BitVec 32)
    (count : ℕ) : Option (Outcome α) :=
  if count = 0 ∨ maskPattern = 0 then some ⟨m, q, [], 0⟩
  else do
    let (m, q, curr) ← next rounds m q none
    let s ← scan rounds key maskPattern count rounds ⟨m, q, none, curr, none, none, 0⟩
    let (m, wakes) ← wakeCollected rounds s.memory s.wakeHead
    some ⟨m, s.queue, wakes, s.wokenCount⟩

/-- `std::numeric_limits<unsigned>::max()`. -/
def unsignedMax : ℕ := 4294967295

def wakeAll (rounds : ℕ) (m : Memory α) (q : Queue α) (key : BitVec 64)
    (maskPattern : BitVec 32) : Option (Outcome α) :=
  wake rounds m q key maskPattern unsignedMax

/-- The default arguments: `key = ~0` and `mask_pattern = ~0U`. -/
def wakeAllDefault (rounds : ℕ) (m : Memory α) (q : Queue α) : Option (Outcome α) :=
  wakeAll rounds m q (BitVec.allOnes 64) (BitVec.allOnes 32)

/-- The part of `wait` under the queue lock, for the record `item` of the caller: its
fields are set, and it is pushed if the word still holds the expected value. -/
def wait {β : Type} [DecidableEq β] (m : Memory α) (q : Queue α) (item : α) (loaded expected : β)
    (key : BitVec 64) (mask : BitVec 32) : Memory α × Queue α :=
  let m : Memory α :=
    { next := update m.next item none
      woken := update m.woken item false
      label := update m.label item ⟨key, mask⟩ }
  if loaded = expected then push m q item else (m, q)

/-- `wait_always` waits on a local word that holds 0 for the value 1. -/
def waitAlways (m : Memory α) (q : Queue α) (item : α) (key : BitVec 64) (mask : BitVec 32) :
    Memory α × Queue α :=
  wait m q item (0 : BitVec 32) 1 key mask

/-! ## What a queue represents -/

/-- The two lists stand for one queue, in order of arrival: the pop list, then the push
list from its far end.  No record is queued twice and none of them is woken. -/
structure Represents (m : Memory α) (q : Queue α) (fifo : List α) : Prop where
  lists : ∃ pop push, Segment m.next q.popList pop none ∧ Segment m.next q.pushList push none ∧
    fifo = pop ++ push.reverse
  nodup : fifo.Nodup
  asleep : ∀ a ∈ fifo, m.woken a = false

section Specs

variable {rounds size count : ℕ} {m : Memory α} {q : Queue α} {key : BitVec 64}
  {maskPattern : BitVec 32}

/-- The records keep everything but their next pointers. -/
structure SameRecords (m m' : Memory α) : Prop where
  woken : m'.woken = m.woken
  label : m'.label = m.label

omit [DecidableEq α] in
theorem SameRecords.refl : SameRecords m m :=
  ⟨rfl, rfl⟩

omit [DecidableEq α] in
theorem SameRecords.trans {m' m'' : Memory α} (first : SameRecords m m')
    (second : SameRecords m' m'') : SameRecords m m'' :=
  ⟨second.woken.trans first.woken, second.label.trans first.label⟩

omit [DecidableEq α] in
theorem SameRecords.matching {m' : Memory α} (same : SameRecords m m') :
    m'.matching = m.matching := by
  unfold Memory.matching
  rw [same.label]

theorem sameRecords_link (m : Memory α) (item : α) (target : Option α) :
    SameRecords m (m.link item target) :=
  ⟨rfl, rfl⟩

/-- **Reversal in place.**  Only the pointers of the reversed nodes change. -/
theorem reverse_spec {l acc : List α} {head reversed : Option α}
    (list : Segment m.next head l none) (done : Segment m.next reversed acc none)
    (nodup : (l ++ acc).Nodup) (enough : l.length ≤ rounds) :
    ∃ m' p, reverse rounds m head reversed = some (m', p) ∧ SameRecords m m' ∧
      Segment m'.next p (l.reverse ++ acc) none ∧ ∀ a ∉ l, m'.next a = m.next a := by
  induction l generalizing rounds m head reversed acc with
  | nil =>
    cases list
    exact ⟨m, reversed, by cases rounds <;> rfl, .refl, done, fun _ _ => rfl⟩
  | cons a l ih =>
    obtain ⟨rfl, rest⟩ := list
    obtain ⟨fresh, nodup⟩ := nodup_cons.1 nodup
    have notRest : a ∉ l := fun mem => fresh (mem_append_left _ mem)
    have notDone : a ∉ acc := fun mem => fresh (mem_append_right _ mem)
    cases rounds with
    | zero => cases enough
    | succ rounds =>
      have linked : Segment (m.link a reversed).next (some a) (a :: acc) none := by
        refine ⟨rfl, ?_⟩
        have here : (m.link a reversed).next a = reversed := update_self _ _ _
        rw [here]
        exact done.update notDone
      have apart : (l ++ a :: acc).Nodup :=
        nodup_middle.2 (nodup_cons.2 ⟨fresh, nodup⟩)
      obtain ⟨m', p, run, same, list, others⟩ :=
        ih (rest.update notRest) linked apart (Nat.le_of_succ_le_succ enough)
      refine ⟨m', p, run, (sameRecords_link m a reversed).trans same, ?_, fun b outside => ?_⟩
      · simpa using list
      · obtain ⟨ne, outside⟩ := not_or.1 (mt mem_cons.2 outside)
        rw [others b outside]
        exact update_of_ne ne _ _

/-! ## The traversal -/

/-- The traversal has kept the records `kept` in front of `curr`, has `rest` and then the
push list `back` still to see, and has collected the records `woken`. -/
structure Scanning (s : Scan α) (kept rest back woken : List α) : Prop where
  seen : Segment s.memory.next s.queue.popList kept s.curr
  ahead : Segment s.memory.next s.curr rest none
  behind : Segment s.memory.next s.queue.pushList back none
  pred : s.pred = kept.getLast?
  collected : Segment s.memory.next s.wakeHead woken none
  tail : s.wakeTail = woken.getLast?
  counted : s.wokenCount = woken.length
  nodup : (kept ++ rest ++ back ++ woken).Nodup
  pulled : rest = [] → back = []

variable {s : Scan α} {curr : α} {kept rest back woken : List α}

omit [DecidableEq α] in
theorem Scanning.curr_eq (scanning : Scanning s kept (curr :: rest) back woken) :
    s.curr = some curr :=
  scanning.ahead.head

omit [DecidableEq α] in
/-- No record is on two of the lists. -/
theorem Scanning.apart (scanning : Scanning s kept rest back woken) :
    (∀ a ∈ kept, a ∉ rest ∧ a ∉ back ∧ a ∉ woken) ∧ (∀ a ∈ rest, a ∉ back ∧ a ∉ woken) ∧
      (∀ a ∈ back, a ∉ woken) ∧ kept.Nodup ∧ rest.Nodup ∧ back.Nodup ∧ woken.Nodup := by
  have nodup := scanning.nodup
  simp only [nodup_append] at nodup
  grind

theorem Scanning.pull (scanning : Scanning s kept (curr :: rest) back woken)
    (enough : back.length ≤ rounds) :
    ∃ s' rest' back', s.pull rounds curr = some s' ∧ SameRecords s.memory s'.memory ∧
      Scanning s' kept (curr :: rest') back' woken ∧ (rest' = [] → back' = []) ∧
      rest' ++ back'.reverse = rest ++ back.reverse := by
  have restList : Segment s.memory.next (s.memory.next curr) rest none := scanning.ahead.2
  cases rest with
  | cons b rest =>
    have more : s.memory.next curr ≠ none := by simp [restList.head]
    exact ⟨s, b :: rest, back, if_neg more, .refl, scanning,
      fun empty => absurd empty (cons_ne_nil _ _), rfl⟩
  | nil =>
    have last : s.memory.next curr = none := restList
    obtain ⟨keptApart, currApart, wokenApart, -, -, backNodup, -⟩ := scanning.apart
    have fresh := currApart curr mem_cons_self
    by_cases empty : s.queue.pushList = none
    · have noBack : back = [] := scanning.behind.eq_nil_iff.2 empty
      refine ⟨s, [], back, ?_, .refl, scanning, fun _ => noBack, rfl⟩
      simp [Scan.pull, last, InlineFutex.next, empty]
    · obtain ⟨m', p, run, same, list, others⟩ :=
        reverse_spec scanning.behind (Segment.nil.2 rfl) (by simpa using backNodup) enough
      have unchanged : ∀ a, a ∉ back → a ≠ curr →
          (m'.link curr p).next a = s.memory.next a := fun a outside ne =>
        (update_of_ne ne _ _).trans (others a outside)
      refine ⟨{ s with memory := m'.link curr p, queue := { s.queue with pushList := none } },
        back.reverse, [], ?_, same.trans (sameRecords_link _ _ _), ?_, fun _ => rfl, by simp⟩
      · simp [Scan.pull, last, InlineFutex.next, empty, run]
      · refine ⟨scanning.seen.congr fun a mem => ?_, ⟨scanning.ahead.head, ?_⟩, rfl,
          scanning.pred, scanning.collected.congr fun a mem => ?_, scanning.tail,
          scanning.counted, ?_, fun _ => rfl⟩
        · have away := keptApart a mem
          exact unchanged a away.2.1 fun here => away.1 (here ▸ mem_cons_self)
        · have here : (m'.link curr p).next curr = p := update_self _ _ _
          rw [here]
          rw [append_nil] at list
          exact list.update (by simpa using fresh.1)
        · exact unchanged a (fun inBack => wokenApart a inBack mem)
            fun here => fresh.2 (here ▸ mem)
        · refine (List.Perm.nodup_iff (perm_iff_count.2 fun a => ?_)).1 scanning.nodup
          simp only [count_append, count_cons, count_nil, count_reverse]
          omega

/-- Unlinking the record looked at leaves it on no list. -/
theorem Scanning.unlink (rounds : ℕ) (scanning : Scanning s kept (curr :: rest) back woken)
    (pulled : rest = [] → back = []) :
    ∃ s', s.unlink rounds curr = some s' ∧ SameRecords s.memory s'.memory ∧
      Scanning s' kept rest back woken := by
  obtain ⟨keptApart, currApart, -, keptNodup, restNodup, -, -⟩ := scanning.apart
  have restList : Segment s.memory.next (s.memory.next curr) rest none := scanning.ahead.2
  have nodup : (kept ++ rest ++ back ++ woken).Nodup :=
    scanning.nodup.sublist (by simp)
  rcases eq_nil_or_concat kept with rfl | ⟨front, pred, rfl⟩
  · have noPred : s.pred = none := scanning.pred
    have atHead : s.queue.popList = some curr := scanning.seen.trans scanning.ahead.head
    refine ⟨{ s with queue := { s.queue with popList := s.memory.next curr },
                     curr := s.memory.next curr }, ?_, .refl, ?_⟩
    · simp [Scan.unlink, noPred, pop, atHead]
    · exact ⟨rfl, restList, scanning.behind, scanning.pred, scanning.collected, scanning.tail,
        scanning.counted, nodup, pulled⟩
  · rw [concat_eq_append] at *
    have hasPred : s.pred = some pred := by rw [scanning.pred, List.getLast?_concat]
    have away := keptApart pred (by simp)
    have fresh : pred ∉ front := by
      have := (nodup_append.1 keptNodup).2.2
      exact fun mem => this pred mem pred (by simp) rfl
    refine ⟨{ s with memory := s.memory.link pred (s.memory.next curr),
                     curr := s.memory.next curr }, ?_, sameRecords_link _ _ _, ?_⟩
    · simp [Scan.unlink, hasPred]
    · exact ⟨scanning.seen.redirect fresh,
        restList.update fun mem => away.1 (mem_cons_of_mem _ mem),
        scanning.behind.update away.2.1, scanning.pred, scanning.collected.update away.2.2,
        scanning.tail, scanning.counted, nodup, pulled⟩

theorem Scanning.collect (scanning : Scanning s kept rest back woken)
    (fresh : curr ∉ kept ++ rest ++ back ++ woken) :
    SameRecords s.memory (s.collect curr).memory ∧
      Scanning (s.collect curr) kept rest back (woken ++ [curr]) := by
  obtain ⟨keptApart, restApart, backApart, -, -, -, wokenNodup⟩ := scanning.apart
  simp only [mem_append, not_or] at fresh
  obtain ⟨⟨⟨notKept, notRest⟩, notBack⟩, notWoken⟩ := fresh
  have nodup : (kept ++ rest ++ back ++ (woken ++ [curr])).Nodup := by
    rw [← append_assoc]
    refine List.Nodup.append scanning.nodup (nodup_singleton _) ?_
    simp [notKept, notRest, notBack, notWoken]
  rcases eq_nil_or_concat woken with rfl | ⟨front, last, rfl⟩
  · have noTail : s.wakeTail = none := scanning.tail
    have noneYet : s.wokenCount = 0 := scanning.counted
    rw [Scan.collect, noTail]
    refine ⟨sameRecords_link _ _ _, scanning.seen.update notKept, scanning.ahead.update notRest,
      scanning.behind.update notBack, scanning.pred, ⟨rfl, update_self _ _ _⟩, rfl, ?_,
      nodup, scanning.pulled⟩
    simp [noneYet]
  · rw [concat_eq_append] at *
    have hasTail : s.wakeTail = some last := by rw [scanning.tail, List.getLast?_concat]
    have inWoken : last ∈ front ++ [last] := by simp
    have ne : last ≠ curr := ne_of_mem_of_not_mem inWoken notWoken
    have lastFresh : last ∉ front := by
      have := (nodup_append.1 wokenNodup).2.2
      exact fun mem => this last mem last (by simp) rfl
    rw [Scan.collect, hasTail]
    refine ⟨(sameRecords_link _ _ _).trans (sameRecords_link _ _ _),
      (scanning.seen.update notKept).update fun mem => (keptApart last mem).2.2 inWoken,
      (scanning.ahead.update notRest).update fun mem => (restApart last mem).2 inWoken,
      (scanning.behind.update notBack).update fun mem => backApart last mem inWoken,
      scanning.pred, ?_, ?_, ?_, nodup, scanning.pulled⟩
    · refine Segment.append.2 ⟨some curr, (scanning.collected.update notWoken).redirect lastFresh,
        rfl, ?_⟩
      exact (update_of_ne ne.symm _ _).trans (update_self _ _ _)
    · simp
    · have := scanning.counted
      simp only [length_append, length_singleton] at this ⊢
      omega

/-- **One round of the traversal**: the record looked at is collected if it matches and
kept otherwise. -/
theorem Scanning.round (key : BitVec 64) (maskPattern : BitVec 32)
    (scanning : Scanning s kept (curr :: rest) back woken) (enough : back.length ≤ rounds) :
    ∃ s' rest' back', scanRound rounds key maskPattern s curr = some s' ∧
      SameRecords s.memory s'.memory ∧ rest' ++ back'.reverse = rest ++ back.reverse ∧
      if s.memory.matching key maskPattern curr then
        Scanning s' kept rest' back' (woken ++ [curr])
      else Scanning s' (kept ++ [curr]) rest' back' woken := by
  obtain ⟨s₁, rest', back', pulled, same, scanning, full, order⟩ := scanning.pull enough
  by_cases hit : s.memory.matching key maskPattern curr = true
  · obtain ⟨s₂, unlinked, same', scanning'⟩ := scanning.unlink rounds full
    have fresh : curr ∉ kept ++ rest' ++ back' ++ woken := by
      obtain ⟨keptApart, currApart, -, -, restNodup, -, -⟩ := scanning.apart
      have away := currApart curr mem_cons_self
      simp only [mem_append, not_or]
      exact ⟨⟨⟨fun mem => (keptApart curr mem).1 mem_cons_self,
        (nodup_cons.1 restNodup).1⟩, away.1⟩, away.2⟩
    obtain ⟨same'', collected⟩ := scanning'.collect fresh
    refine ⟨s₂.collect curr, rest', back', ?_, (same.trans same').trans same'', order, ?_⟩
    · simp [scanRound, pulled, same.matching, hit, unlinked]
    · rw [if_pos hit]
      exact collected
  · refine ⟨{ s₁ with pred := some curr, curr := s₁.memory.next curr }, rest', back', ?_, same,
      order, ?_⟩
    · simp [scanRound, pulled, same.matching, hit]
    · rw [if_neg hit]
      refine ⟨Segment.concat.2 ⟨?_, rfl⟩, scanning.ahead.2, scanning.behind, by simp,
        scanning.collected, scanning.tail, scanning.counted, ?_, full⟩
      · exact scanning.curr_eq ▸ scanning.seen
      · simpa using scanning.nodup

theorem Scanning.scan_nil (scanning : Scanning s kept [] back woken) :
    back = [] ∧ InlineFutex.scan size key maskPattern count rounds s = some s := by
  have ended : s.curr = none := scanning.ahead
  refine ⟨scanning.pulled rfl, ?_⟩
  cases rounds <;> rw [InlineFutex.scan, ended]

/-- **The traversal.**  It collects the first matches it sees, up to the count, and keeps
the rest in order. -/
theorem Scanning.scan (key : BitVec 64) (maskPattern : BitVec 32) (count : ℕ)
    (scanning : Scanning s kept rest back woken) (enough : rest.length + back.length ≤ size)
    (far : rest.length + back.length ≤ rounds) :
    ∃ s' kept' rest' back' woken', InlineFutex.scan size key maskPattern count rounds s = some s' ∧
      SameRecords s.memory s'.memory ∧ Scanning s' kept' rest' back' woken' ∧
      woken' = woken ++ takeMatches (s.memory.matching key maskPattern)
        (count - woken.length) (rest ++ back.reverse) ∧
      kept' ++ rest' ++ back'.reverse =
        kept ++ dropMatches (s.memory.matching key maskPattern)
          (count - woken.length) (rest ++ back.reverse) := by
  induction rounds generalizing s kept rest back woken with
  | zero =>
    have noRest : rest = [] := length_eq_zero_iff.1 (by omega)
    subst noRest
    obtain ⟨rfl, ran⟩ := scanning.scan_nil
    exact ⟨s, kept, [], [], woken, ran, .refl, scanning, by simp [takeMatches],
      by simp [dropMatches]⟩
  | succ rounds ih =>
    cases rest with
    | nil =>
      obtain ⟨rfl, ran⟩ := scanning.scan_nil
      exact ⟨s, kept, [], [], woken, ran, .refl, scanning, by simp [takeMatches],
        by simp [dropMatches]⟩
    | cons curr rest =>
      by_cases more : s.wokenCount < count
      · obtain ⟨s₁, rest', back', ran, same, order, scanned⟩ :=
          scanning.round key maskPattern (Nat.le_trans (Nat.le_add_left _ _) enough)
        have lengths := congrArg List.length order
        simp only [length_append, length_reverse, length_cons] at lengths enough far
        have fits : rest'.length + back'.length ≤ size := by omega
        have ends : rest'.length + back'.length ≤ rounds := by omega
        have counted := scanning.counted
        have step : InlineFutex.scan size key maskPattern count (rounds + 1) s =
            InlineFutex.scan size key maskPattern count rounds s₁ := by
          conv_lhs => rw [InlineFutex.scan, scanning.curr_eq]
          simp [more, ran]
        rw [cons_append, ← order, ← same.matching]
        split at scanned
        next hit =>
          obtain ⟨s', kept', rest'', back'', woken', run, same', last, taken, left⟩ :=
            ih scanned fits ends
          have room : count - woken.length = count - (woken ++ [curr]).length + 1 := by
            rw [length_append, length_singleton]
            omega
          rw [← same.matching] at hit
          refine ⟨s', kept', rest'', back'', woken', step.trans run, same.trans same', last, ?_, ?_⟩
          · rw [taken, room, takeMatches_cons_pos hit, append_assoc, singleton_append]
          · rw [left, room, dropMatches_cons_pos hit]
        next miss =>
          obtain ⟨s', kept', rest'', back'', woken', run, same', last, taken, left⟩ :=
            ih scanned fits ends
          rw [← same.matching, Bool.not_eq_true] at miss
          refine ⟨s', kept', rest'', back'', woken', step.trans run, same.trans same', last, ?_, ?_⟩
          · rw [taken, takeMatches_cons_neg miss]
          · rw [left, dropMatches_cons_neg miss, append_assoc, singleton_append]
      · have full : count - woken.length = 0 := by
          have := scanning.counted
          omega
        refine ⟨s, kept, curr :: rest, back, woken, ?_, .refl, scanning, by simp [full], ?_⟩
        · rw [InlineFutex.scan, scanning.curr_eq]
          exact if_neg more
        · simp [full]

/-! ## The whole call -/

/-- The collected records are woken one by one, in the order of the list. -/
theorem wakeCollected_spec {p : Option α} {l : List α} (list : Segment m.next p l none)
    (nodup : l.Nodup) (asleep : ∀ a ∈ l, m.woken a = false) (enough : l.length ≤ rounds) :
    ∃ m', wakeCollected rounds m p = some (m', l) ∧ m'.next = m.next ∧ m'.label = m.label ∧
      ∀ a, m'.woken a = (decide (a ∈ l) || m.woken a) := by
  induction l generalizing rounds m p with
  | nil =>
    cases list
    exact ⟨m, by cases rounds <;> rfl, rfl, rfl, fun a => by simp⟩
  | cons it l ih =>
    obtain ⟨rfl, rest⟩ := list
    obtain ⟨fresh, nodup⟩ := nodup_cons.1 nodup
    cases rounds with
    | zero => cases enough
    | succ rounds =>
      have others : ∀ a ∈ l, update m.woken it true a = false := fun a mem => by
        rw [update_of_ne (ne_of_mem_of_not_mem mem fresh)]
        exact asleep a (mem_cons_of_mem _ mem)
      obtain ⟨m', run, links, labels, woken⟩ :=
        ih (m := { m with woken := update m.woken it true }) rest nodup others
          (Nat.le_of_succ_le_succ enough)
      refine ⟨m', ?_, links, labels, fun a => ?_⟩
      · simp [wakeCollected, asleep it mem_cons_self, run]
      · rw [woken a]
        by_cases here : a = it <;> simp [here]

/-- The traversal starts with everything still ahead of it. -/
theorem Represents.start {fifo : List α} (represents : Represents m q fifo)
    (enough : fifo.length ≤ rounds) :
    ∃ m' q' curr rest back, next rounds m q none = some (m', q', curr) ∧ SameRecords m m' ∧
      Scanning ⟨m', q', none, curr, none, none, 0⟩ [] rest back [] ∧
      rest ++ back.reverse = fifo := by
  obtain ⟨⟨pop, push, popList, pushList, rfl⟩, nodup, -⟩ := represents
  have apart : (pop ++ push).Nodup := by
    refine (List.Perm.nodup_iff ?_).1 nodup
    exact (reverse_perm push).append_left pop
  by_cases pull : q.popList = none ∧ q.pushList ≠ none
  · have noPop : pop = [] := popList.eq_nil_iff.2 pull.1
    subst noPop
    obtain ⟨m', p, run, same, list, -⟩ :=
      reverse_spec pushList (Segment.nil.2 rfl) (by simpa using apart)
        (by simpa using enough)
    rw [append_nil] at list
    refine ⟨m', ⟨none, p⟩, p, push.reverse, [], ?_, same, ?_, by simp⟩
    · simp [next, pull.1, pull.2, run]
    · exact ⟨rfl, list, rfl, rfl, rfl, rfl, rfl, by simpa using nodup, fun _ => rfl⟩
  · refine ⟨m, q, q.popList, pop, push, if_neg pull, .refl, ?_, rfl⟩
    refine ⟨rfl, popList, pushList, rfl, rfl, rfl, rfl, by simpa using apart, fun noPop => ?_⟩
    by_contra some
    exact pull ⟨popList.eq_nil_iff.1 noPop, mt pushList.eq_nil_iff.2 some⟩

/-- **The wake.**  Whatever the split between the two lists, the first matching waiters
in order of arrival are taken out and woken in that order, and the others stay. -/
theorem wake_spec {fifo : List α} (represents : Represents m q fifo)
    (enough : fifo.length ≤ rounds) (key : BitVec 64) (maskPattern : BitVec 32) (count : ℕ) :
    ∃ outcome, wake rounds m q key maskPattern count = some outcome ∧
      outcome.wakes =
        takeMatches (m.matching key maskPattern) count fifo ∧
      outcome.returned = outcome.wakes.length ∧ outcome.memory.label = m.label ∧
      (∀ a, outcome.memory.woken a = (decide (a ∈ outcome.wakes) || m.woken a)) ∧
      Represents outcome.memory outcome.queue
        (dropMatches (m.matching key maskPattern) count fifo) := by
  by_cases nothing : count = 0 ∨ maskPattern = 0
  · have noMatch : takeMatches (m.matching key maskPattern) count fifo = [] ∧
        dropMatches (m.matching key maskPattern) count fifo = fifo := by
      rcases nothing with rfl | rfl
      · simp
      · exact ⟨takeMatches_of_none fun a _ => by simp [Memory.matching, Label.matching],
          dropMatches_of_none fun a _ => by simp [Memory.matching, Label.matching]⟩
    refine ⟨⟨m, q, [], 0⟩, if_pos nothing, noMatch.1.symm, rfl, rfl, fun a => by simp, ?_⟩
    rw [noMatch.2]
    exact represents
  · obtain ⟨m₁, q₁, curr, rest, back, started, same₁, scanning, order⟩ := represents.start enough
    have lengths := congrArg List.length order
    simp only [length_append, length_reverse] at lengths
    obtain ⟨s, kept', rest', back', woken, scanned, same₂, scanning', taken, left⟩ :=
      scanning.scan key maskPattern count (by omega : _ ≤ rounds) (by omega : _ ≤ rounds)
    have same := same₁.trans same₂
    rw [order, same₁.matching, length_nil, Nat.sub_zero, nil_append] at taken left
    have among : ∀ a ∈ woken, a ∈ fifo := fun a mem =>
      takeMatches_sublist.subset (taken ▸ mem)
    have short : woken.length ≤ rounds := by
      rw [taken]
      exact Nat.le_trans takeMatches_sublist.length_le enough
    obtain ⟨-, -, -, -, -, -, wokenNodup⟩ := scanning'.apart
    obtain ⟨m', woke, links, labels, states⟩ := wakeCollected_spec scanning'.collected wokenNodup
      (fun a mem => by rw [same.woken]; exact represents.asleep a (among a mem)) short
    refine ⟨⟨m', s.queue, woken, s.wokenCount⟩, ?_, taken, scanning'.counted,
      labels.trans same.label, fun a => (states a).trans (by rw [same.woken]), ?_⟩
    · rw [wake, if_neg nothing]
      simp [started, scanned, woke]
    · rw [← left]
      have leftNodup : (woken ++ (kept' ++ rest' ++ back'.reverse)).Nodup := by
        rw [left, taken]
        exact perm_takeMatches_append.nodup_iff.2 represents.nodup
      obtain ⟨-, nodup, disjoint⟩ := nodup_append.1 leftNodup
      refine ⟨⟨kept' ++ rest', back', ?_, ?_, rfl⟩, nodup, fun a mem => ?_⟩
      · exact links ▸ Segment.append.2 ⟨_, scanning'.seen, scanning'.ahead⟩
      · exact links ▸ scanning'.behind
      · have notWoken : a ∉ woken := fun taken => disjoint a taken a mem rfl
        have inFifo : a ∈ fifo := dropMatches_sublist.subset (left ▸ mem)
        simp [states a, notWoken, same.woken, represents.asleep a inFifo]

end Specs

end MiniOsv.Sync.InlineFutex
