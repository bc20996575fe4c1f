/-
# Mempool.PagePool -- the L1 and L2 page pools

Every CPU has an array of free pages (L1); batches of pages travel between the arrays and a
lock-free stack of batches (L2), and between the stack and the page-range allocator.  A batch is
stored in one of its own pages, so the memory of the pages is part of the state.

An L1 array is used by the threads of its CPU with preemption off, so what a function does
between two drops of the preempt lock is one step as far as L1 is concerned.  L2 is shared by
the CPUs: a push or pop of the stack and the update of the counter are steps of their own.
Waking the fill threads changes no pool; they may call `refill` and `unfill` at any time.
-/
import MiniOsv.Mempool.PageRanges
import MiniOsv.Theory.Tally
import MiniOsv.Theory.Transition

namespace MiniOsv.PagePool

open Theory (Reachable tally tally_update)
open Mempool (wrap64)
open Function List Option

set_option linter.unusedSectionVars false

/-! ## The model -/

/-- `l1::max`, `page_batch::nr_pages` and `l2::_max`. -/
structure Config (Page : Type) where
  max : ℕ
  nrPages : ℕ
  maxBatches : ℕ
  null : Page
  pos : 0 < nrPages

/-- Where a thread is.  `alloc` and `free` are the loops of `alloc_page_batch` (called by
`l1::refill` on a CPU) and `free_page_batch`; `refill` and `unfill` are those of `l2`, called in
these loops or by the fill thread of `l2`. -/
inductive Pc (Cpu Page : Type) where
  | idle
  | alloc (cpu : Cpu)
  | allocDec (cpu : Cpu) (pb : Page)
  | place (cpu : Cpu) (pb : Page)
  | free (pb : Page)
  | freeInc
  | refill (caller : Option Cpu)
  | refillPush (caller : Option Cpu) (pb : Page)
  | refillInc (caller : Option Cpu)
  | refillFree (caller : Option Cpu) (batch : List Page)
  | unfill (caller : Option Page)
  | unfillDec (caller : Option Page) (batch : List Page)
  | unfillFree (caller : Option Page) (batch : List Page)
  deriving DecidableEq, Repr

open Pc

/-- The pools.  The top of an L1 array is the head of its list; `mem` is what a page holds, read
as a batch; `failed` says that an assertion has failed. -/
structure Pools (Cpu Thread Page : Type) where
  l1 : Cpu → List Page
  stack : List Page
  nr : ℕ
  mem : Page → List Page
  callers : List Page
  free : List Page
  pcs : Thread → Pc Cpu Page
  failed : Bool

inductive Event (Cpu Thread Page : Type) where
  | allocPageLocal (thread : Thread) (cpu : Cpu)
  | freePageLocal (thread : Thread) (cpu : Cpu) (page : Page)
  | refill (thread : Thread) (cpu : Cpu)
  | unfill (thread : Thread) (cpu : Cpu)
  | refillL2 (thread : Thread)
  | unfillL2 (thread : Thread)
  /-- The thread goes on; `batch` is what the page-range allocator would return. -/
  | go (thread : Thread) (batch : List Page)
  | write (page : Page) (content : List Page)

section Model

variable {Cpu Thread Page : Type} [DecidableEq Cpu] [DecidableEq Thread] [DecidableEq Page]

/-- `l1::push`; `none` is the failed assertion. -/
def push (cfg : Config Page) (page : Page) (pages : List Page) : Option (List Page) :=
  if pages.length < cfg.max then some (page :: pages) else none

def pop : List Page → Option (Page × List Page)
  | [] => none
  | page :: pages => some (page, pages)

/-- The loop of `l1::refill`. -/
def pushAll (cfg : Config Page) : List Page → List Page → Option (List Page)
  | [], pages => some pages
  | page :: batch, pages => (push cfg page pages).bind (pushAll cfg batch)

/-- The loop of `l1::unfill`: the batch, and what is left. -/
def popMany : ℕ → List Page → Option (List Page × List Page)
  | 0, pages => some ([], pages)
  | n + 1, pages =>
    (pop pages).bind fun r => (popMany n r.2).map fun q => (r.1 :: q.1, q.2)

namespace Pools

def setPc (s : Pools Cpu Thread Page) (t : Thread) (pc : Pc Cpu Page) : Pools Cpu Thread Page :=
  { s with pcs := update s.pcs t pc }

def incNr (s : Pools Cpu Thread Page) : Pools Cpu Thread Page := { s with nr := wrap64 (s.nr + 1) }

def decNr (s : Pools Cpu Thread Page) : Pools Cpu Thread Page :=
  { s with nr := wrap64 (s.nr + (2 ^ 64 - 1)) }

def fail (s : Pools Cpu Thread Page) : Pools Cpu Thread Page := { s with failed := true }

def freeBatch (cfg : Config Page) (s : Pools Cpu Thread Page) (batch : List Page) :
    Pools Cpu Thread Page :=
  if cfg.null ∈ batch then s.fail else { s with free := batch ++ s.free }

def returnRefill : Option Cpu → Pc Cpu Page
  | none => .idle
  | some cpu => .alloc cpu

def returnUnfill : Option Page → Pc Cpu Page
  | none => .idle
  | some pb => .free pb

def go (cfg : Config Page) (s : Pools Cpu Thread Page) (t : Thread) (batch : List Page) :
    Option (Pools Cpu Thread Page) :=
  match s.pcs t with
  | .idle => none
  | .alloc cpu =>
    match s.stack with
    | [] => some (s.setPc t (.refill (some cpu)))
    | pb :: rest => some ({ s with stack := rest }.setPc t (.allocDec cpu pb))
  | .allocDec cpu pb => some (s.decNr.setPc t (.place cpu pb))
  | .place cpu pb =>
    -- Other threads may have filled the array in the meantime.
    if (s.l1 cpu).length + cfg.nrPages ≤ cfg.max then
      match pushAll cfg (s.mem pb) (s.l1 cpu) with
      | some pages => some ({ s with l1 := update s.l1 cpu pages }.setPc t .idle)
      | none => some s.fail
    else some (s.setPc t (.free pb))
  | .free pb =>
    if s.stack.length < cfg.maxBatches then
      some ({ s with stack := pb :: s.stack }.setPc t .freeInc)
    else some (s.setPc t (.unfill (some pb)))
  | .freeInc => some (s.incNr.setPc t .idle)
  | .refill caller =>
    if s.nr < cfg.maxBatches / 2 then
      if batch.length = cfg.nrPages ∧ batch.Nodup ∧ ∀ page ∈ batch, page ∈ s.free then
        -- The batch is stored in its last page.
        match batch.getLast? with
        | none => none
        | some pb => some ({ s with free := s.free.diff batch,
                                    mem := update s.mem pb batch }.setPc t
                            (.refillPush caller pb))
      else none
    else some (s.setPc t (returnRefill caller))
  | .refillPush caller pb =>
    if s.stack.length < cfg.maxBatches then
      some ({ s with stack := pb :: s.stack }.setPc t (.refillInc caller))
    else some (s.setPc t (.refillFree caller (s.mem pb)))
  | .refillInc caller => some (s.incNr.setPc t (.refill caller))
  | .refillFree caller batch => some ((s.freeBatch cfg batch).setPc t (.refill caller))
  | .unfill caller =>
    if cfg.maxBatches / 2 < s.nr then
      match s.stack with
      | [] => some s
      | pb :: rest => some ({ s with stack := rest }.setPc t (.unfillDec caller (s.mem pb)))
    else some (s.setPc t (returnUnfill caller))
  | .unfillDec caller batch => some (s.decNr.setPc t (.unfillFree caller batch))
  | .unfillFree caller batch => some ((s.freeBatch cfg batch).setPc t (.unfill caller))

def allocPageLocal (s : Pools Cpu Thread Page) (cpu : Cpu) : Pools Cpu Thread Page :=
  if (s.l1 cpu).length = 0 then s
  else
    match pop (s.l1 cpu) with
    | some (page, pages) =>
      { s with l1 := update s.l1 cpu pages, callers := page :: s.callers }
    | none => s.fail

def freePageLocal (cfg : Config Page) (s : Pools Cpu Thread Page) (cpu : Cpu) (page : Page) :
    Pools Cpu Thread Page :=
  if (s.l1 cpu).length = cfg.max then s
  else
    match push cfg page (s.l1 cpu) with
    | some pages => { s with l1 := update s.l1 cpu pages, callers := s.callers.erase page }
    | none => s.fail

/-- `l1::unfill`, up to the call of `free_page_batch`. -/
def unfill (cfg : Config Page) (s : Pools Cpu Thread Page) (t : Thread) (cpu : Cpu) :
    Pools Cpu Thread Page :=
  if (s.l1 cpu).length > cfg.nrPages + cfg.max / 2 then
    match (s.l1 cpu).head?, popMany cfg.nrPages (s.l1 cpu) with
    | some pb, some (batch, pages) =>
      { s with l1 := update s.l1 cpu pages,
               mem := update s.mem pb batch }.setPc t (.free pb)
    | _, _ => s.fail
  else s

def step (cfg : Config Page) (s : Pools Cpu Thread Page) :
    Event Cpu Thread Page → Option (Pools Cpu Thread Page)
  | .allocPageLocal t cpu => if s.pcs t = .idle then some (s.allocPageLocal cpu) else none
  | .freePageLocal t cpu page =>
    if s.pcs t = .idle ∧ page ∈ s.callers then some (s.freePageLocal cfg cpu page) else none
  | .refill t cpu =>
    if s.pcs t = .idle then
      if (s.l1 cpu).length + cfg.nrPages < cfg.max / 2 then some (s.setPc t (.alloc cpu)) else some s
    else none
  | .unfill t cpu => if s.pcs t = .idle then some (s.unfill cfg t cpu) else none
  | .refillL2 t => if s.pcs t = .idle then some (s.setPc t (.refill none)) else none
  | .unfillL2 t => if s.pcs t = .idle then some (s.setPc t (.unfill none)) else none
  | .go t batch => s.go cfg t batch
  | .write page content =>
    if page ∈ s.callers ∨ page ∈ s.free then
      some { s with mem := update s.mem page content }
    else none

end Pools

end Model

/-! ## Where the pages are -/

/-- The batches that a thread holds by their pointers. -/
def Pc.held {Cpu Page : Type} : Pc Cpu Page → List Page
  | .allocDec _ pb | .place _ pb | .free pb | .refillPush _ pb => [pb]
  | .unfill caller | .unfillDec caller _ | .unfillFree caller _ => caller.toList
  | _ => []

/-- The batch that a thread has copied from L2. -/
def Pc.copied {Cpu Page : Type} : Pc Cpu Page → List Page
  | .refillFree _ batch | .unfillDec _ batch | .unfillFree _ batch => batch
  | _ => []

/-- The pages in transit in a thread. -/
def Pc.transit {Cpu Page : Type} (mem : Page → List Page) (pc : Pc Cpu Page) : List Page :=
  pc.held.flatMap mem ++ pc.copied

/-- The thread has pushed a batch and not yet counted it. -/
def Pc.uncounted {Cpu Page : Type} : Pc Cpu Page → ℕ
  | .freeInc | .refillInc _ => 1
  | _ => 0

/-- The thread has popped a batch that is still counted. -/
def Pc.counted {Cpu Page : Type} : Pc Cpu Page → ℕ
  | .allocDec _ _ | .unfillDec _ _ => 1
  | _ => 0

section Invariant

variable {Cpu Thread Page : Type} [Fintype Cpu] [Fintype Thread] [DecidableEq Page]

/-- The number of places of a page: with callers, in L1 arrays, in batches of L2, in transit and
in the page-range allocator. -/
def Pools.places (s : Pools Cpu Thread Page) (page : Page) : ℕ :=
  s.callers.count page + tally (List.count page) s.l1 + (s.stack.flatMap s.mem).count page +
    tally (fun pc => (pc.transit s.mem).count page) s.pcs + s.free.count page

/-- A pointer to a batch points into one of the pages of the batch. -/
structure IsBatch (cfg : Config Page) (mem : Page → List Page) (pb : Page) : Prop where
  length : (mem pb).length = cfg.nrPages
  self : pb ∈ mem pb

structure Inv (cfg : Config Page) (all : Finset Page) (s : Pools Cpu Thread Page) : Prop where
  places : ∀ page, s.places page = if page ∈ all then 1 else 0
  stacked : ∀ pb ∈ s.stack, IsBatch cfg s.mem pb
  held : ∀ t, ∀ pb ∈ (s.pcs t).held, IsBatch cfg s.mem pb
  l1 : ∀ cpu, (s.l1 cpu).length ≤ cfg.max
  l2 : s.stack.length ≤ cfg.maxBatches
  nr : wrap64 (s.nr + tally uncounted s.pcs) = wrap64 (s.stack.length + tally counted s.pcs)
  sound : s.failed = false

/-- What a step of a thread does that writes to no page. -/
structure Move (cfg : Config Page) (old pc : Pc Cpu Page) (s s' : Pools Cpu Thread Page) :
    Prop where
  mem : s'.mem = s.mem
  places : ∀ page, s'.callers.count page + tally (List.count page) s'.l1 +
      (s'.stack.flatMap s.mem).count page + (pc.transit s.mem).count page + s'.free.count page =
    s.callers.count page + tally (List.count page) s.l1 + (s.stack.flatMap s.mem).count page +
      (old.transit s.mem).count page + s.free.count page
  stacked : ∀ pb ∈ s'.stack, pb ∈ s.stack ∨ pb ∈ old.held
  held : ∀ pb ∈ pc.held, pb ∈ s.stack ∨ pb ∈ old.held ∨ IsBatch cfg s.mem pb
  l1 : ∀ cpu, (s'.l1 cpu).length ≤ cfg.max
  l2 : s'.stack.length ≤ cfg.maxBatches
  nr : wrap64 (s'.nr + pc.uncounted + s.stack.length + old.counted) =
    wrap64 (s.nr + old.uncounted + s'.stack.length + pc.counted)
  sound : s'.failed = false

variable [DecidableEq Thread] {cfg : Config Page} {all : Finset Page} {s s' : Pools Cpu Thread Page}
  {t : Thread} {old pc : Pc Cpu Page}

theorem Inv.move (inv : Inv cfg all s) (here : s.pcs t = old) (moved : s'.pcs = update s.pcs t pc)
    (move : Move cfg old pc s s') : Inv cfg all s' := by
  subst here
  refine ⟨fun page => ?_, fun pb mem => ?_, fun u pb mem => ?_, move.l1, move.l2, ?_, move.sound⟩
  · have tallied := tally_update (fun pc => (pc.transit s.mem).count page) s.pcs t pc
    have places := move.places page
    have before := inv.places page
    rw [← moved] at tallied
    simp only [Pools.places, move.mem] at before ⊢
    omega
  · rw [move.mem]
    exact (move.stacked pb mem).elim (inv.stacked pb) (inv.held t pb)
  · rw [move.mem]
    rw [moved] at mem
    by_cases here : u = t
    · subst here
      rw [update_self] at mem
      rcases move.held pb mem with stacked | held | fresh
      · exact inv.stacked pb stacked
      · exact inv.held u pb held
      · exact fresh
    · rw [update_of_ne here] at mem
      exact inv.held u pb mem
  · have inc := tally_update uncounted s.pcs t pc
    have dec := tally_update counted s.pcs t pc
    have before := inv.nr
    have nr := move.nr
    rw [← moved] at inc dec
    simp only [wrap64] at *
    omega

/-- A page with a caller, in an L1 array or with the allocator is the place of no batch. -/
theorem Inv.notBatch (inv : Inv cfg all s) {page : Page}
    (elsewhere : 0 < s.callers.count page + tally (List.count page) s.l1 + s.free.count page) :
    page ∉ s.stack ∧ ∀ t, page ∉ (s.pcs t).held := by
  have once := inv.places page
  have most : s.places page ≤ 1 := by
    rw [once]
    split <;> omega
  rw [Pools.places] at most
  refine ⟨fun stacked => ?_, fun t held => ?_⟩
  · have : 0 < (s.stack.flatMap s.mem).count page :=
      count_pos_iff.2 (mem_flatMap.2 ⟨page, stacked, (inv.stacked page stacked).self⟩)
    omega
  · have here : 0 < ((s.pcs t).transit s.mem).count page :=
      count_pos_iff.2 (mem_append_left _ (mem_flatMap.2 ⟨page, held, (inv.held t page held).self⟩))
    have := Theory.le_tally (fun pc => (transit s.mem pc).count page) s.pcs t
    omega

omit [DecidableEq Thread] in
theorem Inv.l1_mem (inv : Inv cfg all s) {cpu : Cpu} {page : Page} (mem : page ∈ s.l1 cpu) :
    page ∈ all := by
  by_contra other
  have none := inv.places page
  rw [if_neg other, Pools.places] at none
  have := Theory.le_tally (List.count page) s.l1 cpu
  have := count_pos_iff.2 mem
  omega

/-- Writing to a page that is the place of no batch. -/
theorem Inv.write (inv : Inv cfg all s) {page : Page}
    (elsewhere : 0 < s.callers.count page + tally (List.count page) s.l1 + s.free.count page)
    (content : List Page) : Inv cfg all { s with mem := update s.mem page content } := by
  obtain ⟨notStacked, notHeld⟩ := inv.notBatch elsewhere
  have others : ∀ {pointers : List Page}, page ∉ pointers →
      pointers.flatMap (update s.mem page content) = pointers.flatMap s.mem := fun other =>
    flatMap_congr fun pb mem => update_of_ne (ne_of_mem_of_not_mem mem other) _ _
  have same : ∀ {pb}, pb ≠ page → IsBatch cfg s.mem pb →
      IsBatch cfg (update s.mem page content) pb := by
    intro pb ne isBatch
    obtain ⟨length, self⟩ := isBatch
    exact ⟨by rwa [update_of_ne ne], by rwa [update_of_ne ne]⟩
  refine ⟨fun p => ?_, fun pb mem => ?_, fun t pb mem => ?_, inv.l1, inv.l2, inv.nr, inv.sound⟩
  · have transit : ∀ t, transit (update s.mem page content) (s.pcs t) =
        transit s.mem (s.pcs t) := fun t => by
      rw [transit, transit, others (notHeld t)]
    have before := inv.places p
    simp only [Pools.places, tally, others notStacked, transit] at before ⊢
    exact before
  · exact same (fun eq => notStacked (eq ▸ mem)) (inv.stacked pb mem)
  · exact same (fun eq => notHeld t (eq ▸ mem)) (inv.held t pb mem)

/-! ## The loops of `l1` -/

theorem pushAll_spec {batch pages : List Page} (room : pages.length + batch.length ≤ cfg.max) :
    ∃ pages', pushAll cfg batch pages = some pages' ∧
      pages'.length = pages.length + batch.length ∧
      ∀ page, pages'.count page = pages.count page + batch.count page := by
  induction batch generalizing pages with
  | nil => exact ⟨pages, rfl, rfl, fun _ => rfl⟩
  | cons first batch ih =>
    rw [length_cons] at room
    obtain ⟨pages', pushed, length, count⟩ := ih (show (first :: pages).length + _ ≤ _ by
      rw [length_cons]
      omega)
    refine ⟨pages', ?_, ?_, fun page => ?_⟩
    · rw [pushAll, push, if_pos (by omega), bind_some, pushed]
    · rw [length, length_cons, length_cons]
      omega
    · rw [count, count_cons, count_cons]
      omega

theorem popMany_spec {n : ℕ} {pages : List Page} (enough : n ≤ pages.length) :
    popMany n pages = some (pages.take n, pages.drop n) := by
  induction n generalizing pages with
  | zero => rfl
  | succ n ih =>
    cases pages with
    | nil => exact absurd enough (by simp)
    | cons page pages =>
      rw [popMany, pop, bind_some, ih (Nat.le_of_succ_le_succ enough)]
      rfl

/-! ## Every step -/

variable [DecidableEq Cpu]

section

variable (inv : Inv cfg all s)

include inv

theorem Inv.setNr {nr : ℕ} (here : s.pcs t = old)
    (held : pc.held = old.held) (copied : pc.copied = old.copied)
    (count : wrap64 (nr + pc.uncounted + old.counted) =
      wrap64 (s.nr + old.uncounted + pc.counted)) :
    Inv cfg all ({ s with nr := nr }.setPc t pc) := by
  refine inv.move here rfl ⟨rfl, fun page => ?_, fun _ => .inl,
    fun q mem => .inr (.inl (held ▸ mem)), inv.l1, inv.l2, ?_, inv.sound⟩
  · simp only [Pools.setPc, transit, held, copied]
  · simp only [Pools.setPc, wrap64] at count ⊢
    omega

theorem Inv.setPc (here : s.pcs t = old) (held : pc.held = old.held)
    (copied : pc.copied = old.copied) (uncounted : pc.uncounted = old.uncounted)
    (counted : pc.counted = old.counted) : Inv cfg all (s.setPc t pc) :=
  inv.setNr here held copied (by rw [uncounted, counted])

theorem Inv.l1_update {cpu : Cpu} {pages : List Page} (fits : pages.length ≤ cfg.max) (c : Cpu) :
    (update s.l1 cpu pages c).length ≤ cfg.max := by
  by_cases here : c = cpu
  · subst here
    rwa [update_self]
  · rw [update_of_ne here]
    exact inv.l1 c

theorem Inv.allocPageLocal (t : Thread) (cpu : Cpu) : Inv cfg all (s.allocPageLocal cpu) := by
  rw [Pools.allocPageLocal]
  split
  · exact inv
  · cases array : s.l1 cpu with
    | nil => simp_all
    | cons page pages =>
      have fits := inv.l1 cpu
      rw [array, length_cons] at fits
      dsimp only [pop]
      refine inv.move rfl (update_eq_self t _).symm ⟨rfl, fun p => ?_, fun _ => .inl,
        fun _ mem => .inr (.inl mem), inv.l1_update (by omega), inv.l2, rfl, inv.sound⟩
      have moved := tally_update (List.count p) s.l1 cpu pages
      rw [array, count_cons] at moved
      simp only [count_cons]
      omega

theorem Inv.freePageLocal (t : Thread) (cpu : Cpu) {page : Page}
    (owned : page ∈ s.callers) : Inv cfg all (s.freePageLocal cfg cpu page) := by
  rw [Pools.freePageLocal]
  split
  · exact inv
  next room =>
    have fits := inv.l1 cpu
    rw [push, if_pos (by omega)]
    refine inv.move rfl (update_eq_self t _).symm ⟨rfl, fun p => ?_, fun _ => .inl,
      fun _ mem => .inr (.inl mem), inv.l1_update (by rw [length_cons]; omega), inv.l2, rfl,
      inv.sound⟩
    have moved := tally_update (List.count p) s.l1 cpu (page :: s.l1 cpu)
    have there := count_pos_iff.2 owned
    simp only [count_cons, count_erase] at moved ⊢
    by_cases same : page = p
    · subst same
      simp only [beq_self_eq_true, if_true] at moved ⊢
      omega
    · simp only [beq_iff_eq, same, if_false] at moved ⊢
      omega

theorem Inv.unfill (idle : s.pcs t = .idle) (cpu : Cpu) : Inv cfg all (s.unfill cfg t cpu) := by
  rw [Pools.unfill]
  split
  next many =>
    have pos := cfg.pos
    have fits := inv.l1 cpu
    cases array : s.l1 cpu with
    | nil =>
      rw [array] at many
      exact absurd many (by simp)
    | cons pb pages =>
      rw [array] at many fits
      rw [popMany_spec (by omega), List.head?_cons]
      have inArray : 0 < (s.l1 cpu).count pb := by
        rw [array]
        exact count_pos_iff.2 mem_cons_self
      have := Theory.le_tally (List.count pb) s.l1 cpu
      have owned : 0 < s.callers.count pb + tally (List.count pb) s.l1 + s.free.count pb := by omega
      have written := inv.write owned ((pb :: pages).take cfg.nrPages)
      refine written.move idle rfl ⟨rfl, fun p => ?_, fun _ => .inl, fun q mem => ?_,
        written.l1_update (by rw [length_drop]; omega), inv.l2, rfl, inv.sound⟩
      · have moved := tally_update (List.count p) s.l1 cpu ((pb :: pages).drop cfg.nrPages)
        have parts : (pb :: pages).count p = ((pb :: pages).take cfg.nrPages).count p +
            ((pb :: pages).drop cfg.nrPages).count p := by
          rw [← count_append, take_append_drop]
        rw [array] at moved
        simp only [Pools.setPc, update_self, Pc.transit, Pc.held, Pc.copied, flatMap_cons,
          flatMap_nil, append_nil, count_nil]
        omega
      · obtain rfl := mem_singleton.1 mem
        refine .inr (.inr ⟨?_, ?_⟩) <;> dsimp only
        · rw [update_self, length_take]
          omega
        · rw [update_self]
          cases nr : cfg.nrPages with
          | zero => omega
          | succ n => exact mem_cons_self
  · exact inv

/-- A batch goes from the stack to a thread, by its pointer or as a copy. -/
theorem Inv.popped {pb : Page} {rest : List Page}
    (stack : s.stack = pb :: rest) (here : s.pcs t = old)
    (transit : ∀ page, (pc.transit s.mem).count page =
      (old.transit s.mem).count page + (s.mem pb).count page)
    (held : ∀ q ∈ pc.held, q = pb ∨ q ∈ old.held)
    (uncounted : pc.uncounted = old.uncounted) (counted : pc.counted = old.counted + 1) :
    Inv cfg all ({ s with stack := rest }.setPc t pc) := by
  have most := inv.l2
  rw [stack, length_cons] at most
  refine inv.move here rfl ⟨rfl, fun page => ?_, fun q mem => .inl (stack ▸ mem_cons_of_mem _ mem),
    fun q mem => ?_, inv.l1, (Nat.le_succ _).trans most, ?_, inv.sound⟩
  · simp only [Pools.setPc, transit, stack, flatMap_cons, count_append]
    omega
  · rcases held q mem with rfl | before
    · exact .inl (stack ▸ mem_cons_self)
    · exact .inr (.inl before)
  · simp only [Pools.setPc, uncounted, counted, stack, length_cons]
    congr 1
    omega

theorem Inv.pushed {pb : Page}
    (here : s.pcs t = old) (held : old.held = [pb]) (copied : old.copied = [])
    (room : s.stack.length < cfg.maxBatches) (empty : pc.held = [] ∧ pc.copied = [])
    (uncounted : pc.uncounted = old.uncounted + 1) (counted : pc.counted = old.counted) :
    Inv cfg all ({ s with stack := pb :: s.stack }.setPc t pc) := by
  refine inv.move here rfl ⟨rfl, fun page => ?_, fun q mem => ?_, fun q mem => ?_, inv.l1, room,
    ?_, inv.sound⟩
  · simp only [Pools.setPc, transit, held, copied, empty.1, empty.2, flatMap_cons, flatMap_nil,
      count_append, count_nil]
    omega
  · rw [held]
    exact (mem_cons.1 mem).symm.imp id fun eq => mem_singleton.2 eq
  · exact absurd (empty.1 ▸ mem) not_mem_nil
  · simp only [Pools.setPc, uncounted, counted, length_cons]
    congr 1
    omega

theorem Inv.incNr (here : s.pcs t = old) (held : pc.held = old.held)
    (copied : pc.copied = old.copied) (uncounted : old.uncounted = pc.uncounted + 1)
    (counted : pc.counted = old.counted) : Inv cfg all (s.incNr.setPc t pc) := by
  refine inv.setNr here held copied ?_
  simp only [uncounted, counted, wrap64]
  omega

theorem Inv.decNr (here : s.pcs t = old) (held : pc.held = old.held)
    (copied : pc.copied = old.copied) (uncounted : pc.uncounted = old.uncounted)
    (counted : old.counted = pc.counted + 1) : Inv cfg all (s.decNr.setPc t pc) := by
  refine inv.setNr here held copied ?_
  simp only [uncounted, counted, wrap64]
  omega

/-- No page in transit is null, so that `free_batch` returns the pages. -/
theorem Inv.freeBatch (null : cfg.null ∉ all)
    (here : s.pcs t = old) (held : pc.held = old.held) (copied : pc.copied = [])
    (uncounted : pc.uncounted = old.uncounted) (counted : pc.counted = old.counted) :
    Inv cfg all ((s.freeBatch cfg old.copied).setPc t pc) := by
  subst here
  have clean : cfg.null ∉ (s.pcs t).copied := by
    intro mem
    have nowhere := inv.places cfg.null
    rw [if_neg null, Pools.places] at nowhere
    have here : 0 < ((s.pcs t).transit s.mem).count cfg.null :=
      count_pos_iff.2 (mem_append_right _ mem)
    have := Theory.le_tally (fun pc => (transit s.mem pc).count cfg.null) s.pcs t
    omega
  rw [Pools.freeBatch, if_neg clean]
  refine inv.move rfl rfl ⟨rfl, fun page => ?_, fun _ => .inl,
    fun q mem => .inr (.inl (held ▸ mem)), inv.l1, inv.l2, ?_, inv.sound⟩
  · simp only [Pools.setPc, transit, held, copied, count_append, count_nil]
    omega
  · simp only [Pools.setPc, uncounted, counted]

theorem Inv.place {cpu : Cpu} {pb : Page} (here : s.pcs t = .place cpu pb)
    (room : (s.l1 cpu).length + cfg.nrPages ≤ cfg.max) :
    ∃ pages, pushAll cfg (s.mem pb) (s.l1 cpu) = some pages ∧
      Inv cfg all ({ s with l1 := update s.l1 cpu pages }.setPc t .idle) := by
  have isBatch := inv.held t pb (by rw [here]; exact mem_singleton_self pb)
  obtain ⟨pages, pushed, length, count⟩ := pushAll_spec
    (show (s.l1 cpu).length + (s.mem pb).length ≤ cfg.max by rw [isBatch.length]; exact room)
  refine ⟨pages, pushed, inv.move here rfl ⟨rfl, fun page => ?_, fun _ => .inl,
    fun q mem => absurd mem not_mem_nil,
    inv.l1_update (by rw [length, isBatch.length]; exact room), inv.l2, rfl, inv.sound⟩⟩
  have moved := tally_update (List.count page) s.l1 cpu pages
  rw [count] at moved
  simp only [Pools.setPc, Pc.transit, Pc.held, Pc.copied, flatMap_cons, flatMap_nil, append_nil,
    count_nil]
  omega

theorem Inv.newBatch {caller : Option Cpu} (here : s.pcs t = .refill caller)
    {batch : List Page} {pb : Page} (length : batch.length = cfg.nrPages) (nodup : batch.Nodup)
    (owned : ∀ page ∈ batch, page ∈ s.free) (last : pb ∈ batch) :
    Inv cfg all ({ s with free := s.free.diff batch,
                          mem := update s.mem pb batch }.setPc t
      (.refillPush caller pb)) := by
  have inFree := count_pos_iff.2 (owned pb last)
  have inPool : 0 < s.callers.count pb + tally (List.count pb) s.l1 + s.free.count pb := by omega
  have written := inv.write inPool batch
  refine written.move here rfl ⟨rfl, fun page => ?_, fun _ => .inl, fun q mem => ?_, inv.l1,
    inv.l2, rfl, inv.sound⟩
  · have enough : batch.count page ≤ s.free.count page := by
      by_cases mem : page ∈ batch
      · have := nodup_iff_count_le_one.1 nodup page
        have := count_pos_iff.2 (owned page mem)
        omega
      · rw [count_eq_zero_of_not_mem mem]
        exact Nat.zero_le _
    simp only [Pools.setPc, update_self, Pc.transit, Pc.held, Pc.copied, flatMap_cons, flatMap_nil,
      append_nil, count_nil, count_diff]
    omega
  · obtain rfl := mem_singleton.1 mem
    refine .inr (.inr ⟨?_, ?_⟩) <;> dsimp only
    · rwa [update_self]
    · rwa [update_self]

theorem Inv.go (null : cfg.null ∉ all) {batch : List Page}
    (taken : s.go cfg t batch = some s') : Inv cfg all s' := by
  rw [Pools.go] at taken
  split at taken
  · cases taken
  next cpu here =>
    split at taken <;> cases taken
    · exact inv.setPc here rfl rfl rfl rfl
    next pb rest stack =>
      refine inv.popped stack here (fun page => ?_)
        (fun q mem => .inl (mem_singleton.1 mem)) rfl rfl
      simp [Pc.transit, Pc.held, Pc.copied]
  next cpu pb here =>
    cases taken
    exact inv.decNr here rfl rfl rfl rfl
  next cpu pb here =>
    split at taken
    next room =>
      obtain ⟨pages, pushed, placed⟩ := inv.place here room
      rw [pushed] at taken
      exact Option.some.inj taken ▸ placed
    · cases taken
      exact inv.setPc here rfl rfl rfl rfl
  next pb here =>
    split at taken <;> cases taken
    next room =>
      exact inv.pushed here rfl rfl room ⟨rfl, rfl⟩ rfl rfl
    · exact inv.setPc here rfl rfl rfl rfl
  next here =>
    cases taken
    exact inv.incNr here rfl rfl rfl rfl
  next caller here =>
    split at taken
    · split at taken
      next fresh =>
        split at taken <;> cases taken
        next pb last =>
          exact inv.newBatch here fresh.1 fresh.2.1 fresh.2.2 (mem_of_getLast? last)
      · cases taken
    · cases taken
      cases caller <;> exact inv.setPc here rfl rfl rfl rfl
  next caller pb here =>
    split at taken <;> cases taken
    next room =>
      exact inv.pushed here rfl rfl room ⟨rfl, rfl⟩ rfl rfl
    · refine inv.move here rfl ⟨rfl, fun page => ?_, fun _ => .inl,
        fun q mem => absurd mem not_mem_nil, inv.l1, inv.l2, rfl, inv.sound⟩
      simp [Pools.setPc, Pc.transit, Pc.held, Pc.copied]
  next caller here =>
    cases taken
    exact inv.incNr here rfl rfl rfl rfl
  next caller batch here =>
    cases taken
    exact inv.freeBatch null here rfl rfl rfl rfl
  next caller here =>
    split at taken
    · split at taken
      · exact Option.some.inj taken ▸ inv
      next pb rest stack =>
        cases taken
        refine inv.popped stack here (fun page => ?_) (fun q mem => .inr mem) rfl rfl
        simp [Pc.transit, Pc.held, Pc.copied]
    · cases taken
      cases caller <;> exact inv.setPc here rfl rfl rfl rfl
  next caller batch here =>
    cases taken
    exact inv.decNr here rfl rfl rfl rfl
  next caller batch here =>
    cases taken
    exact inv.freeBatch null here rfl rfl rfl rfl

/-- **Every step keeps the invariant.** -/
theorem Inv.step (null : cfg.null ∉ all) {event : Event Cpu Thread Page}
    (taken : s.step cfg event = some s') : Inv cfg all s' := by
  cases event
  case go t batch => exact inv.go null taken
  case refill t cpu =>
    obtain ⟨idle, taken⟩ := ite_none_right_eq_some.1 taken
    split at taken
    · cases taken
      exact inv.setPc idle rfl rfl rfl rfl
    · exact Option.some.inj taken ▸ inv
  all_goals obtain ⟨can, ⟨⟩⟩ := ite_none_right_eq_some.1 taken
  case allocPageLocal t cpu => exact inv.allocPageLocal t cpu
  case freePageLocal t cpu page => exact inv.freePageLocal t cpu can.2
  case unfill t cpu => exact inv.unfill can cpu
  case refillL2 t | unfillL2 t => exact inv.setPc can rfl rfl rfl rfl
  case write page content =>
    refine inv.write ?_ content
    rcases can with mem | mem <;> have := count_pos_iff.2 mem
    · omega
    · omega

end

end Invariant

/-! ## Every run -/

section Runs

variable {Cpu Thread Page : Type} [Fintype Cpu] [Fintype Thread] [DecidableEq Cpu]
  [DecidableEq Thread] [DecidableEq Page]

/-- The pools are empty, and the page-range allocator owns all pages. -/
structure Boot (cfg : Config Page) (all : Finset Page) (s : Pools Cpu Thread Page) : Prop where
  l1 : ∀ cpu, s.l1 cpu = []
  stack : s.stack = []
  nr : s.nr = 0
  callers : s.callers = []
  free : ∀ page, s.free.count page = if page ∈ all then 1 else 0
  pcs : ∀ t, s.pcs t = .idle
  sound : s.failed = false
  null : cfg.null ∉ all

theorem Boot.inv {cfg : Config Page} {all : Finset Page} {s : Pools Cpu Thread Page}
    (boot : Boot cfg all s) : Inv cfg all s := by
  refine ⟨fun page => ?_, fun pb mem => ?_, fun t pb mem => ?_, fun cpu => ?_, ?_, ?_, boot.sound⟩
  · simp [Pools.places, tally, boot.callers, boot.stack, boot.l1, boot.pcs, boot.free, transit,
      held, copied]
  · rw [boot.stack] at mem
    exact absurd mem not_mem_nil
  · rw [boot.pcs] at mem
    exact absurd mem not_mem_nil
  · simp [boot.l1]
  · simp [boot.stack]
  · simp [tally, boot.nr, boot.stack, boot.pcs, uncounted, counted]

/-- **The page pools conserve pages.**  In every state that threads and CPUs can reach, every page
is in one place, the arrays and the stack are within their bounds and no assertion has failed.
The counter of L2 is the number of batches, but for threads between the stack and the counter. -/
theorem pools_conserve {cfg : Config Page} {all : Finset Page} {s : Pools Cpu Thread Page}
    (reached : Reachable (Boot cfg all) (fun s s' => ∃ event, s.step cfg event = some s') s) :
    (∀ page ∈ all, s.places page = 1) ∧ (∀ page, page ∉ all → s.places page = 0) ∧
      (∀ cpu, (s.l1 cpu).length ≤ cfg.max) ∧ s.stack.length ≤ cfg.maxBatches ∧
      wrap64 (s.nr + tally uncounted s.pcs) =
        wrap64 (s.stack.length + tally counted s.pcs) ∧
      s.failed = false := by
  have null : cfg.null ∉ all := by
    induction reached with
    | start boot => exact boot.null
    | next _ _ ih => exact ih
  have inv := reached.invariant (I := Inv cfg all) (fun _ boot => boot.inv)
    fun _ _ _ inv ⟨_, taken⟩ => inv.step null taken
  exact ⟨fun page mem => by rw [inv.places, if_pos mem],
    fun page other => by rw [inv.places, if_neg other], inv.l1, inv.l2, inv.nr, inv.sound⟩

end Runs

/-! ## The fill thread of L2 -/

/-- Two CPUs, one thread and four pages. -/
def fourPages : Config ℕ := ⟨8, 2, 8, 0, by decide⟩

def atBoot : Pools (Fin 2) (Fin 1) ℕ where
  l1 _ := []
  stack := []
  nr := 0
  mem _ := []
  callers := []
  free := [1, 2, 3, 4]
  pcs _ := .idle
  failed := false

theorem atBoot_boot : Boot fourPages {1, 2, 3, 4} atBoot := by
  refine ⟨fun _ => rfl, rfl, rfl, rfl, fun page => ?_, fun _ => rfl, rfl, by decide⟩
  by_cases mem : page ∈ ({1, 2, 3, 4} : Finset ℕ)
  · rw [if_pos mem]
    simp only [Finset.mem_insert, Finset.mem_singleton] at mem
    rcases mem with rfl | rfl | rfl | rfl <;> rfl
  · rw [if_neg mem]
    refine count_eq_zero_of_not_mem fun inList => mem ?_
    simpa [atBoot] using inList

def pushBatch : List (Event (Fin 2) (Fin 1) ℕ) := [.refillL2 0, .go 0 [1, 2], .go 0 []]

theorem pushBatch_reachable {s : Pools (Fin 2) (Fin 1) ℕ}
    (run : pushBatch.foldlM (Pools.step fourPages) atBoot = some s) :
    Reachable (Boot fourPages {1, 2, 3, 4}) (fun s s' => ∃ event, s.step fourPages event = some s')
      s :=
  Reachable.events (.start atBoot_boot) run

theorem newBatch_conserved :
    ∃ s, pushBatch.foldlM (Pools.step fourPages) atBoot = some s ∧ s.places 1 = 1 ∧
      s.stack.length = 1 :=
  ⟨_, rfl, (pools_conserve (pushBatch_reachable rfl)).1 1 (by decide), rfl⟩

/-- **The counter lags behind**: the batch is on the stack, and the thread that has pushed it may
be preempted before it counts it. -/
theorem newBatch_uncounted :
    ∃ s : Pools (Fin 2) (Fin 1) ℕ, Reachable (Boot fourPages {1, 2, 3, 4})
        (fun s s' => ∃ event, s.step fourPages event = some s') s ∧
      s.stack.length = 1 ∧ s.nr = 0 :=
  ⟨_, pushBatch_reachable rfl, rfl, rfl⟩

end MiniOsv.PagePool
