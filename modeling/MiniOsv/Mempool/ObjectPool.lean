/-
# Mempool.ObjectPool -- the per-CPU pools of small objects

A page of a pool has a header with the CPU it belongs to, the number of objects in use and a list
of free objects; every pool has, for each CPU, a list of the pages with free objects.  An object
that is freed on another CPU goes through a sink to the CPU of its page.

The header and the list of a page are used on the CPU of the page only, with preemption off, and
the sinks are lock free, so that what happens between two drops of the preempt lock is one step.
`add_page` and the return of a page drop the lock; a thread may be on another CPU afterwards.
The signal to the worker of a full sink changes no pool; it may run at any time.
-/
import MiniOsv.Mempool.PageRanges
import MiniOsv.Theory.Tally
import MiniOsv.Theory.Transition

namespace MiniOsv.ObjectPool

open Theory (Reachable tally tally_update)
open Mempool (pageSize alignDown)
open Function List Option

set_option linter.unusedSectionVars false

/-! ## The model -/

def sizeofPageHeader : ℕ := 40

def toHeader (object : ℕ) : ℕ := alignDown object pageSize

structure PageHeader (Cpu Pool : Type) where
  owner : Pool
  cpuId : Cpu
  nalloc : ℕ
  localFree : List ℕ
  deriving DecidableEq, Repr

/-- `unordered_queue_mpsc`. -/
structure Sink where
  head : List ℕ
  pollList : List ℕ
  deriving DecidableEq, Repr

namespace Sink

def push (q : Sink) (item : ℕ) : Sink := { q with head := item :: q.head }

def pop (q : Sink) : Option (ℕ × Sink) :=
  match q.pollList with
  | result :: rest => some (result, { q with pollList := rest })
  | [] =>
    match q.head with
    | [] => none
    | r :: rest => some (r, ⟨[], rest⟩)

def items (q : Sink) : List ℕ := q.head ++ q.pollList

end Sink

/-- The pools.  `adding` holds the pages that threads in `add_page` have allocated, `returning`
those that threads are handing to the page allocator. -/
structure Pools (Cpu Pool : Type) where
  header : ℕ → Option (PageHeader Cpu Pool)
  free : Pool → Cpu → List ℕ
  sink : Cpu × Cpu → Sink
  handed : List ℕ
  adding : List ℕ
  returning : List ℕ

open Pools

/-- The loop of `add_page` from object `p` down to the end of the header. -/
def objectsLoop (size low : ℕ) : ℕ → ℕ → List ℕ → List ℕ
  | 0, _, objects => objects
  | n + 1, p, objects => if low ≤ p then objectsLoop size low n (p - size) (p :: objects) else objects

def objects (size page : ℕ) : List ℕ :=
  objectsLoop size (page + sizeofPageHeader) pageSize (page + pageSize - size) []

inductive Event (Cpu Pool : Type) where
  | alloc (pool : Pool) (cpu : Cpu)
  /-- `untracked_alloc_page` returns the page to `add_page`. -/
  | takePage (page : ℕ)
  | addPage (pool : Pool) (cpu : Cpu) (page : ℕ)
  | free (cpu : Cpu) (object : ℕ)
  /-- One turn of the loop of `collect_garbage`. -/
  | collectGarbage (cpu i : Cpu)
  /-- `untracked_free_page` is done. -/
  | returned (page : ℕ)

def wrap32 (n : ℕ) : ℕ := n % 2 ^ 32

section Model

variable {Cpu Pool : Type} [DecidableEq Cpu] [DecidableEq Pool]

namespace Pools

def setHeader (s : Pools Cpu Pool) (page : ℕ) (h : Option (PageHeader Cpu Pool)) : Pools Cpu Pool :=
  { s with header := update s.header page h }

def setFree (s : Pools Cpu Pool) (pool : Pool) (cpu : Cpu) (pages : List ℕ) : Pools Cpu Pool :=
  { s with free := update s.free pool (update (s.free pool) cpu pages) }

/-- `alloc`, after the loop that adds pages; `none` without a free page. -/
def alloc (s : Pools Cpu Pool) (pool : Pool) (cpu : Cpu) : Option (Pools Cpu Pool) :=
  match s.free pool cpu with
  | [] => none
  | page :: rest =>
    match s.header page with
    | none => none
    | some h =>
      match h.localFree with
      | [] => none
      | obj :: next =>
        let h := { h with nalloc := wrap32 (h.nalloc + 1), localFree := next }
        let s := { s.setHeader page (some h) with handed := obj :: s.handed }
        some (if next = [] then s.setFree pool cpu rest else s)

/-- `add_page`, after the page is allocated. -/
def addPage (size : Pool → ℕ) (s : Pools Cpu Pool) (pool : Pool) (cpu : Cpu) (page : ℕ) :
    Pools Cpu Pool :=
  { (s.setHeader page (some ⟨pool, cpu, 0, objects (size pool) page⟩)).setFree pool cpu
      (s.free pool cpu ++ [page]) with adding := s.adding.erase page }

def haveFullPages (s : Pools Cpu Pool) (pool : Pool) (cpu : Cpu) : Bool :=
  match (s.free pool cpu).getLast? with
  | none => false
  | some page => (s.header page).any fun h => decide (h.nalloc = 0)

/-- `free_same_cpu`; `none` for an object without a pool. -/
def freeSameCpu (s : Pools Cpu Pool) (obj : ℕ) (cpu : Cpu) : Option (Pools Cpu Pool) :=
  let page := toHeader obj
  match s.header page with
  | none => none
  | some h =>
    let h := { h with nalloc := wrap32 (h.nalloc + (2 ^ 32 - 1)) }
    let s := s.setHeader page (some h)
    if h.nalloc = 0 ∧ s.haveFullPages h.owner cpu then
      let s := if h.localFree ≠ [] then
          s.setFree h.owner cpu ((s.free h.owner cpu).erase page) else s
      -- The page is handed on with the preempt lock dropped.
      some { s.setHeader page none with returning := page :: s.returning }
    else
      let s := if h.localFree = [] then
          if h.nalloc ≠ 0 then s.setFree h.owner cpu (page :: s.free h.owner cpu)
          else s.setFree h.owner cpu (s.free h.owner cpu ++ [page])
        else s
      some (s.setHeader page (some { h with localFree := obj :: h.localFree }))

/-- `free`. -/
def freeObject (s : Pools Cpu Pool) (cpu : Cpu) (obj : ℕ) : Option (Pools Cpu Pool) :=
  match s.header (toHeader obj) with
  | none => none
  | some h =>
    let s := { s with handed := s.handed.erase obj }
    if h.cpuId = cpu then s.freeSameCpu obj cpu
    else some { s with sink := update s.sink (h.cpuId, cpu) ((s.sink (h.cpuId, cpu)).push obj) }

def collectGarbage (s : Pools Cpu Pool) (cpu i : Cpu) : Option (Pools Cpu Pool) :=
  match (s.sink (cpu, i)).pop with
  | none => some s
  | some (obj, q) => { s with sink := update s.sink (cpu, i) q }.freeSameCpu obj cpu

def step (size : Pool → ℕ) (s : Pools Cpu Pool) : Event Cpu Pool → Option (Pools Cpu Pool)
  | .alloc pool cpu => s.alloc pool cpu
  | .takePage page =>
    if page % pageSize = 0 ∧ s.header page = none ∧ page ∉ s.adding ∧ page ∉ s.returning then
      some { s with adding := page :: s.adding }
    else none
  | .addPage pool cpu page => if page ∈ s.adding then some (s.addPage size pool cpu page) else none
  | .free cpu obj => if obj ∈ s.handed then s.freeObject cpu obj else none
  | .collectGarbage cpu i => s.collectGarbage cpu i
  | .returned page => some { s with returning := s.returning.erase page }

end Pools

end Model

/-! ## The objects of a page -/

theorem objectsLoop_spec {size low top : ℕ} (pos : 0 < size) (lowPos : 0 < low) (n : ℕ) {p : ℕ}
    {objects : List ℕ} (nodup : objects.Nodup) (above : ∀ o ∈ objects, p < o)
    (within : ∀ o ∈ objects, low ≤ o ∧ o ≤ top) (below : p ≤ top) :
    (objectsLoop size low n p objects).Nodup ∧
      (∀ o ∈ objectsLoop size low n p objects, low ≤ o ∧ o ≤ top) ∧
      (objectsLoop size low n p objects).length ≤ n + objects.length := by
  induction n generalizing p objects with
  | zero => exact ⟨nodup, within, by simp [objectsLoop]⟩
  | succ n ih =>
    rw [objectsLoop]
    split
    next room =>
      have fresh : p ∉ objects := fun mem => lt_irrefl p (above p mem)
      obtain ⟨nodup', within', length⟩ := ih
        (nodup_cons.2 ⟨fresh, nodup⟩)
        (fun o mem => by
          rcases mem_cons.1 mem with rfl | mem
          · omega
          · have := above o mem
            omega)
        (fun o mem => by
          rcases mem_cons.1 mem with rfl | mem
          · exact ⟨room, below⟩
          · exact within o mem)
        (show p - size ≤ top by omega)
      exact ⟨nodup', within', by rw [length_cons] at length; omega⟩
    · exact ⟨nodup, within, by omega⟩

/-- Each object lies a whole number of objects in front of the end of the page. -/
theorem objectsLoop_place {size low : ℕ} (top : ℕ) (lowPos : 0 < low) (n : ℕ) {p : ℕ} {objects : List ℕ}
    (start : p = 0 ∨ ∃ k, 0 < k ∧ p + k * size = top)
    (places : ∀ o ∈ objects, ∃ k, 0 < k ∧ o + k * size = top) :
    ∀ o ∈ objectsLoop size low n p objects, ∃ k, 0 < k ∧ o + k * size = top := by
  induction n generalizing p objects with
  | zero => exact places
  | succ n ih =>
    rw [objectsLoop]
    split
    next room =>
      obtain zero | ⟨k, pos, here⟩ := start
      · omega
      · refine ih ?_ fun o mem => ?_
        · by_cases more : size ≤ p
          · exact .inr ⟨k + 1, k.succ_pos, by rw [Nat.succ_mul]; omega⟩
          · exact .inl (by omega)
        · rcases mem_cons.1 mem with rfl | mem
          · exact ⟨k, pos, here⟩
          · exact places o mem
    · exact places

/-- The objects of a page are distinct and in the page. -/
structure Objects (page : ℕ) (objects : List ℕ) : Prop where
  nodup : objects.Nodup
  page : ∀ o ∈ objects, toHeader o = page
  length : objects.length ≤ pageSize

/-- The sizes that the constructor lets through. -/
def FitsPage (size : ℕ) : Prop := 0 < size ∧ size + sizeofPageHeader ≤ pageSize

theorem objects_spec {size page : ℕ} (fits : FitsPage size) (aligned : page % pageSize = 0) :
    Objects page (objects size page) := by
  obtain ⟨pos, fits⟩ := fits
  obtain ⟨nodup, within, length⟩ := objectsLoop_spec pos
    (show 0 < page + sizeofPageHeader by simp [sizeofPageHeader]) pageSize nodup_nil
    (fun _ mem => absurd mem not_mem_nil) (fun _ mem => absurd mem not_mem_nil)
    (le_refl (page + pageSize - size))
  refine ⟨nodup, fun o mem => ?_, length⟩
  obtain ⟨low, high⟩ := within o mem
  simp only [toHeader, alignDown, pageSize, sizeofPageHeader] at *
  omega

theorem objects_ne_nil {size page : ℕ} (fits : FitsPage size) : objects size page ≠ [] := by
  have more : ∀ n p (l : List ℕ), l ≠ [] → objectsLoop size (page + sizeofPageHeader) n p l ≠ [] := by
    intro n
    induction n with
    | zero => exact fun _ _ ne => ne
    | succ n ih =>
      intro p l ne
      rw [objectsLoop]
      split
      · exact ih _ _ (cons_ne_nil _ _)
      · exact ne
  obtain ⟨pos, fits⟩ := fits
  rw [objects, show pageSize = 4095 + 1 from rfl, objectsLoop, if_pos]
  · exact more _ _ _ (cons_ne_nil _ _)
  · simp only [pageSize, sizeofPageHeader] at *
    omega

/-! ## The invariant -/

section Invariant

variable {Cpu Pool : Type}

def Pools.IsObject (size : Pool → ℕ) (s : Pools Cpu Pool) (o : ℕ) : Prop :=
  ∃ h, s.header (toHeader o) = some h ∧ o ∈ objects (size h.owner) (toHeader o)

def Pools.localCount (s : Pools Cpu Pool) (o : ℕ) : ℕ :=
  (s.header (toHeader o)).elim 0 fun h => h.localFree.count o

/-- The number of places of an object: handed out, in sinks, and on the list of its page. -/
def Pools.places [Fintype Cpu] (s : Pools Cpu Pool) (o : ℕ) : ℕ :=
  s.handed.count o + tally (fun q => q.items.count o) s.sink + s.localCount o

/-- The invariant; the objects in `limbo` are in the hands of a step. -/
structure Inv [Fintype Cpu] (size : Pool → ℕ) (limbo : List ℕ) (s : Pools Cpu Pool) : Prop where
  object : ∀ o, s.IsObject size o → s.places o + limbo.count o = 1
  nothing : ∀ o, ¬s.IsObject size o → s.places o + limbo.count o = 0
  aligned : ∀ page h, s.header page = some h → page % pageSize = 0
  nalloc : ∀ page h, s.header page = some h →
    h.nalloc + h.localFree.length = (objects (size h.owner) page).length
  members : ∀ page h, s.header page = some h → ∀ o ∈ h.localFree, o ∈ objects (size h.owner) page
  listed : ∀ pool cpu page, page ∈ s.free pool cpu ↔
    ∃ h, s.header page = some h ∧ h.owner = pool ∧ h.cpuId = cpu ∧ h.localFree ≠ []
  nodup : ∀ pool cpu, (s.free pool cpu).Nodup
  sinks : ∀ k, ∀ o ∈ (s.sink k).items, ∃ h, s.header (toHeader o) = some h ∧ h.cpuId = k.1
  adding : ∀ page ∈ s.adding, page % pageSize = 0 ∧ s.header page = none ∧ page ∉ s.returning
  addingNodup : s.adding.Nodup
  returning : ∀ page ∈ s.returning, s.header page = none

variable [Fintype Cpu] {size : Pool → ℕ} {limbo : List ℕ} {s s' : Pools Cpu Pool} {obj : ℕ}

theorem Inv.places_le (inv : Inv size limbo s) (o : ℕ) : s.places o + limbo.count o ≤ 1 := by
  by_cases isObject : s.IsObject size o
  · exact (inv.object o isObject).le
  · exact (inv.nothing o isObject).trans_le (Nat.zero_le 1)

theorem Inv.isObject (inv : Inv size limbo s) {o : ℕ} (somewhere : 0 < s.places o + limbo.count o) :
    s.IsObject size o := by
  by_contra other
  have := inv.nothing o other
  omega

variable {h : PageHeader Cpu Pool} {page : ℕ}

theorem localCount_eq (here : s.header page = some h) {o : ℕ}
    (ofPage : toHeader o = page) : s.localCount o = h.localFree.count o := by
  rw [localCount, ofPage, here]
  rfl

/-- The lists change in one page at most, which is then on those that `home` says. -/
structure Lists (free free' : Pool → Cpu → List ℕ) (page : ℕ) (home : Pool → Cpu → Prop) : Prop where
  listed : ∀ pool cpu, page ∈ free' pool cpu ↔ home pool cpu
  rest : ∀ pool cpu p, p ≠ page → (p ∈ free' pool cpu ↔ p ∈ free pool cpu)
  nodup : ∀ pool cpu, (free' pool cpu).Nodup

theorem Lists.iff {free free' : Pool → Cpu → List ℕ} {home home' : Pool → Cpu → Prop}
    (lists : Lists free free' page home) (same : ∀ pool cpu, home pool cpu ↔ home' pool cpu) :
    Lists free free' page home' :=
  ⟨fun pool cpu => (lists.listed pool cpu).trans (same pool cpu), lists.rest, lists.nodup⟩

section

variable (inv : Inv size limbo s)

include inv

theorem Inv.localNodup (fits : ∀ pool, FitsPage (size pool))
    (here : s.header page = some h) : h.localFree.Nodup := by
  refine nodup_iff_count_le_one.2 fun o => ?_
  by_cases mem : o ∈ h.localFree
  · have ofPage := (objects_spec (fits h.owner) (inv.aligned page h here)).page o
      (inv.members page h here o mem)
    have most := inv.places_le o
    rw [places, localCount_eq here ofPage] at most
    omega
  · rw [count_eq_zero_of_not_mem mem]
    exact Nat.zero_le 1

theorem Inv.onPage {limbo' : List ℕ} {new : Option (PageHeader Cpu Pool)}
    (header : s'.header = update s.header page new) (sink : s'.sink = s.sink)
    (others : ∀ o, toHeader o ≠ page →
      s'.handed.count o + limbo'.count o = s.handed.count o + limbo.count o)
    (object : ∀ o, toHeader o = page → (∃ h, new = some h ∧ o ∈ objects (size h.owner) page) →
      s'.places o + limbo'.count o = 1)
    (nothing : ∀ o, toHeader o = page → (¬∃ h, new = some h ∧ o ∈ objects (size h.owner) page) →
      s'.places o + limbo'.count o = 0)
    (ok : ∀ h, new = some h → page % pageSize = 0 ∧
      h.nalloc + h.localFree.length = (objects (size h.owner) page).length ∧
      ∀ o ∈ h.localFree, o ∈ objects (size h.owner) page)
    (lists : Lists s.free s'.free page fun pool cpu =>
      ∃ h, new = some h ∧ h.owner = pool ∧ h.cpuId = cpu ∧ h.localFree ≠ [])
    (sinks : ∀ k, ∀ o ∈ (s.sink k).items, toHeader o = page → ∃ h, new = some h ∧ h.cpuId = k.1)
    (adding : ∀ p ∈ s'.adding, p ∈ s.adding ∧ p ≠ page) (addingNodup : s'.adding.Nodup)
    (returning : ∀ p ∈ s'.returning, p ∈ s.returning ∧ p ≠ page ∨ p = page ∧ new = none) :
    Inv size limbo' s' := by
  have self : s'.header page = new := by rw [header, update_self]
  have other : ∀ p, p ≠ page → s'.header p = s.header p := fun p ne => by
    rw [header, update_of_ne ne]
  have places : ∀ o, toHeader o ≠ page →
      s'.places o + limbo'.count o = s.places o + limbo.count o := by
    intro o ne
    have := others o ne
    rw [places, places, localCount, localCount, other _ ne, sink]
    omega
  have cases : ∀ p k, s'.header p = some k →
      p = page ∧ new = some k ∨ p ≠ page ∧ s.header p = some k := by
    intro p k found
    by_cases eq : p = page
    · exact .inl ⟨eq, by rw [← self, ← eq, found]⟩
    · exact .inr ⟨eq, other p eq ▸ found⟩
  refine ⟨fun o ⟨k, found, mem⟩ => ?_, fun o isNot => ?_, fun p k found => ?_, fun p k found => ?_,
    fun p k found => ?_, fun pool cpu p => ?_, lists.nodup, fun k o mem => ?_, fun p mem => ?_,
    addingNodup, fun p mem => ?_⟩
  · rcases cases _ k found with ⟨eq, is⟩ | ⟨ne, found⟩
    · exact object o eq ⟨k, is, eq ▸ mem⟩
    · rw [places o ne]
      exact inv.object o ⟨k, found, mem⟩
  · by_cases eq : toHeader o = page
    · exact nothing o eq fun ⟨k, is, mem⟩ => isNot ⟨k, by rw [eq, self, is], by rwa [eq]⟩
    · rw [places o eq]
      exact inv.nothing o fun ⟨k, found, mem⟩ => isNot ⟨k, (other _ eq).trans found, mem⟩
  · rcases cases p k found with ⟨rfl, is⟩ | ⟨-, found⟩
    · exact (ok k is).1
    · exact inv.aligned p k found
  · rcases cases p k found with ⟨rfl, is⟩ | ⟨-, found⟩
    · exact (ok k is).2.1
    · exact inv.nalloc p k found
  · rcases cases p k found with ⟨rfl, is⟩ | ⟨-, found⟩
    · exact (ok k is).2.2
    · exact inv.members p k found
  · by_cases eq : p = page
    · rw [eq, self]
      exact lists.listed pool cpu
    · rw [lists.rest pool cpu p eq, inv.listed, other p eq]
  · rw [sink] at mem
    by_cases eq : toHeader o = page
    · rw [eq, self]
      exact sinks k o mem eq
    · rw [other _ eq]
      exact inv.sinks k o mem
  · obtain ⟨before, ne⟩ := adding p mem
    obtain ⟨aligned, none, notReturning⟩ := inv.adding p before
    exact ⟨aligned, (other p ne).trans none, fun mem =>
      (returning p mem).elim (fun still => notReturning still.1) fun gone => ne gone.1⟩
  · rcases returning p mem with ⟨still, ne⟩ | ⟨rfl, gone⟩
    · exact (other p ne).trans (inv.returning p still)
    · rw [self, gone]

/-- A page that is being added or returned has no header. -/
theorem Inv.inUse (here : s.header page = some h) :
    (∀ p ∈ s.adding, p ≠ page) ∧ ∀ p ∈ s.returning, p ≠ page := by
  refine ⟨?_, ?_⟩ <;> rintro _ mem rfl
  · cases here.symm.trans (inv.adding _ mem).2.1
  · cases here.symm.trans (inv.returning _ mem)

theorem Inv.change {limbo' : List ℕ}
    {h' : PageHeader Cpu Pool} (here : s.header page = some h)
    (header : s'.header = update s.header page (some h')) (owner : h'.owner = h.owner)
    (cpuId : h'.cpuId = h.cpuId)
    (same : s'.sink = s.sink ∧ s'.adding = s.adding ∧ s'.returning = s.returning)
    (count : ∀ o, toHeader o = page → s'.handed.count o + h'.localFree.count o + limbo'.count o =
      s.handed.count o + h.localFree.count o + limbo.count o)
    (others : ∀ o, toHeader o ≠ page →
      s'.handed.count o + limbo'.count o = s.handed.count o + limbo.count o)
    (nalloc : h'.nalloc + h'.localFree.length = h.nalloc + h.localFree.length)
    (members : ∀ o ∈ h'.localFree, o ∈ objects (size h.owner) page)
    (lists : Lists s.free s'.free page fun pool cpu =>
      h.owner = pool ∧ h.cpuId = cpu ∧ h'.localFree ≠ []) : Inv size limbo' s' := by
  obtain ⟨sink, adding, returning⟩ := same
  have self : s'.header page = some h' := by rw [header, update_self]
  have places : ∀ o, toHeader o = page →
      s'.places o + limbo'.count o = s.places o + limbo.count o := by
    intro o ofPage
    have := count o ofPage
    rw [places, places, localCount_eq self ofPage, localCount_eq here ofPage, sink]
    omega
  have inUse := inv.inUse here
  refine inv.onPage header sink others (fun o eq ⟨k, is, mem⟩ => ?_) (fun o eq isNot => ?_)
    (fun k is => ?_) (lists.iff fun pool cpu => by simp [owner, cpuId]) (fun k o mem eq => ?_)
    (fun p mem => ⟨adding ▸ mem, inUse.1 p (adding ▸ mem)⟩) (adding ▸ inv.addingNodup)
    fun p mem => .inl ⟨returning ▸ mem, inUse.2 p (returning ▸ mem)⟩
  · cases is
    rw [places o eq]
    exact inv.object o ⟨h, by rw [eq, here], by rw [eq, ← owner]; exact mem⟩
  · rw [places o eq]
    refine inv.nothing o fun ⟨k, found, mem⟩ => isNot ⟨h', rfl, ?_⟩
    rw [eq] at found mem
    cases here.symm.trans found
    rw [owner]
    exact mem
  · cases is
    rw [owner, nalloc]
    exact ⟨inv.aligned _ h here, inv.nalloc _ h here, members⟩
  · obtain ⟨k', found, cpu⟩ := inv.sinks k o mem
    rw [eq] at found
    cases here.symm.trans found
    exact ⟨h', rfl, cpuId.trans cpu⟩

end

variable [DecidableEq Cpu] [DecidableEq Pool]

theorem free_setFree (s : Pools Cpu Pool) (pool pool' : Pool) (cpu cpu' : Cpu) (pages : List ℕ) :
    (s.setFree pool cpu pages).free pool' cpu' =
      if pool = pool' ∧ cpu = cpu' then pages else s.free pool' cpu' := by
  rw [setFree]
  by_cases eq : pool = pool'
  · subst eq
    dsimp only
    rw [update_self]
    by_cases eq : cpu = cpu'
    · subst eq
      rw [update_self, if_pos ⟨rfl, rfl⟩]
    · rw [update_of_ne (Ne.symm eq), if_neg fun both => eq both.2]
  · dsimp only
    rw [update_of_ne (Ne.symm eq), if_neg fun both => eq both.1]

/-- The list of a pool is replaced by one that differs from it at most in `page`, which is on
no other list. -/
theorem setFree_lists {owner : Pool} {cpuId : Cpu} {pages : List ℕ}
    (only : ∀ pool cpu, page ∈ s.free pool cpu → owner = pool ∧ cpuId = cpu)
    (same : ∀ p, p ≠ page → (p ∈ pages ↔ p ∈ s.free owner cpuId)) (pagesNodup : pages.Nodup)
    (nodup : ∀ pool cpu, (s.free pool cpu).Nodup) :
    Lists s.free (s.setFree owner cpuId pages).free page fun pool cpu =>
      owner = pool ∧ cpuId = cpu ∧ page ∈ pages := by
  refine ⟨fun pool cpu => ?_, fun pool cpu p ne => ?_, fun pool cpu => ?_⟩ <;> rw [free_setFree]
  · split
    next both =>
      obtain ⟨rfl, rfl⟩ := both
      simp
    next other =>
      exact ⟨fun mem => absurd (only pool cpu mem) other,
        fun ⟨own, home, _⟩ => absurd ⟨own, home⟩ other⟩
  · split
    next both =>
      obtain ⟨rfl, rfl⟩ := both
      exact same p ne
    · exact Iff.rfl
  · split
    · exact pagesNodup
    · exact nodup pool cpu

/-- A page is on no list but the one of its owner and CPU. -/
theorem Inv.owner_of_listed (inv : Inv size limbo s) (here : s.header page = some h) (pool : Pool)
    (cpu : Cpu) (mem : page ∈ s.free pool cpu) : h.owner = pool ∧ h.cpuId = cpu := by
  obtain ⟨k, found, own, home, -⟩ := (inv.listed pool cpu page).1 mem
  obtain rfl := Option.some.inj (here.symm.trans found)
  exact ⟨own, home⟩

/-- What `alloc` returns is an object of a page of the pool. -/
theorem Inv.alloc_object (inv : Inv size [] s) (fits : ∀ pool, FitsPage (size pool)) {pool : Pool}
    {cpu : Cpu} (ready : s.free pool cpu ≠ []) :
    ∃ s' o h, s.alloc pool cpu = some s' ∧ s'.handed = o :: s.handed ∧
      s.header (toHeader o) = some h ∧ h.owner = pool ∧
      ∃ k, 0 < k ∧ o + k * size pool = toHeader o + pageSize := by
  obtain ⟨page, rest, list⟩ := exists_cons_of_ne_nil ready
  obtain ⟨h, here, rfl, rfl, nonempty⟩ := (inv.listed pool cpu page).1 (list ▸ mem_cons_self)
  obtain ⟨o, next, localFree⟩ := exists_cons_of_ne_nil nonempty
  have mem := inv.members page h here o (localFree ▸ mem_cons_self)
  have ofPage := (objects_spec (fits h.owner) (inv.aligned page h here)).page o mem
  have room := (fits h.owner).2
  have place := objectsLoop_place (page + pageSize) (by simp [sizeofPageHeader]) pageSize
    (.inr ⟨1, Nat.one_pos, by omega⟩) (fun _ mem => absurd mem not_mem_nil) o mem
  rw [← ofPage] at here place
  rw [Pools.alloc, list]
  simp only [← ofPage, here, localFree]
  refine ⟨_, o, h, rfl, ?_, here, rfl, place⟩
  split <;> rfl

theorem Inv.alloc (inv : Inv size [] s) (fits : ∀ pool, FitsPage (size pool)) {pool : Pool}
    {cpu : Cpu} (taken : s.alloc pool cpu = some s') : Inv size [] s' := by
  rw [Pools.alloc] at taken
  split at taken
  · cases taken
  next page pages list =>
    split at taken
    · cases taken
    next h here =>
      split at taken <;> cases taken
      next obj next localFree =>
        have onList : page ∈ s.free pool cpu := list ▸ mem_cons_self
        obtain ⟨h₀, here₀, rfl, rfl, -⟩ := (inv.listed pool cpu page).1 onList
        obtain rfl := Option.some.inj (here.symm.trans here₀)
        have objectsOk := objects_spec (fits h.owner) (inv.aligned page h here)
        have members := inv.members page h here
        have few := inv.nalloc page h here
        have bound := objectsOk.length
        have ofPage : toHeader obj = page :=
          objectsOk.page obj (members obj (localFree ▸ mem_cons_self))
        have nodupList := inv.nodup h.owner h.cpuId
        rw [list, nodup_cons] at nodupList
        have common : ∀ s' : Pools Cpu Pool,
            s'.header = update s.header page (some { h with
              nalloc := wrap32 (h.nalloc + 1), localFree := next }) →
            (s'.sink = s.sink ∧ s'.adding = s.adding ∧ s'.returning = s.returning) →
            s'.handed = obj :: s.handed →
            (Lists s.free s'.free page fun pool cpu =>
              h.owner = pool ∧ h.cpuId = cpu ∧ next ≠ []) → Inv size [] s' := by
          intro s' header same handed lists
          refine inv.change here header rfl rfl same (fun o _ => ?_) (fun o ne => ?_) ?_
            (fun o mem => members o (localFree ▸ mem_cons_of_mem _ mem)) lists
          · rw [handed, localFree, count_cons, count_cons]
            dsimp only
            omega
          · rw [handed, count_cons_of_ne]
            rintro rfl
            exact ne ofPage
          · rw [localFree, length_cons] at few
            rw [localFree, length_cons]
            simp only [wrap32, pageSize] at *
            omega
        split
        next last =>
          have lists := setFree_lists (inv.owner_of_listed here) (fun p ne => ?_)
            nodupList.2 inv.nodup
          · exact common _ rfl ⟨rfl, rfl, rfl⟩ rfl
              (lists.iff fun pool cpu => by simp [last, nodupList.1])
          · rw [list, mem_cons]
            exact ⟨.inr, fun mem => mem.resolve_left ne⟩
        next more =>
          refine common _ rfl ⟨rfl, rfl, rfl⟩ rfl
            ⟨fun pool cpu => ?_, fun _ _ _ _ => Iff.rfl, inv.nodup⟩
          refine (inv.listed pool cpu page).trans ?_
          rw [here]
          simp [localFree, more]

theorem count_limbo {o : ℕ} (ne : toHeader o ≠ toHeader obj) : [obj].count o = 0 :=
  count_eq_zero_of_not_mem fun mem => ne (by rw [mem_singleton.1 mem])

/-- An object in limbo is not on the list of its page, so the page counts it. -/
theorem Inv.limbo_subperm (inv : Inv size [obj] s) (fits : ∀ pool, FitsPage (size pool))
    (here : s.header (toHeader obj) = some h) :
    (obj :: h.localFree).Subperm (objects (size h.owner) (toHeader obj)) := by
  have one := inv.object obj (inv.isObject (by simp))
  have notLocal : obj ∉ h.localFree := fun mem => by
    have := count_pos_iff.2 mem
    rw [places, localCount_eq here rfl, count_singleton_self] at one
    omega
  obtain ⟨k, found, mem⟩ := inv.isObject (o := obj) (by simp)
  obtain rfl := Option.some.inj (here.symm.trans found)
  refine subperm_of_subset (nodup_cons.2 ⟨notLocal, inv.localNodup fits here⟩) ?_
  intro o either
  rcases mem_cons.1 either with rfl | localMem
  · exact mem
  · exact inv.members _ h here o localMem

/-- The last object of a page in use comes back and the page goes. -/
theorem Inv.release (inv : Inv size [obj] s) (fits : ∀ pool, FitsPage (size pool))
    (here : s.header (toHeader obj) = some h) (last : h.nalloc = 1)
    (header : s'.header = update s.header (toHeader obj) none)
    (same : s'.sink = s.sink ∧ s'.adding = s.adding ∧ s'.handed = s.handed)
    (returning : s'.returning = toHeader obj :: s.returning)
    (lists : Lists s.free s'.free (toHeader obj) fun _ _ => False) : Inv size [] s' := by
  obtain ⟨sink, adding, handed⟩ := same
  have perm : (obj :: h.localFree).Perm (objects (size h.owner) (toHeader obj)) := by
    refine (inv.limbo_subperm fits here).perm_of_length_le ?_
    rw [length_cons, ← inv.nalloc _ h here]
    omega
  -- Every object of the page is on its list or in limbo.
  have idle : ∀ o, toHeader o = toHeader obj →
      s.handed.count o + tally (fun q => q.items.count o) s.sink = 0 := by
    intro o ofPage
    have most := inv.places_le o
    have count : s.localCount o = h.localFree.count o := localCount_eq here ofPage
    by_cases mem : o ∈ objects (size h.owner) (toHeader obj)
    · rw [places, count] at most
      have : 0 < (obj :: h.localFree).count o := count_pos_iff.2 (perm.mem_iff.2 mem)
      rw [count_cons] at this
      rw [count_singleton] at most
      omega
    · have := inv.nothing o fun ⟨k, found, isMem⟩ => by
        rw [ofPage] at found isMem
        obtain rfl := Option.some.inj (here.symm.trans found)
        exact mem isMem
      rw [places] at this
      omega
  have inUse := inv.inUse here
  refine inv.onPage header sink (fun o ne => ?_) (fun _ _ ⟨_, is, _⟩ => by cases is)
    (fun o eq _ => ?_) nofun (lists.iff fun pool cpu => by simp)
    (fun k o mem eq => ?_) (fun p mem => ⟨adding ▸ mem, inUse.1 p (adding ▸ mem)⟩)
    (adding ▸ inv.addingNodup) fun p mem => ?_
  · rw [handed, count_nil, count_limbo ne]
  · have := idle o eq
    rw [places, localCount, eq, header, update_self, sink, handed]
    exact this
  · have := idle o eq
    have := Theory.le_tally (fun q : Sink => q.items.count o) s.sink k
    have := count_pos_iff.2 mem
    omega
  · rw [returning] at mem
    rcases mem_cons.1 mem with rfl | mem
    · exact .inr ⟨rfl, rfl⟩
    · exact .inl ⟨mem, inUse.2 p mem⟩

/-- **`free_same_cpu` takes the object in.** -/
theorem Inv.freeSameCpu (inv : Inv size [obj] s) (fits : ∀ pool, FitsPage (size pool))
    (here : s.header (toHeader obj) = some h) :
    ∃ s', s.freeSameCpu obj h.cpuId = some s' ∧ Inv size [] s' := by
  have subperm := inv.limbo_subperm fits here
  have length := subperm.length_le
  have nalloc := inv.nalloc _ h here
  have bound := (objects_spec (fits h.owner) (inv.aligned _ h here)).length
  have own : ∀ pool cpu, toHeader obj ∈ s.free pool cpu ↔
      h.owner = pool ∧ h.cpuId = cpu ∧ h.localFree ≠ [] := by
    intro pool cpu
    rw [inv.listed, here]
    simp
  have nodup := inv.nodup
  rw [length_cons] at length
  have pred : wrap32 (h.nalloc + (2 ^ 32 - 1)) = h.nalloc - 1 := by
    simp only [wrap32, pageSize] at *
    omega
  simp only [Pools.freeSameCpu, here, pred]
  split
  next last =>
    have one : h.nalloc = 1 := by omega
    by_cases empty : h.localFree = []
    · rw [if_neg (not_not.2 empty)]
      exact ⟨_, rfl, inv.release fits here one (update_idem ..) ⟨rfl, rfl, rfl⟩ rfl
        ⟨fun pool cpu => (own pool cpu).trans (by simp [empty]), fun _ _ _ _ => Iff.rfl, nodup⟩⟩
    · rw [if_pos empty]
      have lists := setFree_lists (inv.owner_of_listed here)
        (fun p ne => (nodup _ _).mem_erase_iff.trans (and_iff_right ne))
        ((nodup h.owner h.cpuId).erase (toHeader obj)) nodup
      exact ⟨_, rfl, inv.release fits here one (update_idem ..) ⟨rfl, rfl, rfl⟩ rfl
        (lists.iff fun pool cpu => by simp [(nodup _ _).mem_erase_iff])⟩
  · have common : ∀ s' : Pools Cpu Pool,
        s'.header = update s.header (toHeader obj) (some { h with
          nalloc := h.nalloc - 1, localFree := obj :: h.localFree }) →
        (s'.sink = s.sink ∧ s'.adding = s.adding ∧ s'.returning = s.returning) →
        s'.handed = s.handed →
        (Lists s.free s'.free (toHeader obj) fun pool cpu => h.owner = pool ∧ h.cpuId = cpu) →
        Inv size [] s' := by
      intro s' header same handed lists
      refine inv.change here header rfl rfl same (fun o _ => ?_) (fun o ne => ?_) ?_
        (fun o mem => subperm.subset mem) (lists.iff fun pool cpu => by simp)
      · rw [handed, count_cons, count_singleton, count_nil]
        omega
      · rw [handed, count_nil, count_limbo ne]
      · rw [length_cons]
        dsimp only
        omega
    by_cases empty : h.localFree = []
    · have fresh : toHeader obj ∉ s.free h.owner h.cpuId := fun mem =>
        ((own h.owner h.cpuId).1 mem).2.2 empty
      -- The page goes to the front or to the back of the list.
      have pushed : ∀ pages : List ℕ, (∀ p, p ∈ pages ↔ p = toHeader obj ∨ p ∈ s.free h.owner h.cpuId) →
          pages.Nodup → ∀ h' : PageHeader Cpu Pool, ∀ h'' : Option (PageHeader Cpu Pool),
          h' = { h with nalloc := h.nalloc - 1, localFree := obj :: h.localFree } →
          Inv size [] (((s.setHeader (toHeader obj) h'').setFree h.owner h.cpuId pages).setHeader
            (toHeader obj) (some h')) := by
        rintro pages mem pagesNodup _ h'' rfl
        have lists := setFree_lists (inv.owner_of_listed here)
          (fun p ne => (mem p).trans (or_iff_right ne)) pagesNodup nodup
        refine common _ (update_idem ..) ⟨rfl, rfl, rfl⟩ rfl (lists.iff fun pool cpu => ?_)
        rw [and_iff_left ((mem _).2 (.inl rfl))]
      rw [if_pos empty]
      split
      · exact ⟨_, rfl, pushed _ (fun p => mem_cons) (nodup_cons.2 ⟨fresh, nodup _ _⟩) _ _ rfl⟩
      · refine ⟨_, rfl, pushed _ (fun p => ?_) ?_ _ _ rfl⟩
        · change p ∈ s.free h.owner h.cpuId ++ [toHeader obj] ↔ _
          rw [mem_append, mem_singleton, or_comm]
        · change (s.free h.owner h.cpuId ++ [toHeader obj]).Nodup
          rw [nodup_append_comm]
          exact nodup_cons.2 ⟨fresh, nodup _ _⟩
    · rw [if_neg empty]
      exact ⟨_, rfl, common _ (update_idem ..) ⟨rfl, rfl, rfl⟩ rfl
        ⟨fun pool cpu => (own pool cpu).trans (by simp [empty]), fun _ _ _ _ => Iff.rfl, nodup⟩⟩

theorem Inv.addPage (inv : Inv size [] s) (fits : ∀ pool, FitsPage (size pool)) (pool : Pool)
    (cpu : Cpu) (allocated : page ∈ s.adding) : Inv size [] (s.addPage size pool cpu page) := by
  obtain ⟨aligned, unused, notReturning⟩ := inv.adding page allocated
  obtain ⟨nodup, ofPage, length⟩ := objects_spec (fits pool) aligned
  have self : (s.addPage size pool cpu page).header page =
      some ⟨pool, cpu, 0, objects (size pool) page⟩ := update_self ..
  have fresh : ∀ pool cpu, page ∉ s.free pool cpu := by
    intro pool cpu mem
    obtain ⟨h, there, -⟩ := (inv.listed pool cpu page).1 mem
    rw [unused] at there
    cases there
  have appended : ∀ p, p ≠ page → (p ∈ s.free pool cpu ++ [page] ↔ p ∈ s.free pool cpu) := by
    intro p ne
    simp [ne]
  have appendedNodup : (s.free pool cpu ++ [page]).Nodup := by
    rw [nodup_append_comm]
    exact nodup_cons.2 ⟨fresh _ _, inv.nodup _ _⟩
  have lists := setFree_lists (fun pool' cpu' mem => absurd mem (fresh pool' cpu')) appended
    appendedNodup inv.nodup
  have none : ∀ o, toHeader o = page → s.places o = 0 := fun o eq =>
    inv.nothing o fun ⟨h, there, _⟩ => by
      rw [eq, unused] at there
      cases there
  have ownPlaces : ∀ o, toHeader o = page →
      (s.addPage size pool cpu page).places o = (objects (size pool) page).count o := by
    intro o eq
    have before := none o eq
    rw [places] at before
    rw [places, localCount_eq self eq]
    change s.handed.count o + tally (fun q => q.items.count o) s.sink +
      (objects (size pool) page).count o = _
    omega
  refine inv.onPage (show _ = update s.header page (some ⟨pool, cpu, 0, objects (size pool) page⟩)
    from rfl) rfl (fun _ _ => rfl) (fun o eq ⟨k, is, mem⟩ => ?_) (fun o eq isNot => ?_)
    (fun k is => ?_) (lists.iff fun pool' cpu' => ?_) (fun k o mem eq => ?_)
    (fun p mem => (inv.addingNodup.mem_erase_iff.1 mem).symm) (inv.addingNodup.erase _)
    fun p mem => .inl ⟨mem, fun eq => notReturning (eq ▸ mem)⟩
  · cases is
    rw [ownPlaces o eq]
    exact count_eq_one_of_mem nodup mem
  · rw [ownPlaces o eq]
    exact count_eq_zero_of_not_mem fun mem => isNot ⟨_, rfl, mem⟩
  · cases is
    exact ⟨aligned, Nat.zero_add _, fun _ mem => mem⟩
  · refine ⟨fun ⟨own, home, _⟩ => ?_, fun ⟨k, is, own, home, _⟩ => ?_⟩
    · exact ⟨_, rfl, own, home, objects_ne_nil (fits pool)⟩
    · cases is
      exact ⟨own, home, mem_append_right _ (mem_singleton_self _)⟩
  · obtain ⟨k', found, -⟩ := inv.sinks k o mem
    rw [eq, unused] at found
    cases found

theorem Inv.unhand (inv : Inv size [] s) (owned : obj ∈ s.handed) :
    Inv size [obj] { s with handed := s.handed.erase obj } := by
  have places : ∀ o, places { s with handed := s.handed.erase obj } o + [obj].count o =
      s.places o + [].count o := by
    intro o
    have there := count_pos_iff.2 owned
    change (s.handed.erase obj).count o + _ + s.localCount o + _ = s.handed.count o + _ + _ + _
    rw [count_erase, count_singleton, count_nil]
    by_cases eq : obj = o
    · subst eq
      simp only [beq_self_eq_true, if_true]
      omega
    · simp only [beq_iff_eq, eq, if_false]
      omega
  exact ⟨fun o is => (places o).trans (inv.object o is),
    fun o isNot => (places o).trans (inv.nothing o isNot), inv.aligned, inv.nalloc, inv.members,
    inv.listed, inv.nodup, inv.sinks, inv.adding, inv.addingNodup, inv.returning⟩

theorem Inv.setSink (inv : Inv size limbo s) {limbo' : List ℕ} {k : Cpu × Cpu} {q : Sink}
    (count : ∀ o, q.items.count o + limbo'.count o = (s.sink k).items.count o + limbo.count o)
    (home : ∀ o ∈ q.items, ∃ h, s.header (toHeader o) = some h ∧ h.cpuId = k.1) :
    Inv size limbo' { s with sink := update s.sink k q } := by
  have places : ∀ o, places { s with sink := update s.sink k q } o +
      limbo'.count o = s.places o + limbo.count o := by
    intro o
    have moved := tally_update (fun q : Sink => q.items.count o) s.sink k q
    have := count o
    change s.handed.count o + tally _ (update s.sink k q) + s.localCount o + _ =
      s.handed.count o + _ + s.localCount o + _
    omega
  refine ⟨fun o is => (places o).trans (inv.object o is),
    fun o isNot => (places o).trans (inv.nothing o isNot), inv.aligned, inv.nalloc, inv.members,
    inv.listed, inv.nodup, fun k' o mem => ?_, inv.adding, inv.addingNodup, inv.returning⟩
  change o ∈ (update s.sink k q k').items at mem
  by_cases eq : k' = k
  · subst eq
    rw [update_self] at mem
    exact home o mem
  · rw [update_of_ne eq] at mem
    exact inv.sinks k' o mem

theorem Sink.pop_spec {q q' : Sink} {o : ℕ} (popped : q.pop = some (o, q')) :
    q.items.Perm (o :: q'.items) := by
  obtain ⟨head, pollList⟩ := q
  cases pollList with
  | cons r rest =>
    obtain ⟨rfl, rfl⟩ := Prod.mk.inj (Option.some.inj popped)
    exact perm_middle
  | nil =>
    cases head with
    | nil => cases popped
    | cons r rest =>
      obtain ⟨rfl, rfl⟩ := Prod.mk.inj (Option.some.inj popped)
      rw [Sink.items, Sink.items, append_nil, nil_append]

theorem Inv.freeObject (inv : Inv size [] s) (fits : ∀ pool, FitsPage (size pool)) (cpu : Cpu)
    (owned : obj ∈ s.handed) : ∃ s', s.freeObject cpu obj = some s' ∧ Inv size [] s' := by
  have there := count_pos_iff.2 owned
  have somewhere : 0 < s.places obj + [].count obj := by
    rw [Pools.places]
    omega
  obtain ⟨h, here, -⟩ := inv.isObject somewhere
  have limbo := inv.unhand owned
  simp only [Pools.freeObject, here]
  split
  next same =>
    subst same
    exact limbo.freeSameCpu fits here
  · refine ⟨_, rfl, limbo.setSink (fun o => ?_) fun o mem => ?_⟩
    · simp only [Sink.push, Sink.items, cons_append, count_cons, count_nil]
      omega
    · rcases mem_cons.1 mem with rfl | mem
      · exact ⟨h, here, rfl⟩
      · exact inv.sinks _ o mem

theorem Inv.collectGarbage (inv : Inv size [] s) (fits : ∀ pool, FitsPage (size pool))
    (cpu i : Cpu) : ∃ s', s.collectGarbage cpu i = some s' ∧ Inv size [] s' := by
  rw [Pools.collectGarbage]
  split
  · exact ⟨s, rfl, inv⟩
  next o q popped =>
    have perm := Sink.pop_spec popped
    obtain ⟨h, here, rfl⟩ := inv.sinks (cpu, i) o (perm.mem_iff.2 mem_cons_self)
    have limbo : Inv size [o] { s with sink := update s.sink (h.cpuId, i) q } := by
      refine inv.setSink (fun o' => ?_) fun o' mem =>
        inv.sinks _ o' (perm.mem_iff.2 (mem_cons_of_mem _ mem))
      simp only [perm.count_eq, count_cons, count_nil]
      omega
    exact limbo.freeSameCpu fits here

/-- **Every step keeps the invariant.** -/
theorem Inv.step (inv : Inv size [] s) (fits : ∀ pool, FitsPage (size pool))
    {event : Event Cpu Pool} (taken : s.step size event = some s') : Inv size [] s' := by
  cases event with
  | alloc pool cpu => exact inv.alloc fits taken
  | takePage page =>
    obtain ⟨⟨aligned, unused, notAdding, notReturning⟩, taken⟩ :=
      ite_none_right_eq_some.1 taken
    cases taken
    refine ⟨inv.object, inv.nothing, inv.aligned, inv.nalloc, inv.members, inv.listed, inv.nodup,
      inv.sinks, fun p mem => ?_, nodup_cons.2 ⟨notAdding, inv.addingNodup⟩, inv.returning⟩
    rcases mem_cons.1 mem with rfl | mem
    · exact ⟨aligned, unused, notReturning⟩
    · exact inv.adding p mem
  | addPage pool cpu page =>
    obtain ⟨allocated, taken⟩ := ite_none_right_eq_some.1 taken
    cases taken
    exact inv.addPage fits pool cpu allocated
  | free cpu obj =>
    obtain ⟨owned, taken⟩ := ite_none_right_eq_some.1 taken
    obtain ⟨s₁, done, inv'⟩ := inv.freeObject fits cpu owned
    obtain rfl := Option.some.inj (done.symm.trans taken)
    exact inv'
  | collectGarbage cpu i =>
    obtain ⟨s₁, done, inv'⟩ := inv.collectGarbage fits cpu i
    obtain rfl := Option.some.inj (done.symm.trans taken)
    exact inv'
  | returned page =>
    cases taken
    exact ⟨inv.object, inv.nothing, inv.aligned, inv.nalloc, inv.members, inv.listed, inv.nodup,
      inv.sinks, fun p mem => ⟨(inv.adding p mem).1, (inv.adding p mem).2.1, fun still =>
        (inv.adding p mem).2.2 (mem_of_mem_erase still)⟩, inv.addingNodup,
      fun p mem => inv.returning p (mem_of_mem_erase mem)⟩

/-- The number of objects in use, counted. -/
theorem Inv.nalloc_eq (inv : Inv size limbo s) (fits : ∀ pool, FitsPage (size pool))
    (here : s.header page = some h) :
    h.nalloc = ((objects (size h.owner) page).filter (· ∉ h.localFree)).length := by
  have objectsOk := objects_spec (fits h.owner) (inv.aligned page h here)
  have free : ((objects (size h.owner) page).filter (· ∈ h.localFree)).Perm h.localFree := by
    refine (perm_ext_iff_of_nodup (objectsOk.nodup.filter _) (inv.localNodup fits here)).2 ?_
    intro o
    rw [mem_filter, decide_eq_true_iff]
    exact and_iff_right_of_imp (inv.members page h here o)
  have parts := length_eq_length_filter_add (l := objects (size h.owner) page)
    (· ∈ h.localFree)
  have total := inv.nalloc page h here
  rw [free.length_eq] at parts
  simp only [decide_not] at *
  omega

end Invariant

/-! ## Every run -/

section Runs

variable {Cpu Pool : Type} [Fintype Cpu] [DecidableEq Cpu] [DecidableEq Pool]

def atBoot : Pools Cpu Pool where
  header _ := none
  free _ _ := []
  sink _ := ⟨[], []⟩
  handed := []
  adding := []
  returning := []

theorem atBoot_inv (size : Pool → ℕ) : Inv size [] (atBoot : Pools Cpu Pool) := by
  refine ⟨fun o ⟨_, found, _⟩ => (by cases found), fun o _ => ?_, nofun,
    nofun, nofun, fun pool cpu page => ?_,
    fun _ _ => nodup_nil, fun _ _ mem => absurd mem not_mem_nil,
    fun _ mem => absurd mem not_mem_nil, nodup_nil,
    fun _ mem => absurd mem not_mem_nil⟩
  · simp [places, atBoot, tally, Sink.items, localCount]
  · simp [atBoot]

/-- **The object pools.**  In every state that the CPUs can reach, an object of a page is in one
place, a page counts its objects in use and is on the list of its CPU when it has a free one, and
no object of a page that is returned is in use.  No free meets a page without header. -/
theorem objectPools_sound {size : Pool → ℕ} (fits : ∀ pool, FitsPage (size pool))
    {s : Pools Cpu Pool}
    (reached : Reachable (· = atBoot) (fun s s' => ∃ event, s.step size event = some s') s) :
    (∀ o, s.IsObject size o → s.places o = 1) ∧ (∀ o, ¬s.IsObject size o → s.places o = 0) ∧
      (∀ k, ∀ o ∈ (s.sink k).items, ∃ h, s.header (toHeader o) = some h ∧ h.cpuId = k.1) ∧
      (∀ page h, s.header page = some h →
        h.nalloc = ((objects (size h.owner) page).filter (· ∉ h.localFree)).length) ∧
      (∀ pool cpu page, page ∈ s.free pool cpu ↔
        ∃ h, s.header page = some h ∧ h.owner = pool ∧ h.cpuId = cpu ∧ h.localFree ≠ []) ∧
      (∀ page ∈ s.returning, ∀ o, toHeader o = page →
        o ∉ s.handed ∧ ∀ k, o ∉ (s.sink k).items) ∧
      (∀ cpu, ∀ o ∈ s.handed, ∃ s', s.freeObject cpu o = some s') ∧
      ∀ cpu i, ∃ s', s.collectGarbage cpu i = some s' := by
  have inv := reached.invariant (I := Inv size []) (fun _ boot => boot ▸ atBoot_inv size)
    fun _ _ _ inv ⟨_, taken⟩ => inv.step fits taken
  refine ⟨inv.object, inv.nothing, inv.sinks, fun page h here => inv.nalloc_eq fits here, inv.listed,
    fun page mem o ofPage => ?_, fun cpu o owned => ?_, fun cpu i => ?_⟩
  · have zero := inv.nothing o fun ⟨h, found, _⟩ => by
      rw [ofPage, inv.returning page mem] at found
      cases found
    rw [places] at zero
    refine ⟨fun owned => ?_, fun k inSink => ?_⟩
    · have := count_pos_iff.2 owned
      omega
    · have := Theory.le_tally (fun q : Sink => q.items.count o) s.sink k
      have := count_pos_iff.2 inSink
      omega
  · obtain ⟨s', done, -⟩ := inv.freeObject fits cpu owned
    exact ⟨s', done⟩
  · obtain ⟨s', done, -⟩ := inv.collectGarbage fits cpu i
    exact ⟨s', done⟩

end Runs

/-! ## An object that is freed on another CPU -/

def remoteFree : List (Event Bool Unit) :=
  [.takePage 0x1000, .addPage () false 0x1000, .alloc () false, .free true 0x1400]

def smallSize (_ : Unit) : ℕ := 1024

theorem remoteFree_reachable {s : Pools Bool Unit}
    (run : remoteFree.foldlM (step smallSize) atBoot = some s) :
    Reachable (· = atBoot) (fun s s' => ∃ event, s.step smallSize event = some s') s :=
  Reachable.events (.start rfl) run

theorem remoteFree_sound :
    ∃ s : Pools Bool Unit, remoteFree.foldlM (step smallSize) atBoot = some s ∧
      s.places 0x1400 = 1 ∧ (s.sink (false, true)).items = [0x1400] :=
  ⟨_, rfl, (objectPools_sound (fun _ => show FitsPage 1024 from ⟨by decide, by decide⟩)
    (remoteFree_reachable rfl)).1 0x1400 ⟨_, rfl, by decide⟩, rfl⟩

end MiniOsv.ObjectPool
