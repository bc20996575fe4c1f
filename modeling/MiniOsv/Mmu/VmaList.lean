/-
# Mmu.VmaList -- the virtual memory areas of core/mmu.cc

`vma_list` is an intrusive set of `vma` objects ordered by their start; two empty ones
mark the edges of the area that can be mapped.  `vma_range_set` is a set of pointers to
these objects and to the linear maps, also ordered by start, and `find_hole` searches it.

Addresses and sizes are natural numbers with 64-bit arithmetic written out.  The start of
an object never changes while it is in `vma_list`, so an iterator is the start of the
element it points to (`none` is `end()`), and a pointer in `vma_range_set` is the start of
the object, whose end is looked up in `vma_list`.  Going on with an iterator that points
to no element has no result: the functions return `none`.
-/
import MiniOsv.Mempool.PageRanges
import MiniOsv.Theory.KeyedList

namespace MiniOsv.Mmu

open Theory
open Mempool (pageSize wrap64 sub64 alignDown alignUp)

/-! ## Constants and alignment -/

def lowerVmaLimit : ℕ := 0x0
def upperVmaLimit : ℕ := 0x400000000000

def hugePageSize : ℕ := pageSize * 512

/-! ## Areas -/

structure Vma where
  start : ℕ
  stop : ℕ
  perm : ℕ
  flags : ℕ
  deriving DecidableEq, Repr

def Vma.size (v : Vma) : ℕ := v.stop - v.start

def Vma.set (v : Vma) (start stop : ℕ) : Vma :=
  { v with start := alignDown start pageSize, stop := alignUp stop pageSize }

/-- `anon_vma::split`: the area, and the new one behind it.  The constructor rounds as `set` does. -/
def Vma.split (v : Vma) (edge : ℕ) : Vma × List Vma :=
  if edge ≤ v.start ∨ edge ≥ v.stop then (v, [])
  else (v.set v.start edge, [v.set edge v.stop])

def contains (start stop : ℕ) (y : Vma) : Bool := y.start ≥ start ∧ y.stop ≤ stop

structure LinearVma where
  start : ℕ
  size : ℕ
  deriving DecidableEq, Repr

def LinearVma.stop (l : LinearVma) : ℕ := wrap64 (l.start + l.size)

/-- `vma_range`: a pointer to an area or to a linear map. -/
inductive VmaRange
  | vma (start : ℕ)
  | linear (l : LinearVma)
  deriving DecidableEq, Repr

def VmaRange.start : VmaRange → ℕ
  | .vma start => start
  | .linear l => l.start

inductive Errno
  | einval | enomem | enodev
  deriving DecidableEq, Repr

structure Mm where
  vmaList : List Vma
  vmaRangeSet : List VmaRange
  linearVmaSet : List LinearVma
  deriving DecidableEq, Repr

namespace Mm

/-! ## The two sets -/

def vmaAt (s : Mm) (k : ℕ) : Option Vma := s.vmaList.find? fun v => decide (v.start = k)

/-- `std::prev(i)`. -/
def prev (s : Mm) (k : ℕ) : Option Vma := (s.vmaList.filter fun v => decide (v.start < k)).getLast?

/-- `vma_list.lower_bound(addr, addr_compare())`. -/
def lowerBound (s : Mm) (addr : ℕ) : Option Vma := s.vmaList.find? fun v => decide (addr ≤ v.start)

def insertVma (s : Mm) (v : Vma) : Mm :=
  { s with
    vmaList := insertKey Vma.start v s.vmaList
    vmaRangeSet := insertKey VmaRange.start (.vma v.start) s.vmaRangeSet }

def updateVma (s : Mm) (k : ℕ) (f : Vma → Vma) : Mm :=
  { s with vmaList := s.vmaList.map fun v => if v.start = k then f v else v }

/-! ## Searches -/

/-- `find_intersecting_vmas`: the first iterator and the one behind the last. -/
def findIntersectingVmas (s : Mm) (start stop : ℕ) : Option (Option ℕ × Option ℕ) :=
  if stop ≤ start then some (none, none)
  else do
    let v ← s.lowerBound start
    let first ←
      if v.start > start then do
        let prev ← s.prev v.start
        if prev.stop > start then some prev else some v
      else some v
    if first.start ≥ stop then some (none, none)
    else some (some first.start, (s.lowerBound stop).map Vma.start)

def between (s : Mm) (first second : Option ℕ) : List Vma :=
  (s.vmaList.dropWhile fun v => decide (some v.start ≠ first)).takeWhile
    fun v => decide (some v.start ≠ second)

/-- The loop of `ismapped`. -/
def ismappedLoop (stop : ℕ) : ℕ → List Vma → Bool
  | _, [] => false
  | start, p :: rest =>
    if p.start > start then false
    else if p.stop ≥ stop then true
    else ismappedLoop stop p.stop rest

def ismapped (s : Mm) (addr size : ℕ) : Option Bool := do
  let range ← s.findIntersectingVmas addr (wrap64 (addr + size))
  some (ismappedLoop (wrap64 (addr + size)) addr (s.between range.1 range.2))

def ranges (s : Mm) : List (ℕ × ℕ) :=
  s.vmaRangeSet.map fun r =>
    match r with
    | .vma k => (k, ((s.vmaAt k).map Vma.stop).getD k)
    | .linear l => (l.start, l.stop)

/-- The loop of `find_hole`; the list starts with `n`. -/
def findHoleLoop (start size : ℕ) : ℕ × ℕ → ℕ → List (ℕ × ℕ) → Option (Except Errno ℕ)
  | _, _, [] => none
  | p, goodEnough, n :: rest =>
    if n.1 ≤ upperVmaLimit then
      if start ≥ p.2 ∧ wrap64 (start + size) ≤ n.1 then some (.ok start)
      else if p.2 ≥ start ∧ sub64 n.1 p.2 ≥ size then
        if size < hugePageSize then some (.ok p.2)
        else if sub64 n.1 (alignUp p.2 hugePageSize) ≥ size then
          some (.ok (alignUp p.2 hugePageSize))
        else findHoleLoop start size n p.2 rest
      else findHoleLoop start size n goodEnough rest
    else if goodEnough ≠ 0 then some (.ok goodEnough)
    else some (.error .enomem)

def findHole (s : Mm) (start size : ℕ) : Option (Except Errno ℕ) :=
  match (s.ranges.takeWhile fun r => decide (r.1 < start)).getLast? with
  | some p => findHoleLoop start size p 0 (s.ranges.dropWhile fun r => decide (r.1 < start))
  | none =>
    match s.ranges with
    | [] => none
    | p :: rest => findHoleLoop start size p 0 rest

/-! ## `evacuate` and `protect` -/

/-- The loop that `evacuate` and `protect` have in common, on the areas from the iterator on: split
each one at both ends of the range and look at the first piece; the others are behind it in the set, as
the ends are page boundaries.  The result is the areas in their order, with a mark on those that lie
in the range, which are acted on.  An area is visited at most three times, once for each part. -/
def sweep (skip : Vma → Bool) (start stop : ℕ) : ℕ → List Vma → List (Vma × Bool)
  | fuel + 1, v :: rest =>
    if skip v then (v, false) :: sweep skip start stop fuel rest
    else
      let r := v.split stop
      let q := r.1.split start
      (q.1, contains start stop q.1) :: sweep skip start stop fuel (q.2 ++ r.2 ++ rest)
  | _, _ => []

/-- The loop over the areas that meet the range, with the sets afterwards: `act` is what becomes of
an area in the range. -/
def sweepRange (s : Mm) (skip : Vma → Bool) (act : Vma → List Vma) (start stop : ℕ) :
    Option (Mm × List (Vma × Bool)) := do
  let range ← s.findIntersectingVmas start stop
  let old := s.between range.1 range.2
  let parts := sweep skip start stop (3 * old.length) old
  let new := parts.flatMap fun p => if p.2 then act p.1 else [p.1]
  some ({ s with
    vmaList := s.vmaList.takeWhile (fun v => decide (some v.start ≠ range.1)) ++ new ++
      (s.vmaList.dropWhile fun v => decide (some v.start ≠ range.1)).drop old.length
    vmaRangeSet := new.foldl (fun r v => insertKey VmaRange.start (.vma v.start) r)
      (s.vmaRangeSet.filter fun r => decide (∀ v ∈ old, r ≠ .vma v.start)) }, parts)

/-- The ranges that `operate_range` is called on, as start and size. -/
def actedRanges (parts : List (Vma × Bool)) : List (ℕ × ℕ) :=
  (parts.filter Prod.snd).map fun p => (p.1.start, p.1.size)

/-- The areas in the range go. -/
def evacuate (s : Mm) (start stop : ℕ) : Option Mm :=
  (s.sweepRange (fun _ => false) (fun _ => []) start stop).map Prod.fst

/-! ## The operations -/

/-- `allocate`; the area `v` carries permissions and flags. -/
def allocate (s : Mm) (v : Vma) (start size : ℕ) (search : Bool) : Option (Mm × Except Errno ℕ) :=
  if search then
    match s.findHole (if start = 0 then 0x200000000000 else start) size with
    | none => none
    | some (.error e) => some (s, .error e)
    | some (.ok hole) => some (s.insertVma (v.set hole (wrap64 (hole + size))), .ok hole)
  else do
    let s' ← s.evacuate start (wrap64 (start + size))
    some (s'.insertVma (v.set start (wrap64 (start + size))), .ok start)

def mapAnon (s : Mm) (addr size flags perm : ℕ) : Option (Mm × Except Errno ℕ) :=
  let size := alignUp size pageSize
  s.allocate ⟨addr, wrap64 (addr + size), perm, flags⟩ addr size (!flags.testBit 0)

def lowerEdge : Vma := ⟨lowerVmaLimit, lowerVmaLimit, 0, 0⟩
def upperEdge : Vma := ⟨upperVmaLimit, upperVmaLimit, 0, 0⟩

end Mm

end MiniOsv.Mmu
