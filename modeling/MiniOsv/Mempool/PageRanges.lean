/-
# Mempool.PageRanges -- the page range allocator of core/mempool.cc

`page_range_allocator` keeps the free physical memory as ranges of whole pages.
A range is known by the address of its header, which is stored in its own first
page.  `free` finds the neighbours of a range from three redundant encodings: the
bitmap bits of the pages next to it, the pointer in the last word of the range on
its left, and the container, which is chosen from the size in the header.

A `page_range*` is the byte offset of the header from `mmu::phys_mem`.  Memory is
a map from byte addresses to the 8-byte word there; the words the allocator reads
and writes are the `size` field at the start of a header and the last word of a
range.  The intrusive containers are the lists of the headers linked in them, in
iteration order.  `operator new (p) page_range(n)` writes `n` at `p`.

The bitmap is a `boost::dynamic_bitset` whose blocks live in memory that the
allocator takes from itself (`bitmap_allocator`), so the record also holds the
vector's buffer and the counter `free_memory` that this path adjusts.
-/
import Mathlib.Algebra.Order.Ring.Int

namespace MiniOsv.Mempool

open Function (update)

/-! ## Constants and integer helpers -/

def pageSize : ℕ := 4096

/-- `page_ranges_max_order`. -/
def maxOrder : ℕ := 16

/-- `mmu::phys_mem`, the start of the identity mapped main area. -/
def physMem : ℕ := 0x400000000000

def memAreaSize : ℕ := 2 ^ 44

/-- A `size_t` value. -/
def wrap64 (n : ℕ) : ℕ := n % 2 ^ 64

/-- `size_t` subtraction. -/
def sub64 (n m : ℕ) : ℕ := (n + (2 ^ 64 - m % 2 ^ 64)) % 2 ^ 64

def alignDown (n alignment : ℕ) : ℕ := n / alignment * alignment

/-- `align_up` of a `size_t`. -/
def alignUp (n alignment : ℕ) : ℕ := alignDown (wrap64 (n + alignment - 1)) alignment

/-- `sizeof(T) * 8 - count_leading_zeros(n) - 1` for `n > 1`. -/
def ilog2 (n : ℕ) : ℕ := if n ≤ 1 then 0 else Nat.log2 n

/-- `sizeof(T) * 8 - count_leading_zeros(n - 1)` for `n > 1`. -/
def ilog2Roundup (n : ℕ) : ℕ := if n ≤ 1 then 0 else Nat.log2 (n - 1) + 1

/-! ## The allocator's state -/

structure PageRangeAllocator where
  mem : ℕ → ℕ
  /-- `_free_huge`, the multiset ordered by size. -/
  freeHuge : List ℕ
  /-- `_free[order]`, for orders below `maxOrder`. -/
  freeList : ℕ → List ℕ
  notEmpty : ℕ → Bool
  bitmap : ℕ → Bool
  bitmapSize : ℕ
  /-- The buffer of the bitset's vector and its capacity in blocks of 64 bits. -/
  bitmapBuf : ℕ
  bitmapCapacity : ℕ
  deferredFree : Option ℕ
  freeMemory : ℕ
  /-- A bit behind the end of the bitmap was stored, so the call does not return: the
  bitset does not check the index, and the store goes past its buffer. -/
  faulted : Bool

/-- The order of a range of `size` bytes. -/
def orderOf (size : ℕ) : ℕ := ilog2 (size / pageSize)

namespace PageRangeAllocator

/-- The allocator as its constructor leaves it, over arbitrary memory contents. -/
def initial (mem : ℕ → ℕ) : PageRangeAllocator where
  mem := mem
  freeHuge := []
  freeList := fun _ => []
  notEmpty := fun _ => false
  bitmap := fun _ => false
  bitmapSize := 0
  bitmapBuf := 0
  bitmapCapacity := 0
  deferredFree := none
  freeMemory := 0
  faulted := false

/-- Store `value` in the word at `addr`. -/
def write (s : PageRangeAllocator) (addr value : ℕ) : PageRangeAllocator :=
  { s with mem := update s.mem addr value }

/-! ## Bitmap -/

/-- `get_bitmap_idx` returns an `unsigned`. -/
def getBitmapIdx (pr : ℕ) : ℕ := pr / pageSize % 2 ^ 32

/-- The loop of `set_bits` with `fill`: the `count` bits from `idx` on. -/
def fillBits (bitmap : ℕ → Bool) (idx : ℕ) (value : Bool) : ℕ → ℕ → Bool
  | 0 => bitmap
  | count + 1 => update (fillBits bitmap idx value count) (idx + count) value

def setBits (s : PageRangeAllocator) (pr : ℕ) (value : Bool) (fill : Bool) : PageRangeAllocator :=
  let last := s.mem pr / pageSize - 1
  let s := { s with faulted := s.faulted || decide (s.bitmapSize ≤ getBitmapIdx pr + last) }
  if fill then
    { s with bitmap := fillBits s.bitmap (getBitmapIdx pr) value (last + 1) }
  else
    let first := update s.bitmap (getBitmapIdx pr) value
    { s with bitmap := update first (getBitmapIdx pr + last) value }

/-! ## Containers -/

/-- `bi::multiset::insert`: after the elements that are not larger. -/
def insertHuge (mem : ℕ → ℕ) (pr : ℕ) : List ℕ → List ℕ
  | [] => [pr]
  | q :: rest => if mem pr < mem q then pr :: q :: rest else q :: insertHuge mem pr rest

def insert (useBitmap : Bool) (s : PageRangeAllocator) (pr : ℕ) : PageRangeAllocator :=
  let size := s.mem pr
  let s := s.write (pr + size - 8) pr
  let order := orderOf size
  let s :=
    if order ≥ maxOrder then
      { s with
        freeHuge := insertHuge s.mem pr s.freeHuge
        notEmpty := update s.notEmpty maxOrder true }
    else
      { s with
        freeList := update s.freeList order (pr :: s.freeList order)
        notEmpty := update s.notEmpty order true }
  if useBitmap then s.setBits pr true false else s

def removeHuge (s : PageRangeAllocator) (pr : ℕ) : PageRangeAllocator :=
  let freeHuge := s.freeHuge.erase pr
  { s with
    freeHuge := freeHuge
    notEmpty := if freeHuge.isEmpty then update s.notEmpty maxOrder false else s.notEmpty }

def removeList (s : PageRangeAllocator) (order pr : ℕ) : PageRangeAllocator :=
  let list := (s.freeList order).erase pr
  { s with
    freeList := update s.freeList order list
    notEmpty := if list.isEmpty then update s.notEmpty order false else s.notEmpty }

def remove (s : PageRangeAllocator) (pr : ℕ) : PageRangeAllocator :=
  let order := orderOf (s.mem pr)
  if order ≥ maxOrder then s.removeHuge pr else s.removeList order pr

/-- The headers `for_each(min_order, f)` visits, in its order: the tree, then the
lists from `maxOrder - 1` down to `minOrder`. -/
def forEachList (s : PageRangeAllocator) (minOrder : ℕ) : List ℕ :=
  s.freeHuge ++
    ((List.range maxOrder).reverse.filter (minOrder ≤ ·)).flatMap s.freeList

/-! ## Allocation -/

/-- The bits of `_not_empty` that are left after the mask for `exactOrder`, lowest
first; `count_trailing_zeros` is the head. -/
def ordersFrom (s : PageRangeAllocator) (exactOrder : ℕ) : List ℕ :=
  (List.range (maxOrder + 1)).filter fun order => exactOrder ≤ order && s.notEmpty order

/-- Insert what lies behind the first `size` bytes of the removed range. -/
def keepFront (useBitmap : Bool) (s : PageRangeAllocator) (pr size : ℕ) : PageRangeAllocator :=
  if s.mem pr > size then
    let np := pr + size
    ((s.write np (s.mem pr - size)).insert useBitmap np).write pr size
  else s

/-- The end of `alloc`. -/
def takeFront (useBitmap : Bool) (s : PageRangeAllocator) (pr size : ℕ) :
    Option ℕ × PageRangeAllocator :=
  let s := keepFront useBitmap s pr size
  (some pr, if useBitmap then s.setBits pr false false else s)

def alloc (useBitmap : Bool) (s : PageRangeAllocator) (size : ℕ) (contiguous : Bool) :
    Option ℕ × PageRangeAllocator :=
  let exactOrder := min (ilog2Roundup (size / pageSize)) maxOrder
  match s.ordersFrom exactOrder with
  | [] =>
    if !contiguous || exactOrder == 0 || (s.freeList (exactOrder - 1)).isEmpty then (none, s)
    else
      match (s.freeList (exactOrder - 1)).find? fun pr => size ≤ s.mem pr with
      | none => (none, s)
      | some pr => (s.removeList (exactOrder - 1) pr).takeFront useBitmap pr size
  | order :: _ =>
    if order = maxOrder then
      match s.freeHuge.getLast? with
      | none => (none, s)
      | some pr =>
        if s.mem pr < size then (none, s) else (s.removeHuge pr).takeFront useBitmap pr size
    else
      match s.freeList order with
      | [] => (none, s)
      | pr :: _ => (s.removeList order pr).takeFront useBitmap pr size

/-- `expected_ret - align_down(expected_ret, alignment)`, with `expected_ret` a
pointer and `alignment` a power of two. -/
def alignmentShift (s : PageRangeAllocator) (header size offset alignment : ℕ) : ℕ :=
  wrap64 (sub64 (physMem + header + s.mem header) size + offset) % alignment

/-- The test of the lambda in `alloc_aligned`; the sum is a `size_t`. -/
def alignedFits (s : PageRangeAllocator) (size offset alignment header : ℕ) : Bool :=
  wrap64 (size + s.alignmentShift header size offset alignment) ≤ s.mem header

/-- Insert the last `shift` bytes of the removed range. -/
def dropShift (s : PageRangeAllocator) (header shift : ℕ) : PageRangeAllocator :=
  if shift ≠ 0 then
    let back := sub64 (header + s.mem header) shift
    let s := (s.write back shift).insert true back
    s.write header (sub64 (s.mem header) shift)
  else s

/-- The body of the lambda in `alloc_aligned` for the header it takes. -/
def carve (s : PageRangeAllocator) (header size shift : ℕ) (fill : Bool) :
    Option ℕ × PageRangeAllocator :=
  let s := (s.remove header).dropShift header shift
  if s.mem header = size then
    (some header, s.setBits header false fill)
  else
    let s := (s.write header (sub64 (s.mem header) size)).insert true header
    let ret := header + s.mem header
    (some ret, (s.write ret size).setBits ret false fill)

def allocAligned (s : PageRangeAllocator) (size offset alignment : ℕ) (fill : Bool) :
    Option ℕ × PageRangeAllocator :=
  let minOrder := max (ilog2 (size / pageSize)) 1 - 1
  match (s.forEachList minOrder).find? (s.alignedFits size offset alignment) with
  | none => (none, s)
  | some header => s.carve header size (s.alignmentShift header size offset alignment) fill

/-! ## Freeing -/

/-- Merge `pr` into the range that ends where it starts, found through the pointer
in that range's last word. -/
def mergePrev (s : PageRangeAllocator) (pr : ℕ) : ℕ × PageRangeAllocator :=
  let pr2 := s.mem (pr - 8)
  let s := s.remove pr2
  (pr2, s.write pr2 (s.mem pr2 + s.mem pr))

/-- Merge the range that starts where `pr` ends into `pr`. -/
def mergeNext (s : PageRangeAllocator) (pr : ℕ) : PageRangeAllocator :=
  let pr2 := pr + s.mem pr
  let s := s.remove pr2
  s.write pr (s.mem pr + s.mem pr2)

/-- The first test of `free`. -/
def freePrev (s : PageRangeAllocator) (pr : ℕ) : ℕ × PageRangeAllocator :=
  let idx := getBitmapIdx pr
  if idx != 0 && s.bitmap (idx - 1) then s.mergePrev pr else (pr, s)

/-- The second test of `free`. -/
def freeNext (s : PageRangeAllocator) (pr : ℕ) : PageRangeAllocator :=
  let nextIdx := getBitmapIdx pr + s.mem pr / pageSize
  if decide (nextIdx < s.bitmapSize) && s.bitmap nextIdx then s.mergeNext pr else s

def free (s : PageRangeAllocator) (pr : ℕ) : PageRangeAllocator :=
  let (pr, s) := s.freePrev pr
  (s.freeNext pr).insert true pr

/-! ## Accounting and the bitmap's own memory -/

def onFree (s : PageRangeAllocator) (mem : ℕ) : PageRangeAllocator :=
  { s with freeMemory := wrap64 (s.freeMemory + mem) }

def onAlloc (s : PageRangeAllocator) (mem : ℕ) : PageRangeAllocator :=
  { s with freeMemory := sub64 s.freeMemory mem }

/-- `bitmap_allocator::get_size`, for blocks of `sizeof(unsigned long)`. -/
def getSize (blocks : ℕ) : ℕ := alignUp (8 * blocks) pageSize

/-- `bitmap_allocator::allocate`. -/
def bitmapAllocate (s : PageRangeAllocator) (blocks : ℕ) : Option ℕ × PageRangeAllocator :=
  (s.onAlloc (getSize blocks)).alloc false (getSize blocks) true

/-- `bitmap_allocator::deallocate`; `none` is the failed assertion. -/
def bitmapDeallocate (s : PageRangeAllocator) (p blocks : ℕ) : Option PageRangeAllocator :=
  let s := (s.onFree (getSize blocks)).write p (getSize blocks)
  if s.deferredFree.isSome then none else some { s with deferredFree := some p }

/-- `_bitmap.reset()`. -/
def bitmapReset (s : PageRangeAllocator) : PageRangeAllocator := { s with bitmap := fun _ => false }

def calcNumBlocks (bits : ℕ) : ℕ := (bits + 63) / 64

/-- `_bitmap.resize(bits)` to a larger size.  When the blocks outgrow the vector's
capacity it allocates twice the capacity or the blocks needed, whichever is more, copies
and deallocates the old buffer.  `none` is a null buffer being written. -/
def bitmapResize (s : PageRangeAllocator) (bits : ℕ) : Option PageRangeAllocator :=
  let required := calcNumBlocks bits
  if required ≤ s.bitmapCapacity then some { s with bitmapSize := bits }
  else
    let capacity := max (2 * s.bitmapCapacity) required
    match s.bitmapAllocate capacity with
    | (none, _) => none
    | (some buf, s) => do
        let s ← if s.bitmapCapacity = 0 then some s
          else s.bitmapDeallocate s.bitmapBuf s.bitmapCapacity
        some { s with bitmapSize := bits, bitmapCapacity := capacity, bitmapBuf := buf }

/-- The first test of `initial_add`; `prev_idx` is an `unsigned`. -/
def growPrev (s : PageRangeAllocator) (pr : ℕ) : ℕ × PageRangeAllocator :=
  let prevIdx := (getBitmapIdx pr + (2 ^ 32 - 1)) % 2 ^ 32
  if decide (s.bitmapSize > prevIdx) && s.bitmap prevIdx then s.mergePrev pr else (pr, s)

/-- `set_bits(pr, true)` for each free range. -/
def markAll (s : PageRangeAllocator) : PageRangeAllocator :=
  (s.forEachList 0).foldl (fun s pr => s.setBits pr true false) s

def freeDeferred (s : PageRangeAllocator) : PageRangeAllocator :=
  match s.deferredFree with
  | some deferred => { s.free deferred with deferredFree := none }
  | none => s

/-- `none` is a run that does not return. -/
def initialAdd (s : PageRangeAllocator) (pr : ℕ) : Option PageRangeAllocator :=
  let idx := getBitmapIdx pr + s.mem pr / pageSize
  if idx > s.bitmapSize then
    let grown := (s.growPrev pr).2.insert false (s.growPrev pr).1
    (grown.bitmapReset.bitmapResize idx).map fun s => s.markAll.freeDeferred
  else some (s.free pr)

end PageRangeAllocator

end MiniOsv.Mempool
