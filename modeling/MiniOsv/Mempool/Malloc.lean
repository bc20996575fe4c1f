/-
# Mempool.Malloc -- std_malloc, object_size, free and posix_memalign

`std_malloc` takes its memory from one of five places: a pool of small objects, the early
object page, a whole page, a page range or an anonymous mapping.  What those allocators
return in one call is given as `Lower`.  The
pointer carries the place in its address bits 44 and 45, and the words that the allocators
leave in front of the object (`Heap.word`, `Heap.half`) carry the rest.

Linear memory is addressed through its main area; a `Block` says what was taken.
-/
import MiniOsv.Mempool.Accounting

namespace MiniOsv.Mempool

/-! ## Memory areas -/

inductive MemArea
  | main | page | mempool | debug
  deriving DecidableEq, Repr

def MemArea.index : MemArea → ℕ
  | .main => 0
  | .page => 1
  | .mempool => 2
  | .debug => 3

/-- `get_mem_area_base`. -/
def MemArea.base (area : MemArea) : ℕ := 0x400000000000 + area.index * memAreaSize

def getMemArea (addr : ℕ) : MemArea :=
  match addr / memAreaSize % 4 with
  | 0 => .main
  | 1 => .page
  | 2 => .mempool
  | _ => .debug

def translateMemArea (source target : MemArea) (addr : ℕ) : ℕ :=
  wrap64 (sub64 addr source.base + target.base)

/-! ## Sizes -/

def sizeofFreeObject : ℕ := 8
def sizeofEarlyHeader : ℕ := 16

/-- `sizeof(void*)`. -/
def sizeofPointer : ℕ := 8
def sizeofShort : ℕ := 2

def maxObjectSize : ℕ := pageSize / 4
def minObjectSize : ℕ := sizeofFreeObject

def computeObjectSize (pos : ℕ) : ℕ := min (2 ^ pos) maxObjectSize

def isPowerOfTwo (n : ℕ) : Bool := n &&& sub64 n 1 == 0

/-! ## State -/

structure Heap where
  smpAllocator : Bool
  /-- `early_object_page`; 0 is `nullptr`. -/
  earlyObjectPage : ℕ
  earlyAllocNextOffset : ℕ
  earlyAllocPreviousOffset : ℕ
  /-- 64-bit words: owners of pages (0 for early pages, `n + 1` for `malloc_pools[n]`) and sizes
  of ranges. -/
  word : ℕ → ℕ
  /-- 16-bit words of the early allocator: sizes of objects and counts of allocations. -/
  half : ℕ → ℕ
  elfStart : ℕ
  elfSize : ℕ

/-- What the allocators below return in one call. -/
structure Lower where
  /-- `malloc_pools[n].alloc()`. -/
  poolObject : ℕ → ℕ
  /-- `alloc_page()`; `nullptr` when there is none. -/
  page : ℕ
  /-- `free_page_ranges.alloc` or `alloc_aligned`. -/
  range : Option ℕ
  /-- `map_anon`, which throws when there is no hole. -/
  mapping : Option ℕ

/-- What was taken from which allocator. -/
inductive Block
  | pool (n object : ℕ)
  | early (object size : ℕ)
  | page (addr : ℕ)
  | range (header size : ℕ)
  | mapped (addr size : ℕ)
  deriving DecidableEq, Repr

inductive Outcome (α : Type)
  | ok (a : α)
  | enomem
  /-- An exception leaves the function. -/
  | threw
  /-- An assertion fails or a null pointer is written through. -/
  | crashed

/-! ## The early allocator -/

def Heap.setWord (h : Heap) (addr v : ℕ) : Heap := { h with word := Function.update h.word addr v }

def Heap.setHalf (h : Heap) (addr v : ℕ) : Heap := { h with half := Function.update h.half addr v }

def allocationsCount : ℕ := 8

def Heap.setupEarlyAllocPage (h : Heap) (page : ℕ) : Option Heap :=
  if page = 0 then none
  else
    some { (h.setWord page 0).setHalf (page + allocationsCount) 0 with
      earlyObjectPage := page
      earlyAllocNextOffset := sizeofEarlyHeader }

def willFitInEarlyAllocPage (size alignment : ℕ) : Bool :=
  wrap64 (alignUp (sizeofEarlyHeader + sizeofShort) alignment + size) ≤ pageSize

def Heap.earlyOffset (h : Heap) (alignment : ℕ) : ℕ :=
  alignUp (h.earlyAllocNextOffset + sizeofShort) alignment

/-- The end of `early_alloc_object`. -/
def Heap.placeEarlyObject (h : Heap) (size offset : ℕ) : Option (Heap × ℕ) :=
  if wrap64 (offset + size) ≤ pageSize then
    let ret := h.earlyObjectPage + offset
    let h := { h with
      earlyAllocPreviousOffset := h.earlyAllocNextOffset
      earlyAllocNextOffset := offset + size }
    let h := h.setHalf (ret - sizeofShort) (size % 2 ^ 16)
    some (h.setHalf (h.earlyObjectPage + allocationsCount)
      (h.half (h.earlyObjectPage + allocationsCount) + 1), ret)
  else none

/-- The two tests of `early_alloc_object` that may set up a page. -/
def Heap.earlyPageReady (h : Heap) (page : ℕ) : Option Heap :=
  if h.earlyObjectPage = 0 then h.setupEarlyAllocPage page else some h

def Heap.earlyRoom (h : Heap) (page size alignment : ℕ) : Option Heap :=
  if wrap64 (h.earlyOffset alignment + size) > pageSize then h.setupEarlyAllocPage page else some h

def Heap.earlyAllocObject (h : Heap) (page size alignment : ℕ) : Option (Heap × ℕ) :=
  (h.earlyPageReady page).bind fun h => (h.earlyRoom page size alignment).bind fun h =>
    h.placeEarlyObject size (h.earlyOffset alignment)

/-! ## Allocation -/

def Heap.mappedMallocLarge (h : Heap) (lower : Lower) (size offset : ℕ) :
    Outcome (ℕ × Block × Heap) :=
  match lower.mapping with
  | none => .threw
  | some obj => .ok (obj + offset, .mapped obj size, h.setWord obj size)

/-- `malloc_large(size, alignment, true, false)`. -/
def Heap.mallocLarge (h : Heap) (lower : Lower) (size alignment : ℕ) :
    Outcome (ℕ × Block × Heap) :=
  let offset := largeOffset alignment
  let size := mallocLargeSize size alignment
  if size ≥ hugePageSize then h.mappedMallocLarge lower size offset
  else
    match lower.range with
    | some header => .ok (header + offset, .range header size, h.setWord header size)
    | none => h.mappedMallocLarge lower size offset

def stdMalloc (h : Heap) (lower : Lower) (size alignment : ℕ) : Outcome (ℕ × Block × Heap) :=
  if 2 ^ 63 ≤ size then .enomem
  else
    let minimumSize := max size minObjectSize
    if h.smpAllocator ∧ size ≤ maxObjectSize ∧ alignment ≤ minimumSize then
      let n := ilog2Roundup minimumSize
      .ok (translateMemArea .main .mempool (lower.poolObject n), .pool n (lower.poolObject n), h)
    else if h.smpAllocator ∧ alignment ≤ maxObjectSize ∧ minimumSize ≤ alignment then
      let n := ilog2Roundup alignment
      .ok (translateMemArea .main .mempool (lower.poolObject n), .pool n (lower.poolObject n), h)
    else if ¬h.smpAllocator ∧ willFitInEarlyAllocPage size alignment then
      match h.earlyAllocObject lower.page size alignment with
      | none => .crashed
      | some (h, ret) => .ok (translateMemArea .main .mempool ret, .early ret size, h)
    else if minimumSize ≤ pageSize ∧ alignment ≤ pageSize then
      .ok (translateMemArea .main .page lower.page, .page lower.page, h)
    else h.mallocLarge lower size alignment

/-- The results of `posix_memalign`. -/
inductive Memalign
  | einval
  | enomem
  | stored (ptr : ℕ) (block : Block) (heap : Heap)
  | threw
  | crashed

def posixMemalign (h : Heap) (lower : Lower) (alignment size : ℕ) : Memalign :=
  if isPowerOfTwo alignment then
    match stdMalloc h lower size alignment with
    | .enomem => .enomem
    | .threw => .threw
    | .crashed => .crashed
    | .ok (ret, block, h) =>
      -- A translated null pointer is not null.
      if ret = 0 then .enomem
      else if ret &&& sub64 alignment 1 = 0 then .stored ret block h
      else .crashed
  else .einval

/-! ## The way back -/

/-- `mmu::is_linear_mapped(addr, size)` for size 0. -/
def Heap.isLinearMapped (h : Heap) (addr : ℕ) : Bool :=
  (h.elfStart ≤ addr ∧ addr ≤ h.elfStart + h.elfSize) ∨ MemArea.main.base ≤ addr

/-- `large_object_offset`: the header and the offset. -/
def largeObject (obj : ℕ) : ℕ × ℕ :=
  (alignDown (sub64 obj 1) pageSize, sub64 obj (alignDown (sub64 obj 1) pageSize))

/-- `pool::from_object`; `none` is `nullptr`. -/
def Heap.poolFromObject (h : Heap) (obj : ℕ) : Option ℕ :=
  match h.word (alignDown obj pageSize) with
  | 0 => none
  | n + 1 => some n

/-- `object_size`; the debug allocator is not modelled. -/
def Heap.objectSize (h : Heap) (obj : ℕ) : Option ℕ :=
  if ¬h.isLinearMapped obj then some (sub64 (h.word (largeObject obj).1) (largeObject obj).2)
  else
    match getMemArea obj with
    | .main => some (sub64 (h.word (largeObject obj).1) (largeObject obj).2)
    | .mempool =>
      let obj := translateMemArea .mempool .main obj
      match h.poolFromObject obj with
      | some n => some (computeObjectSize n)
      | none => some (h.half (obj - sizeofShort))
    | .page => some pageSize
    | .debug => none

/-- The allocator that `free` calls, and with what. -/
inductive Release
  | poolFree (n object : ℕ)
  | earlyFreeObject (object size : ℕ)
  | freePage (addr : ℕ)
  | freePageRange (header size : ℕ)
  | munmap (addr size : ℕ)
  deriving DecidableEq, Repr

/-- `free` of an object that is not null. -/
def Heap.free (h : Heap) (obj : ℕ) : Option Release :=
  if ¬h.isLinearMapped obj then
    some (.munmap (largeObject obj).1 (h.word (largeObject obj).1))
  else
    match getMemArea obj with
    | .page => some (.freePage (translateMemArea .page .main obj))
    | .main => some (.freePageRange (largeObject obj).1 (h.word (largeObject obj).1))
    | .mempool =>
      let obj := translateMemArea .mempool .main obj
      match h.poolFromObject obj with
      | some n => some (.poolFree n obj)
      | none => some (.earlyFreeObject obj (h.half (obj - sizeofShort)))
    | .debug => none

end MiniOsv.Mempool
