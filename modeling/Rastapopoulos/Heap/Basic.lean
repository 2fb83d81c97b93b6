import Rastapopoulos.Foundations.Fallible
import Rastapopoulos.Foundations.Word

/-!
# The kernel heap

`kernel/heap.c`, at the level of the block headers. The heap is one stretch of memory that starts
with a `struct heap`; the rest is cut into blocks, each with a header of four words, linked by
`next` pointers from `head` to a null pointer. Memory is a function from addresses to headers: it
holds what `create_block`, the splits and the merges write, and nothing else (the canaries and the
callers' own bytes are not stored).

Words and addresses are naturals, and every addition and subtraction of the source is taken
modulo `2 ^ 32` (`addW`, `subW`). Failed assertions, calls of `panic`, null dereferences and loops
that do not end are faults. A loop over the links gets a number of rounds that a list inside the
heap cannot use up (`walkFuel`).
-/

namespace Rastapopoulos.KernelHeap

/-- `sizeof(struct heap_block_header)`. -/
def headerSize : ℕ := 16

/-- `sizeof(struct heap)`. -/
def heapStructSize : ℕ := 16

/-- `sizeof(uint64_t)`, the room taken by the canary at the end of an allocated block. -/
def canarySize : ℕ := 8

/-- `PAGE_SIZE`. -/
def pageSize : ℕ := 4096

/-- `MAGIC_ALLOCATED`. -/
def magicAllocated : ℕ := 0xABCDEF01

/-- `MAGIC_FREE`. -/
def magicFree : ℕ := 0x12345678

/-- `BLOCK_ALLOCATED`. -/
def blockAllocated : ℕ := 1

/-- Why a heap operation does not return. -/
inductive Fault
  | assertion
  | panic
  | nullDeref
  | diverges
  deriving DecidableEq, Repr

/-- `struct heap_block_header`. A null `next` is `0`. -/
structure BlockHeader where
  magic : ℕ
  flags : ℕ
  /-- Including the header. -/
  size : ℕ
  next : ℕ
  deriving DecidableEq, Repr

/-- `struct heap` at address `addr`, with the block headers of the memory behind it. -/
structure Heap where
  addr : ℕ
  head : ℕ
  /-- Including the `struct heap`. -/
  size : ℕ
  maxSize : ℕ
  lock : Bool
  mem : ℕ → BlockHeader

/-- The heap after the header at `a` has been overwritten. -/
def Heap.set (heap : Heap) (a : ℕ) (b : BlockHeader) : Heap :=
  { heap with mem := Function.update heap.mem a b }

/-- The rounds given to a loop over the block list. -/
def walkFuel (heap : Heap) : ℕ := heap.size / headerSize + 1

/-! ## Single blocks -/

def isValidBlock (b : BlockHeader) : Bool :=
  if b.flags &&& blockAllocated ≠ 0 then b.magic == magicAllocated else b.magic == magicFree

def heapIsFree (heap : Heap) (block : ℕ) : Except Fault Bool := do
  check (isValidBlock (heap.mem block)) .panic
  return (heap.mem block).flags &&& blockAllocated == 0

def heapIsAllocated (heap : Heap) (block : ℕ) : Except Fault Bool := do
  check (isValidBlock (heap.mem block)) .assertion
  return (heap.mem block).flags &&& blockAllocated != 0

def setAllocated (heap : Heap) (block : ℕ) : Except Fault Heap := do
  check (isValidBlock (heap.mem block)) .assertion
  return heap.set block
    { heap.mem block with
      flags := (heap.mem block).flags ||| blockAllocated, magic := magicAllocated }

def setFree (heap : Heap) (block : ℕ) : Except Fault Heap := do
  check (isValidBlock (heap.mem block)) .assertion
  return heap.set block
    { heap.mem block with
      flags := (heap.mem block).flags &&& (wordMod - 1 - blockAllocated), magic := magicFree }

def createBlock (heap : Heap) (addr size : ℕ) : Heap :=
  heap.set addr { magic := magicFree, flags := 0, size := size, next := 0 }

def mergeBlocks (heap : Heap) (dest source : ℕ) : Except Fault Heap := do
  check (dest < source) .assertion
  check ((heap.mem dest).magic = (heap.mem source).magic) .assertion
  return heap.set dest
    { heap.mem dest with
      size := addW (heap.mem dest).size (heap.mem source).size, next := (heap.mem source).next }

/-! ## Walks along the links -/

/-- The loop of `last_block`, from the block `h`. -/
def lastBlockFrom (mem : ℕ → BlockHeader) : ℕ → ℕ → Except Fault ℕ
  | 0, _ => .error .diverges
  | n + 1, h =>
    if h ≠ 0 ∧ (mem h).next ≠ 0 then do
      check (isValidBlock (mem h)) .assertion
      lastBlockFrom mem n (mem h).next
    else .ok h

def lastBlock (heap : Heap) : Except Fault ℕ :=
  lastBlockFrom heap.mem (walkFuel heap) heap.head

/-- The loop of `prev_block`, from the block `prevh`. -/
def prevBlockFrom (mem : ℕ → BlockHeader) (block : ℕ) : ℕ → ℕ → Except Fault ℕ
  | 0, _ => .error .diverges
  | n + 1, prevh =>
    if prevh ≠ 0 ∧ (mem prevh).next ≠ block then do
      check (isValidBlock (mem prevh)) .assertion
      prevBlockFrom mem block n (mem prevh).next
    else .ok prevh

def prevBlock (heap : Heap) (block : ℕ) : Except Fault ℕ := do
  check (isValidBlock (heap.mem block)) .assertion
  if block = heap.head then return 0
  else prevBlockFrom heap.mem block (walkFuel heap) heap.head

/-- The addresses a walk from `h` visits, as `heap_check` and `heap_dump` visit them. -/
def walk (mem : ℕ → BlockHeader) : ℕ → ℕ → List ℕ
  | 0, _ => []
  | n + 1, h => if h = 0 then [] else h :: walk mem n (mem h).next

/-- The addresses of the blocks of the heap, in the order of the list. -/
def blockAddrs (heap : Heap) : List ℕ := walk heap.mem (walkFuel heap) heap.head

/-! ## Creation, locking and growth -/

def heapInit (mem : ℕ → BlockHeader) (address size maxSize : ℕ) : Except Fault Heap := do
  check (address % pageSize = 0) .assertion
  check (size % pageSize = 0) .assertion
  let head := addW address heapStructSize
  let heap : Heap :=
    { addr := address, head := head, size := size, maxSize := maxSize, lock := false, mem := mem }
  return createBlock heap head (subW size heapStructSize)

def heapLock (heap : Heap) : Except Fault Heap := do
  check (heap.lock = false) .panic
  return { heap with lock := true }

def heapUnlock (heap : Heap) : Except Fault Heap := do
  check (heap.lock = true) .assertion
  return { heap with lock := false }

/-- The page loop of `heap_grow`. `pages k` says whether the `k`-th page asked for can be had (a
frame from `pmm_alloc`, once paging is on); the result has the bytes added and the number of
pages asked for so far. -/
def growLoop (pages : ℕ → Bool) (limit : ℕ) : ℕ → ℕ → Heap → ℕ → ℕ → Heap × ℕ × ℕ
  | 0, _, heap, k, allocated => (heap, allocated, k)
  | n + 1, page, heap, k, allocated =>
    if page < limit then
      if heap.maxSize ≤ heap.size then (heap, allocated, k)
      else if pages k then
        growLoop pages limit n (addW page pageSize)
          { heap with size := addW heap.size pageSize } (k + 1) (addW allocated pageSize)
      else (heap, allocated, k + 1)
    else (heap, allocated, k)

/-- `heap_grow`: the heap with at most `size` more bytes (rounded up to pages) at its end, and
whether any were added. -/
def heapGrow (pages : ℕ → Bool) (heap : Heap) (size k : ℕ) :
    Except Fault (Heap × Bool × ℕ) := do
  let size := alignUp size pageSize
  let last ← lastBlock heap
  check (last ≠ 0) .assertion
  let endOfHeap := addW last (heap.mem last).size
  check (endOfHeap % pageSize = 0) .assertion
  let (heap, allocated, k) :=
    growLoop pages (addW endOfHeap size) (size / pageSize) endOfHeap heap k 0
  if allocated ≠ 0 then
    let heap := createBlock heap endOfHeap allocated
    let heap := heap.set last { heap.mem last with next := endOfHeap }
    if ← heapIsFree heap last then
      return (← mergeBlocks heap last endOfHeap, true, k)
    else return (heap, true, k)
  else return (heap, false, k)

/-! ## Allocation -/

/-- `while(data1 - header0 < sizeof(struct heap_block_header) * 2) data1 += alignment`. -/
def bumpData (header0 alignment : ℕ) : ℕ → ℕ → ℕ
  | 0, data1 => data1
  | n + 1, data1 =>
    if subW data1 header0 < 2 * headerSize then
      bumpData header0 alignment n (addW data1 alignment)
    else data1

/-- The first aligned address behind the header at `header0`. -/
def alignedData (header0 alignment : ℕ) : ℕ := alignUp (addW header0 headerSize) alignment

/-- The aligned address far enough behind `header0` for a second header in between. -/
def movedData (header0 alignment : ℕ) : ℕ :=
  bumpData header0 alignment (2 * headerSize) (alignedData header0 alignment)

/-- The tests of the search loop of `heap_alloc_block_aligned` on the block `h`: whether the loop
body returns a block carved from `h`. Here and below `size` counts the canary. -/
def accepts (heap : Heap) (h size alignment : ℕ) : Except Fault Bool := do
  if (← heapIsFree heap h) ∧ size ≤ subW (heap.mem h).size headerSize then
    if alignedData h alignment = addW h headerSize then
      return decide (addW headerSize size ≤ (heap.mem h).size)
    else
      check (2 * headerSize ≤ subW (movedData h alignment) h) .assertion
      return decide (addW (2 * headerSize) size < (heap.mem h).size)
  else return false

/-- The branch taken when the data of `h` is aligned where it stands. -/
def carveAligned (heap : Heap) (h size : ℕ) : Except Fault (Heap × ℕ) := do
  let hdr := heap.mem h
  let remaining := subW (subW hdr.size headerSize) size
  if headerSize < remaining then
    let newBlock := addW (addW h size) headerSize
    let heap := createBlock heap newBlock remaining
    let heap := heap.set newBlock { heap.mem newBlock with next := hdr.next }
    let heap := heap.set h
      { heap.mem h with size := addW headerSize size, next := newBlock }
    let heap ← setAllocated heap h
    check (addW (heap.mem newBlock).size (heap.mem h).size = hdr.size) .assertion
    return (heap, h)
  else return (← setAllocated heap h, h)

/-- The first cut of the branch that moves the data start: `h` shrinks to the gap in front of
`header1`, and the rest becomes a block of its own. -/
def cutFront (heap : Heap) (h header1 : ℕ) : Except Fault Heap := do
  let total := (heap.mem h).size
  let next := (heap.mem h).next
  let heap := heap.set h { heap.mem h with size := subW header1 h }
  let heap ← setFree heap h
  check (isValidBlock (heap.mem h)) .assertion
  let heap := createBlock heap header1 (subW total (heap.mem h).size)
  let heap := heap.set header1 { heap.mem header1 with next := next }
  let heap := heap.set h { heap.mem h with next := header1 }
  check (isValidBlock (heap.mem header1)) .assertion
  check (addW (heap.mem h).size (heap.mem header1).size = total) .assertion
  return heap

/-- The second cut of that branch: what `header1` does not need becomes a free block. `total` is
the size that `h` had before the first cut. -/
def cutBack (heap : Heap) (h header1 size total : ℕ) : Except Fault Heap := do
  if addW size (2 * headerSize) < (heap.mem header1).size then
    let header3 := addW (addW header1 size) headerSize
    let size3 := subW (subW (heap.mem header1).size size) headerSize
    let heap := createBlock heap header3 size3
    let heap ← setFree heap header3
    let heap := heap.set header3 { heap.mem header3 with next := (heap.mem header1).next }
    let heap := heap.set header1
      { heap.mem header1 with next := header3, size := addW size headerSize }
    check (isValidBlock (heap.mem header3)) .assertion
    check (addW (addW (heap.mem h).size (heap.mem header1).size) (heap.mem header3).size
      = total) .assertion
    return heap
  else return heap

/-- The branch taken when the data start has to be moved. -/
def carveMoved (heap : Heap) (h size alignment : ℕ) : Except Fault (Heap × ℕ) := do
  let total := (heap.mem h).size
  let header1 := subW (movedData h alignment) headerSize
  let heap ← cutFront heap h header1
  let heap ← cutBack heap h header1 size total
  let heap ← setAllocated heap header1
  check (isValidBlock (heap.mem header1)) .assertion
  return (heap, header1)

/-- What the loop body does to a block it accepts. -/
def carve (heap : Heap) (h size alignment : ℕ) : Except Fault (Heap × ℕ) :=
  if alignedData h alignment = addW h headerSize then carveAligned heap h size
  else carveMoved heap h size alignment

/-- The search loop: the first block from `h` on that is accepted. -/
def findFit (heap : Heap) (size alignment : ℕ) : ℕ → ℕ → Except Fault (Option ℕ)
  | 0, _ => .error .diverges
  | n + 1, h =>
    if h = 0 then .ok none
    else do
      if ← accepts heap h size alignment then return some h
      else findFit heap size alignment n (heap.mem h).next

/-- The outer loop: search, and grow the heap as long as the search fails and the heap grows. The
heap it ends with is the one the search succeeded in. -/
def locate (pages : ℕ → Bool) (size alignment : ℕ) :
    ℕ → Heap → ℕ → Except Fault (Heap × Option ℕ)
  | 0, _, _ => .error .diverges
  | n + 1, heap, k => do
    match ← findFit heap size alignment (walkFuel heap) heap.head with
    | some h => return (heap, some h)
    | none =>
      let (heap, grown, k) ← heapGrow pages heap size k
      if grown then locate pages size alignment n heap k else return (heap, none)

/-- The rounds given to the outer loop: each but the last adds a page below `max_size`. -/
def locateFuel (heap : Heap) : ℕ := heap.maxSize / pageSize + 2

/-- `heap_alloc_block_aligned`. `pages` is the pattern of successes and failures of the page
requests made while the heap grows. -/
def heapAllocBlockAligned (pages : ℕ → Bool) (heap : Heap) (size alignment : ℕ) :
    Except Fault (Heap × Option ℕ) := do
  let heap ← heapLock heap
  let size := addW size canarySize
  let (heap, found) ← locate pages size alignment (locateFuel heap) heap 0
  match found with
  | some h =>
    let (heap, block) ← carve heap h size alignment
    return (← heapUnlock heap, some block)
  | none => return (← heapUnlock heap, none)

/-- `heap_alloc_aligned`: the data pointer. The assertion reads the header of the result, also
when there is none. -/
def heapAllocAligned (pages : ℕ → Bool) (heap : Heap) (size alignment : ℕ) :
    Except Fault (Heap × ℕ) := do
  match ← heapAllocBlockAligned pages heap size alignment with
  | (heap, some hdr) =>
    check ((heap.mem hdr).magic = magicAllocated) .assertion
    return (heap, addW hdr headerSize)
  | (_, none) => .error .nullDeref

/-! ## Freeing -/

/-- "If previous block free, coalesce with previous block": the heap, and the block that the
freed one is part of now. -/
def mergePrev (heap : Heap) (block : ℕ) : Except Fault (Heap × ℕ) := do
  let prevh ← prevBlock heap block
  if prevh ≠ 0 then
    if ← heapIsFree heap prevh then return (← mergeBlocks heap prevh block, prevh)
    else return (heap, block)
  else return (heap, block)

/-- The same with the next block. -/
def mergeNext (heap : Heap) (block : ℕ) : Except Fault Heap := do
  let next := (heap.mem block).next
  if next ≠ 0 then
    if ← heapIsFree heap next then mergeBlocks heap block next else return heap
  else return heap

def heapFreeBlock (heap : Heap) (block : ℕ) : Except Fault Heap := do
  if block = 0 then return heap
  check ((heap.mem block).magic ≠ magicFree) .panic
  check ((heap.mem block).magic = magicAllocated) .panic
  let heap ← heapLock heap
  check (isValidBlock (heap.mem block)) .assertion
  check ((← heapIsAllocated heap block) = true) .assertion
  let heap ← setFree heap block
  let (heap, block) ← mergePrev heap block
  let heap ← mergeNext heap block
  heapUnlock heap

def heapFree (heap : Heap) (ptr : ℕ) : Except Fault Heap :=
  heapFreeBlock heap (subW ptr headerSize)

/-- `kmalloc_init`: the kernel heap, from the first page boundary at or behind `start`. -/
def kmallocInit (mem : ℕ → BlockHeader) (start : ℕ) : Except Fault Heap :=
  let heapStart := alignUp start pageSize
  heapInit mem heapStart (pageSize * 64) (subW 0xC0400000 heapStart)

end Rastapopoulos.KernelHeap
