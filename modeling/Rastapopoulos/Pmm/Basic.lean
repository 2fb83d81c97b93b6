import Rastapopoulos.Foundations.Bitmap
import Rastapopoulos.Heap.Basic

/-!
# The physical memory manager

`kernel/pmm.c` and `kernel/bitset.c`. Memory is a list of regions, each with a bitset that has a bit
for each page; a set bit is a page in use. Addresses are naturals and arithmetic is modulo `2 ^ 32`,
as in `Rastapopoulos.KernelHeap`. The nodes of the list and the bitsets come from `kmalloc`, which
stops the kernel when there is no memory left.
-/

namespace Rastapopoulos.Pmm

open KernelHeap (pageSize)

/-- Why an operation does not return. -/
inductive Fault
  | assertion
  | abort
  deriving DecidableEq, Repr

/-! ## Bitsets -/

/-- `BIT_PER_ELEMENT`. -/
def bitPerElement : ℕ := 32

/-- `struct bitset`. Its `element_count` is the length of `data`. -/
structure Bitset where
  size : ℕ
  data : List (BitVec 32)
  deriving DecidableEq, Repr

/-- `element_count`, for a number of bits. -/
def elementCount (size : ℕ) : ℕ := alignUp size bitPerElement / bitPerElement

def bitsetInit (size : ℕ) : Bitset := ⟨size, List.replicate (elementCount size) 0⟩

def bitsetAllocSize (size : ℕ) : Except Fault ℕ := do
  check (size ≤ elementCount size * bitPerElement) .assertion
  return addW 8 (4 * elementCount size)

def bitsetTest (bitset : Bitset) (offset : ℕ) : Except Fault Bool := do
  check (offset < bitset.size) .assertion
  return Bitmap.test bitset.data offset

def bitsetSet (bitset : Bitset) (offset : ℕ) : Except Fault Bitset := do
  check (offset < bitset.size) .assertion
  return { bitset with data := Bitmap.set bitset.data offset }

def bitsetClear (bitset : Bitset) (offset : ℕ) : Except Fault Bitset := do
  check (offset < bitset.size) .assertion
  return { bitset with data := Bitmap.clear bitset.data offset }

/-- The second loop of `bitset_find`: the first of the bits from `i` on that is `value`. -/
def findBit (bitset : Bitset) (value : Bool) : ℕ → ℕ → Except Fault ℕ
  -- "This should not happen"
  | 0, _ => .error .assertion
  | n + 1, i => do
    if (← bitsetTest bitset i) = value then return i
    else findBit bitset value n (i + 1)

/-- `bitset_find`; `none` is `BITSET_INVALID_INDEX`. -/
def bitsetFind (bitset : Bitset) (value : Bool) : Except Fault (Option ℕ) :=
  match bitset.data.findIdx? fun x => x != if value then 0 else BitVec.allOnes 32 with
  | none => .ok none
  | some element => do
    let i ← findBit bitset value bitPerElement (element * bitPerElement)
    return some i

/-! ## Regions -/

/-- `struct memregion`. -/
structure Region where
  addr : ℕ
  len : ℕ
  bitmap : Bitset
  deriving DecidableEq, Repr

/-- `add_region`. New regions go to the front. -/
def addRegion (addr len : ℕ) (regions : List Region) : Except Fault (List Region) := do
  let alignedStart := alignUp addr pageSize
  let len := subW len (subW alignedStart addr)
  let alignedLen := len / pageSize * pageSize
  check (alignedStart % pageSize = 0) .assertion
  check (alignedLen % pageSize = 0) .assertion
  let bitsetSize := alignedLen / pageSize
  let _ ← bitsetAllocSize bitsetSize
  return ⟨alignedStart, alignedLen, bitsetInit bitsetSize⟩ :: regions

/-- `struct multiboot_mmap_entry`. -/
structure MmapEntry where
  addr : BitVec 64
  len : BitVec 64
  type : BitVec 32
  deriving DecidableEq, Repr

/-- `MULTIBOOT_MEMORY_AVAILABLE`. -/
def multibootMemoryAvailable : BitVec 32 := 1

def lodword (i : BitVec 64) : ℕ := (i &&& 0xFFFFFFFF).toNat

def hidword (i : BitVec 64) : ℕ := ((i &&& 0xFFFFFFFF00000000) >>> 32).toNat

/-- The loop of `pmm_init`, on one entry. -/
def initEntry (regions : List Region) (entry : MmapEntry) : Except Fault (List Region) :=
  if hidword entry.addr = 0 ∧ entry.type = multibootMemoryAvailable then
    addRegion (lodword entry.addr) (lodword entry.len) regions
  else return regions

def pmmInit (entries : List MmapEntry) : Except Fault (List Region) :=
  entries.foldlM initEntry []

/-! ## Pages -/

/-- `page >= region->addr && page < region->addr + region->len`. -/
def Region.contains (region : Region) (page : ℕ) : Bool :=
  decide (region.addr ≤ page ∧ page < addW region.addr region.len)

/-- The bit of a page. -/
def Region.index (region : Region) (page : ℕ) : ℕ := subW page region.addr / pageSize

def pmmExists (regions : List Region) (page : ℕ) : Except Fault Bool := do
  check (page % pageSize = 0) .assertion
  return regions.any fun region => region.contains page

/-- The loop of `pmm_reserve` and of `pmm_free`: an operation on the first region with the page. -/
def onRegion (page : ℕ) (f : Region → Except Fault Region) :
    List Region → Except Fault (List Region)
  | [] => .error .abort
  | region :: regions =>
    if region.contains page then do
      let region ← f region
      return region :: regions
    else do
      let regions ← onRegion page f regions
      return region :: regions

def pmmReserve (regions : List Region) (page : ℕ) : Except Fault (List Region) := do
  check (page % pageSize = 0) .assertion
  onRegion page (fun region => do
    -- "already reserved"
    check ((← bitsetTest region.bitmap (region.index page)) = false) .abort
    let bitmap ← bitsetSet region.bitmap (region.index page)
    return { region with bitmap := bitmap }) regions

def pmmFree (regions : List Region) (page : ℕ) : Except Fault (List Region) := do
  check (page % pageSize = 0) .assertion
  onRegion page (fun region => do
    -- "already free"
    check ((← bitsetTest region.bitmap (region.index page)) = true) .abort
    let bitmap ← bitsetClear region.bitmap (region.index page)
    return { region with bitmap := bitmap }) regions

def pmmReserved (regions : List Region) (page : ℕ) : Except Fault Bool := do
  check (page % pageSize = 0) .assertion
  match regions.find? fun region => region.contains page with
  | some region => bitsetTest region.bitmap (region.index page)
  | none => return true

/-- `pmm_alloc`; `none` is `INVALID_FRAME`. -/
def pmmAlloc : List Region → Except Fault (List Region × Option ℕ)
  | [] => .ok ([], none)
  | region :: regions => do
    match ← bitsetFind region.bitmap false with
    | some index =>
      let bitmap ← bitsetSet region.bitmap index
      return ({ region with bitmap := bitmap } :: regions, some (addW region.addr (index * pageSize)))
    | none =>
      let (regions, frame) ← pmmAlloc regions
      return (region :: regions, frame)

end Rastapopoulos.Pmm
