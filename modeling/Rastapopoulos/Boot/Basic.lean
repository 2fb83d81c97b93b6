import Rastapopoulos.Pmm.Basic

/-!
# From the boot loader to paging

The part of `kmain` that sets up memory. The kernel heap is there before the frames are managed, and
it may grow at any time. `heap_grow` says which frame it uses in three ways: not at all before
`pmm_init` is through, by `pmm_reserve` before paging is enabled, and by `pmm_alloc` from then on.
In between, `kmain` reserves the frames that were in use before, among them those of the heap as it
finds it.

Here the heap is the range of addresses from `heapStart` on. A step `grow` is one turn of the loop
of `heap_grow`. Its page is the end of the last block, which is the end of the heap
(`KernelHeap.Listed.last_end`). Before paging is enabled, and for the pages mapped by `vmm_init`
also after, the frame of an address is the address less `KERNEL_BASE_ADDR`.
-/

namespace Rastapopoulos.Boot

open KernelHeap (pageSize)

open Pmm (Region pmmExists pmmReserve pmmReserved pmmAlloc pmmFree)

/-- `KERNEL_BASE_ADDR` -/
def kernelBaseAddr : ℕ := 0xC0000000

inductive Fault
  | panic
  /-- The abort of `pmm_reserve` with the text "already reserved". -/
  | alreadyReserved
  | heap (fault : KernelHeap.Fault)
  | pmm (fault : Pmm.Fault)
  /-- The kernel takes no such step in this state. -/
  | disabled
  deriving DecidableEq

/-- Where the kernel image is, and the highest address of the multiboot data. The image is at or
above 1 MiB, and the data at or above its end. -/
structure Placement where
  kernelStart : ℕ
  kernelEnd : ℕ
  multibootEnd : ℕ
  mib_le : kernelBaseAddr + 0x100000 ≤ kernelStart
  start_le : kernelStart ≤ kernelEnd
  end_le : kernelEnd ≤ multibootEnd

/-- The address less `KERNEL_BASE_ADDR`. -/
def physical (address : ℕ) : ℕ := subW address kernelBaseAddr

/-! ## The reservations of `kmain` -/

/-- The pages of a loop from `first` in steps of `PAGE_SIZE`, as long as they are below `limit`. -/
def loopPages (first limit : ℕ) : List ℕ :=
  (List.range ((limit - first + (pageSize - 1)) / pageSize)).map fun i => first + i * pageSize

/-- The first two loops, over conventional memory. -/
def lowPages : List ℕ := loopPages 0x00000000 0x00001000 ++ loopPages 0x0009F000 0x000FFFFF

/-- The pages of kernel code and data. -/
def Placement.imagePages (p : Placement) : List ℕ :=
  loopPages (physical p.kernelStart / pageSize * pageSize) (physical p.kernelEnd)

/-- What `kmain` does with a page, if it exists. -/
inductive Reservation
  | always (page : ℕ)
  | unlessReserved (page : ℕ)
  deriving DecidableEq

/-- The four loops, with the heap as `kernel_heap_info` has found it. -/
def reservations (p : Placement) (heapStart heapSize : ℕ) : List Reservation :=
  (lowPages ++ p.imagePages).map .always ++
    (loopPages (physical (heapStart / pageSize * pageSize))
      (physical (addW heapStart heapSize))).map .unlessReserved

/-- `pmm_reserve`, with the reason why it aborts. -/
def reserve (regions : List Region) (page : ℕ) : Except Fault (List Region) :=
  match pmmReserve regions page with
  | .ok regions => .ok regions
  | .error fault =>
    if pmmExists regions page = .ok true ∧ pmmReserved regions page = .ok true then
      .error .alreadyReserved
    else .error (.pmm fault)

/-- The body of the loops. -/
def Reservation.apply (regions : List Region) : Reservation → Except Fault (List Region)
  | .always page => do
    if ← (pmmExists regions page).mapError .pmm then reserve regions page
    else return regions
  | .unlessReserved page => do
    if ← (pmmExists regions page).mapError .pmm then
      if ← (pmmReserved regions page).mapError .pmm then return regions
      else reserve regions page
    else return regions

/-! ## The machine -/

inductive Stage
  /-- `pmm_init` has not completed. -/
  | early
  /-- `pmm_init` has completed. -/
  | memory
  /-- `kernel_heap_info` has been called; what is left of the loops. -/
  | reserving (todo : List Reservation)
  /-- `vmm_init` has enabled paging. -/
  | paging
  deriving DecidableEq

structure Kernel where
  stage : Stage
  /-- `memregions` -/
  regions : List Region
  heapStart : ℕ
  heapSize : ℕ
  maxSize : ℕ
  /-- The pages of the heap, with the frames that back them. -/
  backing : List (ℕ × ℕ)
  /-- Frames that `pmm_alloc` has returned for other uses, and that have not been freed. -/
  others : List ℕ
  deriving DecidableEq

/-- The frames that back the heap. -/
def Kernel.frames (s : Kernel) : List ℕ := s.backing.map Prod.snd

/-- The kernel behind `kmalloc_init`. -/
def boot (mem : ℕ → KernelHeap.BlockHeader) (p : Placement) : Except Fault Kernel := do
  check (p.multibootEnd < 0xC0400000) .panic
  let heap ← (KernelHeap.kmallocInit mem p.multibootEnd).mapError .heap
  return {
    stage := .early
    regions := []
    heapStart := heap.addr
    heapSize := heap.size
    maxSize := heap.maxSize
    backing := (loopPages heap.addr (addW heap.addr heap.size)).map fun page => (page, physical page)
    others := [] }

/-- A page is added to the heap. -/
def Kernel.addPage (s : Kernel) (regions : List Region) (frame : ℕ) : Kernel :=
  { s with
    regions := regions
    heapSize := addW s.heapSize pageSize
    backing := (addW s.heapStart s.heapSize, frame) :: s.backing }

/-- One turn of the loop of `heap_grow`. -/
def Kernel.grow (s : Kernel) : Except Fault Kernel :=
  let page := addW s.heapStart s.heapSize
  if s.maxSize ≤ s.heapSize then return s
  else match s.stage with
    | .paging => do
      match ← (pmmAlloc s.regions).mapError .pmm with
      | (regions, some frame) => return s.addPage regions frame
      | (regions, none) => return { s with regions := regions }
    | .early => return s.addPage s.regions (physical page)
    | .memory | .reserving _ => do
      let regions ← reserve s.regions (physical page)
      return s.addPage regions (physical page)

inductive Action
  | grow
  | pmmInit
  | heapInfo
  | reserve
  | vmmInit
  /-- `pmm_alloc`, called by anyone but the heap. -/
  | alloc
  /-- `pmm_free` of such a frame. -/
  | free (frame : ℕ)
  deriving DecidableEq

def step (p : Placement) (entries : List Pmm.MmapEntry) (s : Kernel) : Action → Except Fault Kernel
  | .grow => s.grow
  | .pmmInit => do
    check (s.stage = .early) .disabled
    let regions ← (Pmm.pmmInit entries).mapError .pmm
    return { s with stage := .memory, regions := regions }
  | .heapInfo => do
    check (s.stage = .memory) .disabled
    return { s with stage := .reserving (reservations p s.heapStart s.heapSize) }
  | .reserve =>
    match s.stage with
    | .reserving (reservation :: todo) => do
      let regions ← reservation.apply s.regions
      return { s with stage := .reserving todo, regions := regions }
    | _ => .error .disabled
  | .vmmInit => do
    check (s.stage = .reserving []) .disabled
    return { s with stage := .paging }
  | .alloc => do
    check (s.stage = .paging) .disabled
    let (regions, frame) ← (pmmAlloc s.regions).mapError .pmm
    return { s with regions := regions, others := frame.toList ++ s.others }
  | .free frame => do
    check (s.stage = .paging ∧ frame ∈ s.others) .disabled
    let regions ← (pmmFree s.regions frame).mapError .pmm
    return { s with regions := regions, others := s.others.erase frame }

end Rastapopoulos.Boot
