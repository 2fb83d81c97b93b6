import Rastapopoulos.Vmm.Basic

/-!
# Page directories

The part of `kernel/vmm.c` that makes, empties and destroys page directories. It works on frames
that are not mapped through transient maps: the page of a heap block is unmapped, and the frame is
mapped in its place for a while.

The kernel heap is a parameter. What an allocation does is an `Answer`: the pages that the heap grew
by, each of which gets a frame and a mapping as in `heap_grow`, and the address of the block. An
answer that no heap can give (a page that is outside of the kernel's half or there already, a block
that is not mapped or in use) stops the run with a fault of its own.
-/

namespace Rastapopoulos.Vmm

open Paging
open KernelHeap (pageSize)

/-- `KERNEL_START`. -/
def kernelStart : ℕ := 0xC0000000

/-- `_KERNEL_START_`, the lowest address that the kernel maps for itself. -/
def kernelImage : ℕ := 0xC0100000

/-- The pages from `_KERNEL_START_` to `KERNEL_END`. -/
def KernelPage (va : ℕ) : Prop := kernelImage ≤ va ∧ va < 0xFFC00000 ∧ va % pageSize = 0

instance (va : ℕ) : Decidable (KernelPage va) := inferInstanceAs (Decidable (_ ∧ _ ∧ _))

/-- What an allocation of the kernel heap does. -/
structure Answer where
  growth : List ℕ
  address : ℕ

/-- `struct transient_map`. -/
structure TransientMap where
  frame : ℕ
  flags : BitVec 32
  address : ℕ

/-- The machine, the coming answers of the heap, the page-aligned blocks of a page that are in use,
and `transient_maps`. -/
structure Kernel extends Machine where
  answers : List Answer
  held : List ℕ
  transientMaps : List TransientMap

namespace Kernel

/-- The kernel after an operation on the machine. -/
def set (k : Kernel) (m : Machine) : Kernel := { k with toMachine := m }

def hold (k : Kernel) (address : ℕ) : Kernel := { k with held := address :: k.held }

/-- `kfree`, on a block of a page. -/
def release (k : Kernel) (address : ℕ) : Kernel := { k with held := k.held.erase address }

end Kernel

/-- `pmm_free` on the machine. -/
def freeFrame (m : Machine) (frame : ℕ) : Except Fault Machine := do
  let regions ← (Pmm.pmmFree m.regions frame).mapError Fault.ofPmm
  return { m with regions := regions }

/-! ## The kernel heap -/

/-- The loop of `heap_grow`, for one page, while paging is enabled. -/
def heapGrow (m : Machine) (page : ℕ) : Except Fault Machine := do
  let (m, frame) ← allocFrame m
  vmmMap m page frame (vmmPagePresent ||| vmmPageWritable)

/-- Pages that the heap can grow by. -/
def Kernel.NewPages (k : Kernel) (pages : List ℕ) : Prop :=
  pages.Nodup ∧ ∀ page ∈ pages, KernelPage page ∧ page ∉ k.held ∧ translate k.mem k.cr3 page = none

instance (k : Kernel) (pages : List ℕ) : Decidable (k.NewPages pages) :=
  inferInstanceAs (Decidable (_ ∧ _))

/-- `kmalloc`, for a block whose contents do not matter here. -/
def kmalloc (k : Kernel) : Except Fault (Kernel × ℕ) :=
  match k.answers with
  | [] => .error .heap
  | answer :: answers => do
    check (k.NewPages answer.growth) .heap
    let m ← answer.growth.foldlM heapGrow k.toMachine
    return ({ k.set m with answers := answers }, answer.address)

/-- `kmalloc_a(PAGE_SIZE, PAGE_SIZE)`. -/
def kmallocA (k : Kernel) : Except Fault (Kernel × ℕ) := do
  let (k, address) ← kmalloc k
  check (KernelPage address ∧ address ∉ k.held ∧ (translate k.mem k.cr3 address).isSome) .heap
  return (k.hold address, address)

/-! ## Transient maps -/

def vmmTransientMap (k : Kernel) (frame : ℕ) (flags : BitVec 32) : Except Fault (Kernel × ℕ) := do
  let (k, address) ← kmallocA k
  let (k, _) ← kmalloc k
  let oldFrame ← vmmGetPhysical k.toMachine address
  let oldFlags ← vmmGetFlags k.toMachine address
  let m ← vmmUnmap k.toMachine address
  let m ← vmmMap m address frame (vmmPagePresent ||| flags)
  return ({ k.set m with transientMaps := k.transientMaps ++ [⟨oldFrame, oldFlags, address⟩] },
    address)

def vmmTransientUnmap (k : Kernel) (address : ℕ) : Except Fault Kernel :=
  match k.transientMaps.find? fun map => map.address = address with
  -- "Invalid transient map address"
  | none => .error .abort
  | some map => do
    let m ← vmmUnmap k.toMachine address
    let m ← vmmMap m address map.frame map.flags
    return { (k.set m).release address with
      transientMaps := k.transientMaps.eraseP fun map => map.address = address }

/-! ## Cloning -/

/-- `memcpy(dst, src, PAGE_SIZE)`. -/
def copyPage (m : Machine) (dst src : ℕ) : Except Fault Machine :=
  (List.finRange 1024).foldlM (fun m (i : Fin 1024) => do
    let w ← readWord m (src + 4 * i)
    writeWord m (dst + 4 * i) w) m

/-- The loop of `clone_pagetable`, for one entry. -/
def cloneEntry (dst src : ℕ) (k : Kernel) (i : Fin 1024) : Except Fault Kernel := do
  let e ← readWord k.toMachine (src + 4 * i)
  if Present e then
    let (m, newFrame) ← allocFrame k.toMachine
    let (k, srcBuf) ← vmmTransientMap (k.set m) (frameOf e) vmmPagePresent
    let (k, dstBuf) ← vmmTransientMap k newFrame (vmmPagePresent ||| vmmPageWritable)
    let m ← copyPage k.toMachine dstBuf srcBuf
    let k ← vmmTransientUnmap (k.set m) dstBuf
    let k ← vmmTransientUnmap k srcBuf
    let m ← writeWord k.toMachine (dst + 4 * i) (BitVec.ofNat 32 newFrame ||| flagsOf e)
    return k.set m
  else return k

def clonePagetable (k : Kernel) (dst src : ℕ) : Except Fault Kernel := do
  let m ← bzero k.toMachine dst
  (List.finRange 1024).foldlM (cloneEntry dst src) (k.set m)

/-- From `USER_PDE_START` to `USER_PDE_END`. -/
def userPdes : List (Fin 1024) := (List.finRange 1024).filter (· < 768)

/-- From `KERNEL_PDE_START` to `KERNEL_PDE_END`. -/
def kernelPdes : List (Fin 1024) := (List.finRange 1024).filter fun i => 768 ≤ i ∧ i ≤ 1022

/-- The first loop of `vmm_clone_pagedir`, for one entry. -/
def clonePde (result : ℕ) (k : Kernel) (i : Fin 1024) : Except Fault Kernel := do
  let pde ← readWord k.toMachine (pagedirEntry i)
  if Present pde then
    let src := getPagetable ⟨i, 0⟩
    let (m, dstFrame) ← allocFrame k.toMachine
    let (k, dst) ← vmmTransientMap (k.set m) dstFrame (vmmPagePresent ||| vmmPageWritable)
    let k ← clonePagetable k dst src
    let k ← vmmTransientUnmap k dst
    let pde ← readWord k.toMachine (pagedirEntry i)
    let m ← writeWord k.toMachine (result + 4 * i) (BitVec.ofNat 32 dstFrame ||| flagsOf pde)
    return k.set m
  else return k

/-- `pagedir->entries[i] = current_pagedir->entries[i]`. -/
def copyPde (pagedir : ℕ) (m : Machine) (i : Fin 1024) : Except Fault Machine := do
  let pde ← readWord m (pagedirEntry i)
  writeWord m (pagedir + 4 * i) pde

def vmmClonePagedir (k : Kernel) : Except Fault (Kernel × ℕ) := do
  let (k, result) ← kmallocA k
  let m ← bzero k.toMachine result
  let k ← userPdes.foldlM (clonePde result) (k.set m)
  let m ← kernelPdes.foldlM (copyPde result) k.toMachine
  let pa ← vmmGetPhysical m result
  let m ← writeWord m (result + 4 * (1023 : Fin 1024))
    (BitVec.ofNat 32 pa ||| vmmPagePresent ||| vmmPageWritable)
  return (k.set m, result)

/-! ## Emptying and destroying -/

/-- The loop over the entries of a page table at `table`: frames of present entries are freed. -/
def freePages (table : ℕ) (m : Machine) (i : Fin 1024) : Except Fault Machine := do
  let pte ← readWord m (table + 4 * i)
  if Present pte then freeFrame m (frameOf pte) else return m

/-- The loop of `vmm_reset_current_pagedir`, for one entry. -/
def resetPde (m : Machine) (i : Fin 1024) : Except Fault Machine := do
  let pde ← readWord m (pagedirEntry i)
  if Present pde then
    let m ← (List.finRange 1024).foldlM (freePages (getPagetable ⟨i, 0⟩)) m
    let m ← freeFrame m (frameOf pde)
    writeWord m (pagedirEntry i) 0
  else return m

/-- The last entry of the user's half is kept: the kernel stack is there. -/
def vmmResetCurrentPagedir (m : Machine) : Except Fault Machine :=
  (userPdes.filter (· < 767)).foldlM resetPde m

/-- The loop of `vmm_destroy_pagedir`, for one entry. -/
def destroyPde (pagedir : ℕ) (k : Kernel) (i : Fin 1024) : Except Fault Kernel := do
  let pde ← readWord k.toMachine (pagedir + 4 * i)
  if Present pde then
    let (k, table) ← vmmTransientMap k (frameOf pde) (vmmPagePresent ||| vmmPageWritable)
    let m ← (List.finRange 1024).foldlM (freePages table) k.toMachine
    let k ← vmmTransientUnmap (k.set m) table
    let m ← freeFrame k.toMachine (frameOf pde)
    return k.set m
  else return k

def vmmDestroyPagedir (k : Kernel) (pagedir : ℕ) : Except Fault Kernel := do
  let k ← userPdes.foldlM (destroyPde pagedir) k
  return k.release pagedir

/-! ## Switching -/

def vmmCopyKernelMappings (m : Machine) (pagedir : ℕ) : Except Fault Machine := do
  check (pagedir % pageSize = 0) .assertion
  let m ← kernelPdes.foldlM (copyPde pagedir) m
  let pa ← vmmGetPhysical m pagedir
  let pde ← readWord m (pagedir + 4 * (1023 : Fin 1024))
  check (frameOf pde = pa) .assertion
  check (Present pde) .assertion
  check (pde &&& vmmPageWritable ≠ 0) .assertion
  return m

end Rastapopoulos.Vmm
