import Rastapopoulos.Foundations.Paging
import Rastapopoulos.Pmm.Regions

/-!
# The virtual memory manager

The part of `kernel/vmm.c` that works on the current page directory while paging is enabled. Entries
are read and written through virtual addresses, which the processor translates with the same page
directory: the directory is at `0xFFFFF000` and its page tables from `0xFFC00000` on, because its
last entry leads to itself. Translation is always that of the entries in memory, as the code flushes
the translation look-aside buffer whenever it has changed an entry.
-/

namespace Rastapopoulos.Vmm

open Paging
open KernelHeap (pageSize)

/-- Why an operation does not return. -/
inductive Fault
  | assertion
  | abort
  | pageFault
  /-- The kernel heap, which is a parameter of the model, has given an answer that no heap gives. -/
  | heap
  deriving DecidableEq, Repr

/-- A fault of the physical memory manager. -/
def Fault.ofPmm : Pmm.Fault → Fault
  | .assertion => .assertion
  | .abort => .abort

/-- Physical memory, the control register `cr3`, `paging_enabled`, and the regions of the physical
memory manager. -/
structure Machine where
  mem : Memory
  cr3 : ℕ
  pagingEnabled : Bool
  regions : List Pmm.Region

/-! ## Access to memory -/

def readWord (m : Machine) (va : ℕ) : Except Fault (BitVec 32) :=
  match translate m.mem m.cr3 va with
  | some f => .ok (m.mem f (wordIndex va))
  | none => .error .pageFault

def writeWord (m : Machine) (va : ℕ) (w : BitVec 32) : Except Fault Machine :=
  match translate m.mem m.cr3 va with
  | some f => .ok { m with mem := m.mem.write f (wordIndex va) w }
  | none => .error .pageFault

/-- `bzero`, on the 4096 bytes of a page. -/
def bzero (m : Machine) (va : ℕ) : Except Fault Machine :=
  (List.finRange 1024).foldlM (fun m (i : Fin 1024) => writeWord m (va + 4 * i) 0) m

/-- `pmm_alloc` on the machine. -/
def alloc (m : Machine) : Except Fault (Machine × Option ℕ) := do
  let (regions, frame) ← (Pmm.pmmAlloc m.regions).mapError Fault.ofPmm
  return ({ m with regions := regions }, frame)

/-- `pmm_alloc`, followed by `assert(frame != INVALID_FRAME)`. -/
def allocFrame (m : Machine) : Except Fault (Machine × ℕ) := do
  match ← alloc m with
  | (m, some frame) => return (m, frame)
  | (_, none) => .error .assertion

/-! ## Entries of the current page directory -/

/-- `VMM_PAGE_PRESENT`. -/
def vmmPagePresent : BitVec 32 := 1

/-- `VMM_PAGE_WRITABLE`. -/
def vmmPageWritable : BitVec 32 := 2

/-- `VMM_PAGE_USER`. -/
def vmmPageUser : BitVec 32 := 4

/-- `PDE_PRESENT | PDE_USER | PDE_WRITABLE`. -/
def pdeFlags : BitVec 32 := 1 ||| 4 ||| 2

/-- `struct va_info`. -/
structure VaInfo where
  dirIndex : Fin 1024
  tableIndex : Fin 1024

def vaInfo (va : ℕ) : VaInfo where
  dirIndex := Fin.ofNat 1024 (va >>> 22)
  tableIndex := Fin.ofNat 1024 (va >>> 12)

/-- The address of `current_pagedir->entries[i]`. -/
def pagedirEntry (i : Fin 1024) : ℕ := 0xFFFFF000 + 4 * i

def getPagetable (info : VaInfo) : ℕ := 0xFFC00000 + info.dirIndex * pageSize

/-- The address of the entry of a page in its page table. -/
def pagetableEntry (info : VaInfo) : ℕ := getPagetable info + 4 * info.tableIndex

/-- `struct va_info_ex`. -/
structure VaInfoEx where
  info : VaInfo
  pde : BitVec 32
  pte : BitVec 32
  frame : BitVec 32
  flags : BitVec 32

def vaInfoEx (m : Machine) (va : ℕ) : Except Fault VaInfoEx := do
  check (m.pagingEnabled = true) .assertion
  let info := vaInfo va
  let pde ← readWord m (pagedirEntry info.dirIndex)
  if Present pde then
    let pte ← readWord m (pagetableEntry info)
    if Present pte then
      return ⟨info, pde, pte, pte &&& 0xFFFFF000, pte &&& 0xFFF⟩
    else return ⟨info, pde, 0, 0, 0⟩
  else return ⟨info, 0, 0, 0, 0⟩

def vmmGetPhysical (m : Machine) (va : ℕ) : Except Fault ℕ := do
  check (va % pageSize = 0) .assertion
  let info ← vaInfoEx m va
  return info.frame.toNat

def vmmGetFlags (m : Machine) (va : ℕ) : Except Fault (BitVec 32) := do
  check (va % pageSize = 0) .assertion
  let info ← vaInfoEx m va
  return info.flags

/-! ## Mapping -/

def vmmMap (m : Machine) (va pa : ℕ) (flags : BitVec 32) : Except Fault Machine := do
  check (m.pagingEnabled = true) .assertion
  check (flags &&& vmmPagePresent ≠ 0) .assertion
  check (va % pageSize = 0) .assertion
  check (pa % pageSize = 0) .assertion
  let info := vaInfo va
  let pde ← readWord m (pagedirEntry info.dirIndex)
  if Present pde then
    -- "already mapped"
    let pte ← readWord m (pagetableEntry info)
    check (¬ Present pte) .abort
    writeWord m (pagetableEntry info) ((BitVec.ofNat 32 pa &&& 0xFFFFF000) ||| flags)
  else
    let (m, tablePa) ← allocFrame m
    let m ← writeWord m (pagedirEntry info.dirIndex) (BitVec.ofNat 32 tablePa ||| pdeFlags)
    let pde ← readWord m (pagedirEntry info.dirIndex)
    check (Present pde) .assertion
    let m ← bzero m (getPagetable info)
    writeWord m (pagetableEntry info) ((BitVec.ofNat 32 pa &&& 0xFFFFF000) ||| flags)

def vmmRemap (m : Machine) (va : ℕ) (flags : BitVec 32) : Except Fault Machine := do
  check (m.pagingEnabled = true) .assertion
  check (va % pageSize = 0) .assertion
  check (flags &&& vmmPagePresent ≠ 0) .assertion
  let info := vaInfo va
  let pde ← readWord m (pagedirEntry info.dirIndex)
  check (Present pde) .assertion
  let pte ← readWord m (pagetableEntry info)
  check (Present pte) .assertion
  let frame := pte &&& 0xFFFFF000
  writeWord m (pagetableEntry info) (frame ||| flags)

def vmmUnmap (m : Machine) (va : ℕ) : Except Fault Machine := do
  check (m.pagingEnabled = true) .assertion
  check (va % pageSize = 0) .assertion
  let info := vaInfo va
  let pde ← readWord m (pagedirEntry info.dirIndex)
  check (Present pde) .assertion
  let pte ← readWord m (pagetableEntry info)
  check (Present pte) .assertion
  writeWord m (pagetableEntry info) (pte &&& ~~~1)

end Rastapopoulos.Vmm
