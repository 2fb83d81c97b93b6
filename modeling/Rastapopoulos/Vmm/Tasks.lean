import Rastapopoulos.Vmm.Directories

/-!
# Address spaces of tasks

The operations of `kernel/scheduler.c` and `kernel/elf.c` that change address spaces: fork, exec,
mmap, the first switch to user mode, exit, and the collection of tasks that have exited. Which task
runs next is left open.

`memset` and `memcpy` translate the address of a page once: the processor keeps the translation of
the page that a loop works on.
-/

namespace Rastapopoulos.Vmm

open Paging
open KernelHeap (pageSize)

/-! ## Stores of bytes -/

/-- The bytes of a store of `len` bytes from `va` on that go to page number `n`. -/
def bytesOn (va len : ℕ) (bytes : ℕ → BitVec 8) (n b : ℕ) : Option (BitVec 8) :=
  if va ≤ n * pageSize + b ∧ n * pageSize + b < va + len then some (bytes (n * pageSize + b - va))
  else none

/-- The part of a store that is in page number `n`; addresses wrap around. -/
def storePage (va len : ℕ) (bytes : ℕ → BitVec 8) (m : Machine) (n : ℕ) : Except Fault Machine :=
  match translate m.mem m.cr3 (n * pageSize % wordMod) with
  | none => .error .pageFault
  | some f => .ok { m with mem := m.mem.fill f (bytesOn va len bytes n) }

def store (m : Machine) (va len : ℕ) (bytes : ℕ → BitVec 8) : Except Fault Machine :=
  if len = 0 then .ok m else
    (List.range' (va / pageSize) ((va + len - 1) / pageSize - va / pageSize + 1)).foldlM
      (storePage va len bytes) m

/-- `page = start; page < stop; page += PAGE_SIZE`. -/
def pagesFrom (start stop : ℕ) : List ℕ :=
  (List.range ((stop - start + 4095) / pageSize)).map fun i => start + i * pageSize

theorem lt_of_mem_pagesFrom {start stop page : ℕ} (h : page ∈ pagesFrom start stop) : page < stop := by
  simp only [pagesFrom, List.mem_map, List.mem_range] at h
  obtain ⟨i, hi, rfl⟩ := h
  unfold pageSize at hi ⊢
  omega

/-! ## Loading programs -/

/-- `USER_START`. -/
def userStart : ℕ := 0x1000

/-- `USER_END`. -/
def userEnd : ℕ := 0xBFFFFFFF

/-- `PT_LOAD`. -/
def ptLoad : ℕ := 1

/-- `PF_W`. -/
def pfW : BitVec 32 := 2

/-- `Elf32_Phdr`, with the bytes of the file from `p_offset` on. -/
structure Phdr where
  type : ℕ
  flags : BitVec 32
  vaddr : ℕ
  memsz : ℕ
  filesz : ℕ
  data : ℕ → BitVec 8

/-- A file: whether its header passes the checks, its entry point, and its program headers. -/
structure Elf where
  header : Bool
  entry : ℕ
  phdrs : List Phdr

def loadSegment (m : Machine) (phdr : Phdr) : Except Fault Machine :=
  if phdr.type = ptLoad then do
    check (phdr.memsz ≠ 0) .assertion
    let pageFlags := vmmPagePresent ||| vmmPageUser |||
      if phdr.flags &&& pfW ≠ 0 then vmmPageWritable else 0
    let segmentStart := phdr.vaddr
    let segmentEnd := addW segmentStart phdr.memsz
    check (userStart ≤ segmentStart) .assertion
    check (segmentEnd ≤ userEnd) .assertion
    let m ← (pagesFrom segmentStart segmentEnd).foldlM (fun m page => do
      let (m, frame) ← allocFrame m
      vmmMap m page frame (vmmPagePresent ||| vmmPageWritable)) m
    let m ← store m segmentStart phdr.memsz fun _ => 0
    let m ← store m segmentStart phdr.filesz phdr.data
    (pagesFrom segmentStart segmentEnd).foldlM (fun m page => vmmRemap m page pageFlags) m
  else return m

def loadElf (m : Machine) (elf : Elf) : Except Fault (Machine × ℕ) := do
  check (elf.header = true) .assertion
  let m ← elf.phdrs.foldlM loadSegment m
  return (m, elf.entry)

/-! ## System calls -/

/-- The second loop of `syscall_mmap_handler`, from page `page` on, with the pages mapped so far. It
returns whether all pages have been mapped. -/
def mmapPages (flags : BitVec 32) : Machine → List ℕ → List ℕ → Except Fault (Machine × Bool)
  | m, _, [] => return (m, true)
  | m, done, page :: pages => do
    match ← alloc m with
    | (m, none) =>
      let m ← done.foldlM vmmUnmap m
      return (m, false)
    | (m, some frame) =>
      let m ← vmmMap m page frame flags
      mmapPages flags m (done ++ [page]) pages

/-- The first loop of `syscall_mmap_handler`: whether all pages can be mapped. -/
def mmapCheck (m : Machine) : List ℕ → Except Fault Bool
  | [] => return true
  | page :: pages => do
    let flags ← vmmGetFlags m page
    if flags &&& vmmPagePresent ≠ 0 then return false
    else if page < userStart ∨ userEnd < page then return false
    else mmapCheck m pages

def syscallMmapHandler (m : Machine) (addr size : ℕ) (flags : BitVec 32) :
    Except Fault (Machine × ℕ) :=
  if addr % pageSize ≠ 0 ∨ size % pageSize ≠ 0 then return (m, 0)
  else if flags = 0 then return (m, 0)
  else do
    let vmmFlags := vmmPagePresent ||| vmmPageUser |||
      if flags &&& 0x2 ≠ 0 then vmmPageWritable else 0
    let pages := pagesFrom addr (addW addr size)
    if ← mmapCheck m pages then
      let (m, mapped) ← mmapPages vmmFlags m [] pages
      return (m, if mapped then addr else 0)
    else return (m, 0)

/-- `USER_STACK`. -/
def userStack : ℕ := 0xBFFFC000

/-- `KERNEL_STACK`. -/
def kernelStack : ℕ := 0xBFFFE000

/-- A page for a stack, filled with `0xCC`. -/
def mapStack (m : Machine) (va : ℕ) (flags : BitVec 32) : Except Fault Machine := do
  let (m, frame) ← allocFrame m
  let m ← vmmMap m va frame flags
  store m va pageSize fun _ => 0xCC

def jumpToUsermode (m : Machine) : Except Fault Machine :=
  mapStack m userStack (vmmPagePresent ||| vmmPageWritable ||| vmmPageUser)

/-! ## Tasks -/

/-- The fields `pagedir` and `context.cr3` of `struct task`. -/
structure Task where
  pagedir : ℕ
  cr3 : ℕ

/-- The kernel, the current task, the tasks on the other queues and the idle task, and those that
have exited. In the beginning the current task stands for `kmain`. -/
structure System extends Kernel where
  current : Task
  others : List Task
  exited : List Task

/-- `task_create`. -/
def taskCreate (k : Kernel) : Except Fault (Kernel × Task) := do
  let (k, _) ← kmalloc k
  let (k, pagedir) ← vmmClonePagedir k
  let cr3 ← vmmGetPhysical k.toMachine pagedir
  return (k, ⟨pagedir, cr3⟩)

/-- `task_switch`. -/
def taskSwitch (m : Machine) (task : Task) : Except Fault Machine := do
  let m ← vmmCopyKernelMappings m task.pagedir
  return { m with cr3 := task.cr3 }

inductive Action
  /-- The start of `scheduler_start`. -/
  | mapKernelStack
  | fork (answers : List Answer)
  | exec (elf : Elf)
  | mmap (addr size : ℕ) (flags : BitVec 32)
  | jumpToUsermode
  /-- The current task exits, and another one goes on. -/
  | exit (next : ℕ)
  /-- The current task gives way to another one. -/
  | switch (next : ℕ)
  /-- `scheduler_timer` collects the tasks that have exited. -/
  | collect (answers : List Answer)
  /-- An allocation for another part of the kernel. -/
  | kmalloc (answer : Answer)
  /-- The program stores a word. -/
  | store (va : ℕ) (w : BitVec 32)

def System.setMachine (s : System) (m : Machine) : System := { s with toKernel := s.toKernel.set m }

/-- Switch to the task at place `next`. -/
def switchTo (s : System) (next : ℕ) (others exited : List Task) : Except Fault System :=
  match s.others[next]? with
  | none => .error .abort
  | some task => do
    let m ← taskSwitch s.toMachine task
    return { s.setMachine m with current := task, others := others, exited := exited }

def step (s : System) : Action → Except Fault System
  | .mapKernelStack => do
    let m ← mapStack s.toMachine kernelStack (vmmPagePresent ||| vmmPageWritable)
    return s.setMachine m
  | .fork answers => do
    let (k, task) ← taskCreate { s.toKernel with answers := answers }
    return { s with toKernel := k, others := s.others ++ [task] }
  | .exec elf => do
    let m ← vmmResetCurrentPagedir s.toMachine
    let (m, _) ← loadElf m elf
    return s.setMachine m
  | .mmap addr size flags => do
    let (m, _) ← syscallMmapHandler s.toMachine addr size flags
    return s.setMachine m
  | .jumpToUsermode => do
    let m ← jumpToUsermode s.toMachine
    return s.setMachine m
  | .exit next => switchTo s next (s.others.eraseIdx next) (s.exited ++ [s.current])
  | .switch next => switchTo s next (s.others.eraseIdx next ++ [s.current]) s.exited
  | .collect answers => do
    let k ← s.exited.foldlM (fun k task => vmmDestroyPagedir k task.pagedir)
      { s.toKernel with answers := answers }
    return { s with toKernel := k, exited := [] }
  | .kmalloc answer => do
    let (k, _) ← kmalloc { s.toKernel with answers := [answer] }
    return { s with toKernel := k }
  | .store va w => do
    check (va < kernelStart) .pageFault
    let m ← writeWord s.toMachine va w
    return s.setMachine m

end Rastapopoulos.Vmm
