import Rastapopoulos.Elf.Image
import Rastapopoulos.Initrd.Archive
import Rastapopoulos.Sched.Basic

/-!
# Running another program

`syscall_exec_handler` of `kernel/scheduler.c`. The name of the file goes through two arrays: it is
copied to one of 64 bytes, because the memory of the task is about to be freed, and from there to
the name of the task, which has 32. At the end an assertion compares the two, so a name that is cut
off by the second copy stops the kernel (`exec_succeeds_iff`).

What the scheduler knows as the context of a task is its name here. The string that `ebx` points to
is an argument.
-/

namespace Rastapopoulos.Exec

open Strings (Byte CString)
open Initrd (Disk InitrdFile initrdGetFile)
open Scheduler (Sched taskGet)
open Vmm (Machine Stop loadFile vmmResetCurrentPagedir)

/-- `TASK_NAME_MAX`. -/
def taskNameMax : ℕ := 32

/-- `EFLAGS_IF`. -/
def eflagsIf : BitVec 32 := 0x200

/-- How the call ends in the kernel. -/
inductive Fault
  | assertion
  | string (fault : Strings.Fault)
  | memory (fault : Vmm.Fault)
  | load (stop : Stop)

/-- The fields of `struct isr_regs` that the call uses. -/
structure IsrRegs where
  ebx : ℕ
  esp : ℕ
  useresp : ℕ
  eflags : BitVec 32
  eip : ℕ

structure State where
  machine : Machine
  sched : Sched (List Byte)
  regs : IsrRegs

/-- `current_task->name`. -/
def State.name (s : State) : List Byte := s.sched.current.context

/-- `current_task_set_name`. The current task may be the idle task. -/
def currentTaskSetName (sched : Sched (List Byte)) (name : List Byte) :
    Except Strings.Fault (Sched (List Byte)) := do
  let array ← Strings.strlcpy sched.current.context 0 (← Strings.chars name) taskNameMax
  return { sched with
    current := { sched.current with context := array }
    idle := if sched.current.pid = sched.idle.pid then { sched.idle with context := array }
      else sched.idle }

/-- The end of the call, from the place where the registers are set. `eflags` is what `read_eflags`
returns. -/
def resetState (eflags : BitVec 32) (filenameBuf : List Byte) (machine : Machine) (entry : ℕ)
    (s : State) : Except Fault State := do
  let sched ← (currentTaskSetName s.sched filenameBuf).mapError .string
  let regs : IsrRegs := { s.regs with
    esp := Vmm.userStack + KernelHeap.pageSize
    useresp := Vmm.userStack + KernelHeap.pageSize
    eflags := eflags ||| eflagsIf
    eip := entry }
  match taskGet sched sched.current.pid with
  | none => .error .assertion
  | some t => do
    check (t.pid = sched.current.pid) .assertion
    let order ← (Strings.strcmp t.context filenameBuf).mapError .string
    check (order = 0) .assertion
    return ⟨machine, sched, regs⟩

def syscallExecHandler (initrd : Disk) (eflags : BitVec 32) (filename : CString) (s : State) :
    Except Fault State := do
  check (s.regs.ebx ≠ 0) .assertion
  check (filename.chars ≠ []) .assertion
  -- the array is not initialised
  let filenameBuf ← (Strings.strlcpy (List.replicate 64 0xCC) 0 filename.chars 64).mapError .string
  match ← (initrdGetFile initrd filename).mapError .string with
  | none => return s
  | some file => do
    let m ← (vmmResetCurrentPagedir s.machine).mapError .memory
    let r ← (loadFile m file.data).mapError .load
    resetState eflags filenameBuf r.1 r.2 s

variable {disk : Disk} (eflags : BitVec 32) {filename : CString} {s s' : State} {file : InitrdFile}
  {m m' : Machine} {sched : Sched (List Byte)} {data : List Byte} {entry : ℕ}

/-! ## Statement -/

/-- The file can be loaded once the address space has been emptied. -/
def Loads (m : Machine) (data : List Byte) : Prop :=
  ∃ m₁ r, vmmResetCurrentPagedir m = .ok m₁ ∧ loadFile m₁ data = .ok r

/-- The call succeeds if there is a file of the name that can be loaded, and if there is none, then
nothing happens. -/
structure Succeeds (disk : Disk) (eflags : BitVec 32) (filename : CString) (s : State) : Prop where
  present : ∀ file, disk.lookup filename = some file → Loads s.machine file.data →
    ∃ s', syscallExecHandler disk eflags filename s = .ok s' ∧
      Strings.chars s'.name = .ok (filename.chars.take (taskNameMax - 1)) ∧
      s'.regs.eip = Vmm.eEntry file.data
  absent : disk.lookup filename = none → syscallExecHandler disk eflags filename s = .ok s

/-! ## The names -/

/-- A copy of a string to an array that is large enough. -/
theorem strlcpy_array (src : List Byte) {array : List Byte} {size : ℕ} (hpos : 0 < size)
    (hsize : size ≤ array.length) : ∃ rest, Strings.strlcpy array 0 src size =
      .ok (src.take (size - 1) ++ 0 :: rest) := by
  have hroom : (src.take (size - 1)).length < array.length := by
    rw [List.length_take]
    omega
  exact ⟨_, Strings.strlcpy_append [] hroom⟩

/-- `filename_buf`, which is not initialised. -/
theorem strlcpy_filenameBuf (filename : CString) :
    ∃ rest, Strings.strlcpy (List.replicate 64 0xCC) 0 filename.chars 64 =
      .ok (filename.chars.take 63 ++ 0 :: rest) :=
  strlcpy_array _ (by decide) (by decide)

variable {name : List Byte}

/-- The task is found, and it has the name. -/
theorem currentTaskSetName_eq (rest : List Byte) (hname : 0 ∉ name)
    (hlen : sched.current.context.length = taskNameMax) :
    ∃ sched' rest', currentTaskSetName sched (name ++ 0 :: rest) = .ok sched' ∧
      sched'.current.context = name.take (taskNameMax - 1) ++ 0 :: rest' ∧
      ∃ t, taskGet sched' sched'.current.pid = some t ∧ t.pid = sched'.current.pid ∧
        t.context = sched'.current.context := by
  obtain ⟨rest', hcopy⟩ := strlcpy_array name (by decide) hlen.ge
  rw [currentTaskSetName, Strings.chars_append hname, ok_bind, hcopy, ok_bind]
  refine ⟨_, rest', rfl, rfl, ?_⟩
  by_cases hidle : sched.current.pid = sched.idle.pid
  · refine ⟨{ sched.idle with context := name.take (taskNameMax - 1) ++ 0 :: rest' }, ?_,
      hidle.symm, rfl⟩
    simp [taskGet, hidle]
  · refine ⟨{ sched.current with context := name.take (taskNameMax - 1) ++ 0 :: rest' }, ?_, rfl,
      rfl⟩
    simp [taskGet, hidle]

/-- **The end of the call**: it is reached if and only if the name fits into the task. -/
theorem resetState_cases (m : Machine) (entry : ℕ) (rest : List Byte)
    (hname : 0 ∉ name) (hlen : s.name.length = taskNameMax) :
    (name.length < taskNameMax ∧ ∃ s', resetState eflags (name ++ 0 :: rest) m entry s = .ok s' ∧
        Strings.chars s'.name = .ok (name.take (taskNameMax - 1)) ∧ s'.regs.eip = entry) ∨
      (taskNameMax ≤ name.length ∧
        resetState eflags (name ++ 0 :: rest) m entry s = .error .assertion) := by
  obtain ⟨sched, rest', hset, hcontext, t, hget, hpid, ht⟩ :=
    currentTaskSetName_eq rest hname hlen
  have htake : 0 ∉ name.take (taskNameMax - 1) := fun h => hname (List.mem_of_mem_take h)
  obtain ⟨d, hd, hiff⟩ := Strings.strcmp_strings htake hname (x := rest') (y := rest)
  rw [← hcontext, ← ht] at hd
  rw [List.take_eq_self_iff] at hiff
  rw [resetState, hset, mapError_ok, ok_bind]
  simp only [hget, check_of _ hpid, hd, mapError_ok, ok_bind]
  rcases Nat.lt_or_ge name.length taskNameMax with hlt | hge
  · refine .inl ⟨hlt, _, by rw [check_of _ (hiff.mpr (Nat.le_sub_one_of_lt hlt))]; rfl, ?_, rfl⟩
    rw [State.name, hcontext]
    exact Strings.chars_append htake
  · refine .inr ⟨hge, ?_⟩
    have hd : d ≠ 0 := fun h0 => absurd (hiff.mp h0) (by unfold taskNameMax at *; omega)
    rw [check_of_not _ hd]
    rfl

/-! ## The call -/

section Call

variable (hdisk : ∀ file ∈ disk.files, file.Valid) (hebx : s.regs.ebx ≠ 0)
  (hne : filename.chars ≠ [])

include hdisk hebx hne

theorem syscallExecHandler_absent (h : disk.lookup filename = none) :
    syscallExecHandler disk eflags filename s = .ok s := by
  obtain ⟨rest, hcopy⟩ := strlcpy_filenameBuf filename
  rw [syscallExecHandler, check_of _ hebx, ok_bind, check_of _ hne, ok_bind, hcopy, mapError_ok,
    ok_bind, Initrd.initrdGetFile_eq hdisk, h]
  rfl

theorem syscallExecHandler_present (h : disk.lookup filename = some file) :
    ∃ rest, syscallExecHandler disk eflags filename s = (do
      let m ← (vmmResetCurrentPagedir s.machine).mapError .memory
      let r ← (loadFile m file.data).mapError .load
      resetState eflags (filename.chars.take 63 ++ 0 :: rest) r.1 r.2 s) := by
  obtain ⟨rest, hcopy⟩ := strlcpy_filenameBuf filename
  refine ⟨rest, ?_⟩
  rw [syscallExecHandler, check_of _ hebx, ok_bind, check_of _ hne, ok_bind, hcopy, mapError_ok,
    ok_bind, Initrd.initrdGetFile_eq hdisk, h, mapError_ok, ok_bind]

end Call

theorem entry_of_loadFile {r : Machine × ℕ} (h : loadFile m data = .ok r) :
    r.2 = Vmm.eEntry data := by
  simp only [loadFile, bind_eq_ok, pure_inj] at h
  obtain ⟨_, -, load, -, rfl⟩ := h
  rfl

theorem machine_of_resetState {buf : List Byte} (h : resetState eflags buf m entry s = .ok s') :
    s'.machine = m := by
  rw [resetState, bind_eq_ok] at h
  obtain ⟨sched, -, h⟩ := h
  dsimp only at h
  split at h
  · cases h
  · simp only [bind_eq_ok, pure_inj] at h
    obtain ⟨-, -, order, -, -, -, rfl⟩ := h
    rfl

/-- **The address spaces change** as they do in the system of all tasks. -/
theorem step_of_exec {sys : Vmm.System} (hdisk : ∀ file ∈ disk.files, file.Valid)
    (hmachine : s.machine = sys.toMachine) (hfile : disk.lookup filename = some file)
    (h : syscallExecHandler disk eflags filename s = .ok s') :
    Vmm.step sys (.exec (.ofFile file.data)) = .ok (sys.setMachine s'.machine) := by
  simp only [syscallExecHandler, Initrd.initrdGetFile_eq hdisk, hfile, mapError_ok, ok_bind,
    bind_eq_ok, mapError_eq_ok] at h
  obtain ⟨-, -, -, -, buf, -, m₁, hreset, r, hload, hend⟩ := h
  rw [Vmm.step, ← hmachine, hreset, ok_bind, Vmm.loadElf_of_loadFile hload,
    machine_of_resetState eflags hend]
  rfl

/-- A file that can be loaded into the empty address space can be loaded by the call, in every state
that the system of all tasks reaches. -/
theorem loads_of_loadable {sys : Vmm.System} (h : Vmm.SystemInv sys)
    (hfile : ∀ m₁, vmmResetCurrentPagedir sys.toMachine = .ok m₁ → Vmm.Loadable m₁ data) :
    Loads sys.toMachine data := by
  obtain ⟨role, ht⟩ := h.tasks
  obtain ⟨m₁, role', hreset, h', hcr3, -⟩ := ht.inv.vmmResetCurrentPagedir ht.cur
  obtain ⟨m', ps, hload, -⟩ := (hfile m₁ hreset).exists_loadFile (h'.usable (ht.cur.congr hcr3))
  exact ⟨m₁, _, hreset, hload⟩

/-- The call for a file that can be loaded. -/
theorem exec_present_iff (hdisk : ∀ file ∈ disk.files, file.Valid) (hebx : s.regs.ebx ≠ 0)
    (hlen : s.name.length = taskNameMax) (hne : filename.chars ≠ [])
    (hfile : disk.lookup filename = some file) (hloads : Loads s.machine file.data) :
    (∃ s', syscallExecHandler disk eflags filename s = .ok s' ∧
        Strings.chars s'.name = .ok (filename.chars.take (taskNameMax - 1)) ∧
        s'.regs.eip = Vmm.eEntry file.data) ↔ filename.chars.length < taskNameMax := by
  obtain ⟨m₁, r, hreset, hload⟩ := hloads
  obtain ⟨rest, hcall⟩ := syscallExecHandler_present eflags hdisk hebx hne hfile
  rw [hcall, hreset, mapError_ok, ok_bind, hload, mapError_ok, ok_bind, ← entry_of_loadFile hload]
  have hname : 0 ∉ filename.chars.take 63 := fun h => filename.nonzero (List.mem_of_mem_take h)
  have htake : (filename.chars.take 63).take (taskNameMax - 1) =
      filename.chars.take (taskNameMax - 1) := by
    rw [List.take_take]
    rfl
  -- 63 characters are enough to tell whether there are 32
  have hfits : (filename.chars.take 63).length < taskNameMax ↔
      filename.chars.length < taskNameMax := by
    rw [List.length_take]
    unfold taskNameMax
    omega
  rcases resetState_cases eflags r.1 r.2 rest hname hlen with
    ⟨hlt, s', hok, hchars, heip⟩ | ⟨hge, herror⟩
  · exact iff_of_true ⟨s', hok, htake ▸ hchars, heip⟩ (hfits.mp hlt)
  · refine iff_of_false ?_ (mt hfits.mpr (Nat.not_lt.mpr hge))
    rintro ⟨s', hok, -⟩
    rw [herror] at hok
    cases hok

/-- **The call succeeds** exactly if the name of a file that can be loaded has less than 32
characters. -/
theorem exec_succeeds_iff (hdisk : ∀ file ∈ disk.files, file.Valid) (hebx : s.regs.ebx ≠ 0)
    (hlen : s.name.length = taskNameMax) (hne : filename.chars ≠ []) :
    Succeeds disk eflags filename s ↔ ∀ file, disk.lookup filename = some file →
      Loads s.machine file.data → filename.chars.length < taskNameMax := by
  have hpresent := @exec_present_iff disk eflags filename s
  constructor
  · intro h file hfile hloads
    exact (hpresent hdisk hebx hlen hne hfile hloads).mp (h.present file hfile hloads)
  · intro h
    refine ⟨fun file hfile hloads => ?_, syscallExecHandler_absent eflags hdisk hebx hne⟩
    exact (hpresent hdisk hebx hlen hne hfile hloads).mpr (h file hfile hloads)

/-- A disk with one file. -/
def oneFile (name : List Byte) : Disk :=
  ⟨0, [], [⟨name ++ List.replicate (100 - name.length) 0, Vmm.smallFile, Vmm.smallFile.length⟩]⟩

/-- The call of a task whose address space has only a stack. -/
def stackCall : State where
  machine := Vmm.stackSystem.toMachine
  sched :=
    { current := ⟨2, 0, 0, 0, List.replicate 32 0⟩, idle := ⟨1, 0, 0, 0, List.replicate 32 0⟩,
      ready := [], sleeping := [], exited := [], nextPid := 3, timestamp := 0, lastTriggered := 0,
      collected := [] }
  regs := ⟨0xBFFFCF00, 0xBFFFEF00, 0xBFFFCEF0, 0x202, 0x8048000⟩

theorem oneFile_valid (hname : 0 ∉ name) (hne : name ≠ []) (hlt : name.length < 100) :
    ∀ file ∈ (oneFile name).files, file.Valid :=
  List.forall_mem_singleton.mpr (Initrd.valid_zeros hname hne hlt)

theorem oneFile_lookup (name : CString) : (oneFile name.chars).lookup name = some
    ⟨name.chars ++ List.replicate (100 - name.chars.length) 0, Vmm.smallFile,
      Vmm.smallFile.length⟩ := by
  rw [Disk.lookup, oneFile, List.find?_singleton, if_pos]
  exact decide_eq_true (Initrd.label_zeros name.nonzero _ _)

theorem stackCall_loads : Loads stackCall.machine Vmm.smallFile := by
  have hinv : Vmm.SystemInv Vmm.stackSystem :=
    (Vmm.bootSystem_boot.systemInv.step (by decide) Vmm.step_mapKernelStack).1
  refine loads_of_loadable hinv fun m₁ hreset => ?_
  rw [Vmm.stackSystem_reset, Except.ok.injEq] at hreset
  rw [← hreset]
  exact Vmm.loadable_smallFile (by decide +kernel) (by decide +kernel)

/-- `init`. -/
def initName : CString := ⟨[0x69, 0x6E, 0x69, 0x74], by decide⟩

theorem exec_init_succeeds : Loads stackCall.machine Vmm.smallFile ∧
    Succeeds (oneFile initName.chars) 0x2 initName stackCall := by
  refine ⟨stackCall_loads, (exec_succeeds_iff 0x2 (oneFile_valid initName.nonzero (by decide)
    (by decide)) (by decide) (by decide) (by decide)).mpr fun _ _ _ => by decide⟩

/-- A name of 32 characters. -/
def longName : CString := ⟨List.replicate 32 0x61, by decide⟩

/-- The name of the file does not fit into the task, and the call does not return. -/
theorem not_exec_succeeds : (∀ file ∈ (oneFile longName.chars).files, file.Valid) ∧
    ¬ Succeeds (oneFile longName.chars) 0x2 longName stackCall := by
  have hvalid := oneFile_valid longName.nonzero (by decide) (by decide)
  refine ⟨hvalid, fun h => ?_⟩
  have hlt := (exec_present_iff 0x2 hvalid (by decide) (by decide) (by decide)
    (oneFile_lookup longName) stackCall_loads).mp
    (h.present _ (oneFile_lookup longName) stackCall_loads)
  exact absurd hlt (by decide)

end Rastapopoulos.Exec
