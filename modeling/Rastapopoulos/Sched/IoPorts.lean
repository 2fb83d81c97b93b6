import Rastapopoulos.Foundations.Bitmap
import Rastapopoulos.Foundations.Word
import Rastapopoulos.Sched.Conservation

/-!
# Access to I/O ports

The processor lets a user task access a port if the port's bit is clear in the I/O bitmap of the
TSS, of which there is one. Each task has a bitmap of its own, which `task_switch` copies there.
This is the scheduler's machine again, with a task's bitmap in the place of its context, the TSS
beside it, and the two system calls `exec` and `hwportopen`. Along every run the TSS allows what the
current task has asked for, and nothing that another task has (`ports_isolated_of_reach`).
-/

namespace Rastapopoulos.IoPorts

open Scheduler (Word Sched)

abbrev Byte := BitVec 8

/-- `task->iomap`. -/
structure IoMap where
  bytes : List Byte
  length_eq : bytes.length = 65536 / 8

/-- `tss.iomap`, of `IOMAP_SIZE` bytes. -/
structure TssMap where
  bytes : List Byte
  length_eq : bytes.length = 65536 / 8 + 1

/-- Why the kernel does not go on. -/
inductive Fault
  | scheduler (fault : Scheduler.Fault)
  /-- `assert(port >= 0 && port < 65536)`. -/
  | portRange
  /-- `assert(size <= sizeof(tss.iomap))`. -/
  | iomapSize
  deriving DecidableEq, Repr

/-! ## The two bitmaps -/

/-- `DEBUG_PORT`. -/
def debugPort : Word := 0xE9

/-- `task_iomap_set`. -/
def taskIomapSet (iomap : IoMap) (port : Word) (allow : Bool) : Except Fault IoMap := do
  check (0 ≤ port.toInt ∧ port.toInt < 65536) .portRange
  return if allow then ⟨Bitmap.clear iomap.bytes port.toNat, by simp [iomap.length_eq]⟩
    else ⟨Bitmap.set iomap.bytes port.toNat, by simp [iomap.length_eq]⟩

/-- `gdt_iomap_set`. -/
def gdtIomapSet (tss : TssMap) (buffer : List Byte) : Except Fault TssMap :=
  if h : buffer.length ≤ 65536 / 8 + 1 then
    .ok ⟨buffer ++ tss.bytes.drop buffer.length, by
      rw [List.length_append, List.length_drop, tss.length_eq]
      omega⟩
  else .error .iomapSize

/-- The TSS after `gdt_init`. -/
def gdtInit : TssMap := ⟨List.replicate (65536 / 8 + 1) 0xFF, List.length_replicate⟩

/-- The bitmap of a task that `task_create` has made. -/
def newIomap : Except Fault IoMap :=
  taskIomapSet ⟨List.replicate (65536 / 8) 0xFF, List.length_replicate⟩ debugPort true

/-! ## The machine -/

/-- The scheduler's data and the TSS. `opened` has the calls of `hwportopen` that have returned,
each with the pid of its caller; nothing reads it. -/
structure Machine where
  sched : Sched IoMap
  tss : TssMap
  opened : List (Word × ℕ)

/-- The last acts of `task_switch`, which has made `sched.current` the current task. -/
def Machine.switch (m : Machine) (sched : Sched IoMap) : Except Fault Machine := do
  let tss ← gdtIomapSet m.tss sched.current.context.bytes
  return { m with sched := sched, tss := tss }

/-- `scheduler_start`, after `gdt_init`. -/
def schedulerStart : Except Fault Machine := do
  let kernel ← newIomap
  let idle ← newIomap
  let m : Machine := ⟨Scheduler.schedulerStart kernel idle, gdtInit, []⟩
  m.switch m.sched

/-- `syscall_hwportopen_handler`. -/
def syscallHwportopenHandler (m : Machine) (port : Word) : Except Fault Machine := do
  let iomap ← taskIomapSet m.sched.current.context port true
  let tss ← gdtIomapSet m.tss iomap.bytes
  return { m with
    sched := { m.sched with current := { m.sched.current with context := iomap } }
    tss := tss
    opened := (m.sched.current.pid, port.toNat) :: m.opened }

/-- What the machine does: the operations of the scheduler, and two more system calls. -/
inductive Action
  | tick
  | yield
  | fork
  | exit
  | block (canrecvPort cansendPort timeout : Word)
  | rawBlock
  | wake (pid : Word)
  | wakeWaiting (portNumber : Word)
  | exec
  | hwportopen (port : Word)

/-- An operation of the scheduler, made by the machine. -/
def Machine.op (m : Machine) (op : Scheduler.Op IoMap) : Except Fault (Sched IoMap) :=
  (Scheduler.step m.sched op).mapError .scheduler

/-- One action. The handlers that give up the processor end in `task_switch`. -/
def step (m : Machine) : Action → Except Fault Machine
  | .tick => do
    let sched ← m.op .tick
    -- `scheduler_timer` runs at every fifth tick only
    if m.sched.lastTriggered + Scheduler.schedulerPeriod ≤
        m.sched.timestamp + Scheduler.tickMillis then m.switch sched
    else return { m with sched := sched }
  | .yield => do m.switch (← m.op .yield)
  | .fork => do
    let iomap ← newIomap
    return { m with sched := ← m.op (.fork iomap) }
  | .exit => do m.switch (← m.op .exit)
  | .block canrecvPort cansendPort timeout => do
    m.switch (← m.op (.block canrecvPort cansendPort timeout m.sched.current.context))
  | .rawBlock => do m.switch (← m.op .rawBlock)
  | .wake pid => do return { m with sched := ← m.op (.wake pid) }
  | .wakeWaiting portNumber => do return { m with sched := ← m.op (.wakeWaiting portNumber) }
  -- `exec` replaces the address space and the registers of the task, and keeps its bitmap
  | .exec => do
    check (m.sched.current.pid ≠ m.sched.idle.pid) (.scheduler .idleCall)
    return m
  | .hwportopen port => do
    check (m.sched.current.pid ≠ m.sched.idle.pid) (.scheduler .idleCall)
    syscallHwportopenHandler m port

/-! ## Single bits -/

variable {m m₀ m' : Machine} {s s' : Sched IoMap} {iomap iomap' : IoMap} {port : Word} {p : ℕ}

theorem port_toNat_lt (h : 0 ≤ port.toInt ∧ port.toInt < 65536) : port.toNat < 65536 := by
  have hint := toInt_of_nonneg h.1
  omega

theorem taskIomapSet_allow (h : taskIomapSet iomap port true = .ok iomap') :
    Bitmap.bit iomap'.bytes p = false ↔ p = port.toNat ∨ Bitmap.bit iomap.bytes p = false := by
  obtain ⟨hrange, h⟩ := check_bind_eq_ok.mp h
  cases h
  have hlt := port_toNat_lt hrange
  have hlen := iomap.length_eq
  show Bitmap.bit (Bitmap.clear iomap.bytes port.toNat) p = false ↔ _
  rw [Bitmap.bit_clear (by decide) (by omega), Bool.and_eq_false_iff]
  simp

/-- A new task has access to the debug port only. -/
theorem newIomap_bit (hp : p < 65536) (h : newIomap = .ok iomap) :
    Bitmap.bit iomap.bytes p = false ↔ p = debugPort.toNat := by
  have hones : Bitmap.bit (List.replicate (65536 / 8) (0xFF : Byte)) p = true :=
    Bitmap.bit_replicate_allOnes (by decide) (by omega)
  rw [taskIomapSet_allow h, hones]
  simp

/-- What `gdt_iomap_set` leaves, for the bitmap of a task. -/
theorem gdtIomapSet_eq_ok {tss tss' : TssMap} (h : gdtIomapSet tss iomap.bytes = .ok tss') :
    tss'.bytes = iomap.bytes ++ tss.bytes.drop (65536 / 8) := by
  unfold gdtIomapSet at h
  split at h
  · cases h
    show _ ++ tss.bytes.drop iomap.bytes.length = _
    rw [iomap.length_eq]
  · exact nomatch h

theorem exists_gdtIomapSet (tss : TssMap) (iomap : IoMap) :
    ∃ tss', gdtIomapSet tss iomap.bytes = .ok tss' := by
  have hle : iomap.bytes.length ≤ 65536 / 8 + 1 := by
    rw [iomap.length_eq]
    omega
  exact ⟨_, dif_pos hle⟩

/-! ## The invariant -/

/-- A task's bitmap allows the debug port and the ports that the task has opened. -/
def Grants (opened : List (Word × ℕ)) (t : Scheduler.Task IoMap) : Prop :=
  ∀ p < 65536, Bitmap.bit t.context.bytes p = false ↔ p = debugPort.toNat ∨ (t.pid, p) ∈ opened

structure Inv (m : Machine) : Prop where
  accounted : Scheduler.Accounted m.sched
  tss : m.tss.bytes = m.sched.current.context.bytes ++ [0xFF]
  grants : ∀ t ∈ m.sched.all, Grants m.opened t
  created : ∀ call ∈ m.opened, m.sched.Created call.1

/-- Where the tasks come from: each was there with the same bitmap, or is a new one. -/
def Inherits (s s' : Sched IoMap) : Prop :=
  ∀ t ∈ s'.all, (∃ t₀ ∈ s.all, t.pid = t₀.pid ∧ t.context = t₀.context) ∨
    t.pid = s.nextPid ∧ newIomap = .ok t.context

theorem Inherits.of_all (h : ∀ t ∈ s'.all, t ∈ s.all) : Inherits s s' :=
  fun t ht => .inl ⟨t, h t ht, rfl, rfl⟩

/-- The part of the invariant that is about the tasks, after an operation of the scheduler. -/
theorem Inv.tasks (h : Inv m) (hi : Inherits m.sched s')
    (hn : m.sched.nextPid.toNat ≤ s'.nextPid.toNat) :
    (∀ t ∈ s'.all, Grants m.opened t) ∧ ∀ call ∈ m.opened, s'.Created call.1 := by
  refine ⟨fun t ht p hp => ?_, fun call hcall => lt_of_lt_of_le (h.created call hcall) hn⟩
  rcases hi t ht with ⟨t₀, ht₀, hpid, hcontext⟩ | ⟨hpid, hnew⟩
  · rw [hpid, hcontext]
    exact h.grants t₀ ht₀ p hp
  · -- no call is by a task that is yet to be created
    have hfresh : (t.pid, p) ∉ m.opened := by
      intro hcall
      have hlt : t.pid.toNat < m.sched.nextPid.toNat := h.created _ hcall
      rw [hpid] at hlt
      exact lt_irrefl _ hlt
    rw [newIomap_bit hp hnew]
    simp [hfresh]

/-- A switch: the bitmap of the task that is resumed is copied. -/
theorem Inv.switch (h : Inv m) (hacc : Scheduler.Accounted s') (hi : Inherits m.sched s')
    (hn : m.sched.nextPid.toNat ≤ s'.nextPid.toNat) (hs : m.switch s' = .ok m') : Inv m' := by
  obtain ⟨tss, htss, hs⟩ := bind_eq_ok.mp hs
  cases hs
  obtain ⟨hgrants, hcreated⟩ := h.tasks hi hn
  refine ⟨hacc, ?_, hgrants, hcreated⟩
  rw [gdtIomapSet_eq_ok htss, h.tss, ← m.sched.current.context.length_eq, List.drop_left]

/-- An operation that does not switch. -/
theorem Inv.stay (h : Inv m) (hacc : Scheduler.Accounted s') (hi : Inherits m.sched s')
    (hn : m.sched.nextPid.toNat ≤ s'.nextPid.toNat) (hcur : s'.current = m.sched.current) :
    Inv { m with sched := s' } := by
  obtain ⟨hgrants, hcreated⟩ := h.tasks hi hn
  exact ⟨hacc, by rw [hcur]; exact h.tss, hgrants, hcreated⟩

theorem Inv.tick (h : Inv m) (hs : step m .tick = .ok m') : Inv m' := by
  obtain ⟨s', hop, hs⟩ := bind_eq_ok.mp hs
  have hop : Scheduler.irqHandler m.sched = .ok s' := mapError_eq_ok.mp hop
  obtain ⟨-, hnext, hall⟩ := Scheduler.irqHandler_all hop
  have hacc : Scheduler.Accounted s' := h.accounted.tick hop
  split at hs
  · exact h.switch hacc (.of_all hall) (by rw [hnext]) hs
  · rename_i hquiet
    cases hs
    refine h.stay hacc (.of_all hall) (by rw [hnext]) ?_
    rw [Scheduler.irqHandler, if_neg hquiet, Except.ok.injEq] at hop
    rw [← hop]

/-- A handler that switches, and makes no task. -/
theorem Inv.reschedule (h : Inv m) {op : Scheduler.Op IoMap}
    (hop : ∀ s', Scheduler.step m.sched op = .ok s' →
      s'.nextPid = m.sched.nextPid ∧ Inherits m.sched s')
    (hs : (m.op op >>= m.switch) = .ok m') : Inv m' := by
  obtain ⟨s', hs', hs⟩ := bind_eq_ok.mp hs
  rw [Machine.op, mapError_eq_ok] at hs'
  obtain ⟨hnext, hi⟩ := hop s' hs'
  exact h.switch (h.accounted.step hs') hi (by rw [hnext]) hs

theorem Inv.fork (h : Inv m) (hs : step m .fork = .ok m') : Inv m' := by
  obtain ⟨iomap, hnew, hs⟩ := bind_eq_ok.mp hs
  obtain ⟨s', hop, hs⟩ := bind_eq_ok.mp hs
  cases hs
  rw [Machine.op, mapError_eq_ok] at hop
  have hacc := h.accounted.step hop
  obtain ⟨-, hop⟩ := check_bind_eq_ok.mp hop
  obtain ⟨⟨s₁, pid⟩, hfork, heq⟩ := bind_eq_ok.mp hop
  cases heq
  obtain ⟨-, rfl⟩ := Scheduler.syscallForkHandler_eq_ok hfork
  have hle := h.accounted.nextPid_le
  have hsucc : (m.sched.nextPid + 1).toNat = m.sched.nextPid.toNat + 1 := by
    rw [BitVec.toNat_add]
    show (m.sched.nextPid.toNat + 1) % 2 ^ 32 = _
    omega
  refine h.stay hacc (fun t ht => ?_) (by rw [hsucc]; omega) rfl
  by_cases hchild : t = Scheduler.childTask m.sched iomap
  · exact .inr (hchild ▸ ⟨rfl, hnew⟩)
  · refine .inl ⟨t, ?_, rfl, rfl⟩
    simp only [Sched.all, Sched.queued, List.mem_cons, List.mem_append, List.not_mem_nil,
      hchild, or_false] at ht ⊢
    exact ht

theorem Inv.hwportopen (h : Inv m) (hs : step m (.hwportopen port) = .ok m') : Inv m' := by
  obtain ⟨hne, hs⟩ := check_bind_eq_ok.mp hs
  obtain ⟨iomap, hset, hs⟩ := bind_eq_ok.mp hs
  obtain ⟨tss, htss, hs⟩ := bind_eq_ok.mp hs
  cases hs
  have hcur := h.grants m.sched.current (by simp [Sched.all])
  refine ⟨⟨h.accounted.perm, h.accounted.nextPid_le, fun heq => absurd heq hne⟩, ?_, ?_, ?_⟩
  · show tss.bytes = iomap.bytes ++ [0xFF]
    rw [gdtIomapSet_eq_ok htss, h.tss, ← m.sched.current.context.length_eq, List.drop_left]
  · intro t ht
    rcases List.mem_cons.mp ht with rfl | ht
    · intro p hp
      rw [taskIomapSet_allow hset, hcur p hp, List.mem_cons, Prod.mk.injEq]
      simp only [true_and]
      tauto
    · -- the call of the current task says nothing about any other
      have hother : t.pid ≠ m.sched.current.pid := by
        rcases List.mem_cons.mp ht with rfl | ht
        · exact hne.symm
        · exact h.accounted.distinct.ne_current ht
      intro p hp
      rw [h.grants t (.tail _ ht) p hp, List.mem_cons, Prod.mk.injEq]
      simp [hother]
  · intro call hcall
    rcases List.mem_cons.mp hcall with rfl | hcall
    · have hplace : m.sched.current.pid ∈ m.sched.places := by
        rw [Sched.places, if_neg hne]
        simp
      have hle := h.accounted.nextPid_le
      exact (Scheduler.mem_firstPids (by omega)).mp
        (h.accounted.perm.mem_iff.mp (List.mem_append_left _ hplace))
    · exact h.created call hcall

/-- **One action keeps the invariant.** -/
theorem Inv.step (h : Inv m) {action : Action} (hs : step m action = .ok m') : Inv m' := by
  cases action with
  | tick => exact h.tick hs
  | yield =>
    refine h.reschedule (fun s' hop => ?_) hs
    obtain ⟨-, hop⟩ := check_bind_eq_ok.mp hop
    obtain ⟨-, hnext, hall⟩ := Scheduler.syscallYieldHandler_all hop
    exact ⟨hnext, .of_all hall⟩
  | fork => exact h.fork hs
  | exit =>
    refine h.reschedule (fun s' hop => ?_) hs
    obtain ⟨-, hop⟩ := check_bind_eq_ok.mp hop
    obtain ⟨-, hnext, hall⟩ := Scheduler.syscallExitHandler_all hop
    exact ⟨hnext, .of_all hall⟩
  | block canrecvPort cansendPort timeout =>
    refine h.reschedule (fun s' hop => ?_) hs
    obtain ⟨-, hop⟩ := check_bind_eq_ok.mp hop
    obtain ⟨-, hnext, hall⟩ := Scheduler.taskBlock_all hop
    refine ⟨hnext, fun t ht => .inl ?_⟩
    rcases hall t ht with ht | rfl
    · exact ⟨t, ht, rfl, rfl⟩
    · exact ⟨m.sched.current, by simp [Sched.all], rfl, rfl⟩
  | rawBlock =>
    refine h.reschedule (fun s' hop => ?_) hs
    obtain ⟨-, hop⟩ := check_bind_eq_ok.mp hop
    obtain ⟨-, hnext, hall⟩ := Scheduler.taskSwitchNext_all hop
    refine ⟨hnext, .of_all fun t ht => ?_⟩
    have := hall t ht
    simp only [Sched.all, Sched.queued, List.mem_cons, List.mem_append, List.not_mem_nil,
      or_false] at this ⊢
    tauto
  | wake pid =>
    obtain ⟨s', hop, hs⟩ := bind_eq_ok.mp hs
    cases hs
    rw [Machine.op, mapError_eq_ok] at hop
    have hacc := h.accounted.step hop
    obtain ⟨-, hop⟩ := check_bind_eq_ok.mp hop
    obtain ⟨-, hcur, hnext, hall⟩ := Scheduler.taskWake_all h.accounted.distinct hop
    exact h.stay hacc (.of_all hall) (by rw [hnext]) hcur
  | wakeWaiting portNumber =>
    obtain ⟨s', hop, hs⟩ := bind_eq_ok.mp hs
    cases hs
    rw [Machine.op, mapError_eq_ok] at hop
    have hacc := h.accounted.step hop
    obtain ⟨-, hop⟩ := check_bind_eq_ok.mp hop
    obtain ⟨-, hcur, hnext, hall⟩ := Scheduler.wakeTasksWaitingForPort_all h.accounted.distinct hop
    exact h.stay hacc (.of_all hall) (by rw [hnext]) hcur
  | exec =>
    obtain ⟨-, hs⟩ := check_bind_eq_ok.mp hs
    cases hs
    exact h
  | hwportopen port => exact h.hwportopen hs

theorem inv_schedulerStart (h : schedulerStart = .ok m) : Inv m := by
  obtain ⟨kernel, hkernel, h⟩ := bind_eq_ok.mp h
  obtain ⟨idle, hidle, h⟩ := bind_eq_ok.mp h
  obtain ⟨tss, htss, h⟩ := bind_eq_ok.mp h
  cases h
  have htss : gdtIomapSet gdtInit kernel.bytes = .ok tss := htss
  refine ⟨Scheduler.accounted_schedulerStart _ _, ?_, fun t ht p hp => ?_, List.forall_mem_nil _⟩
  · show tss.bytes = kernel.bytes ++ [0xFF]
    rw [gdtIomapSet_eq_ok htss, gdtInit, List.drop_replicate, Nat.add_sub_cancel_left]
    rfl
  · have hnew : newIomap = .ok t.context := by
      rcases List.mem_cons.mp ht with rfl | ht
      · exact hkernel
      · rcases List.mem_cons.mp ht with rfl | ht
        · exact hidle
        · exact absurd ht (by simp [Sched.queued, Scheduler.schedulerStart])
    rw [newIomap_bit hp hnew]
    simp

/-! ## Isolation -/

/-- What the processor allows is what the current task has asked for. -/
structure Isolated (m : Machine) : Prop where
  copied : m.tss.bytes.take (65536 / 8) = m.sched.current.context.bytes
  last : m.tss.bytes.getLast? = some 0xFF
  clear_iff : ∀ p < 65536, Bitmap.bit m.tss.bytes p = false ↔
    p = debugPort.toNat ∨ (m.sched.current.pid, p) ∈ m.opened

theorem Inv.isolated (h : Inv m) : Isolated m where
  copied := by rw [h.tss, ← m.sched.current.context.length_eq, List.take_left]
  last := by rw [h.tss, List.getLast?_concat]
  clear_iff p hp := by
    have hlt : p / 8 < m.sched.current.context.bytes.length := by
      rw [m.sched.current.context.length_eq]
      omega
    rw [← h.grants m.sched.current (by simp [Sched.all]) p hp, h.tss, Bitmap.bit, Bitmap.bit,
      List.getD_append _ _ _ _ hlt]

/-- **Isolation of I/O ports**, in every state of every run. -/
theorem ports_isolated_of_reach (hstart : schedulerStart = .ok m₀)
    (hreach : Reach step (fun _ _ => True) m₀ m) : Isolated m :=
  (hreach.invariant (inv_schedulerStart hstart) fun _ _ _ h _ hs => h.step hs).isolated

/-- The kernel task opens a port: it has access to this one, and to no other. -/
theorem isolated_hwportopen : ∃ m₀ m, schedulerStart = .ok m₀ ∧
    Reach step (fun _ _ => True) m₀ m ∧ m.opened = [(0, 0x1F0)] ∧
      Bitmap.bit m.tss.bytes 0x1F0 = false ∧ Bitmap.bit m.tss.bytes 0x60 = true := by
  obtain ⟨iomap, hnew⟩ : ∃ iomap, newIomap = .ok iomap := ⟨_, rfl⟩
  obtain ⟨iomap', hopen⟩ : ∃ iomap', taskIomapSet iomap 0x1F0 true = .ok iomap' := ⟨_, rfl⟩
  obtain ⟨tss, htss⟩ := exists_gdtIomapSet gdtInit iomap
  obtain ⟨tss', htss'⟩ := exists_gdtIomapSet tss iomap'
  let s : Sched IoMap := Scheduler.schedulerStart iomap iomap
  let s' : Sched IoMap := { s with current := { s.current with context := iomap' } }
  have hstart : schedulerStart = .ok ⟨s, tss, []⟩ := by
    unfold schedulerStart
    rw [hnew]
    show (gdtIomapSet gdtInit iomap.bytes >>= _) = _
    rw [htss]
    rfl
  have hstep : step ⟨s, tss, []⟩ (.hwportopen 0x1F0) = .ok ⟨s', tss', [(0, 0x1F0)]⟩ := by
    refine check_bind_eq_ok.mpr ⟨(by decide : (0 : Word) ≠ 1), ?_⟩
    show (taskIomapSet iomap 0x1F0 true >>= _) = _
    rw [hopen]
    show (gdtIomapSet tss iomap'.bytes >>= _) = _
    rw [htss']
    rfl
  have hreach : Reach step (fun _ _ => True) _ _ := Reach.refl.tail trivial hstep
  have hclear := (ports_isolated_of_reach hstart hreach).clear_iff
  refine ⟨_, _, hstart, hreach, rfl, (hclear _ (by decide)).mpr (.inr (.head _)), ?_⟩
  rw [← Bool.not_eq_false, hclear _ (by decide)]
  exact (by decide : ¬ (0x60 = debugPort.toNat ∨ ((0 : Word), 0x60) ∈ [((0 : Word), 0x1F0)]))

end Rastapopoulos.IoPorts
