import Rastapopoulos.Ipc.Kernel
import Rastapopoulos.Sched.Faults

/-!
# What a step of the kernel can do

The locks are free between steps, and on a table whose locks are free each handler is a plain
function of the ports: `sendLoop_eq`, `deliver_eq`, `recvLoop_eq`, `waitLoop_eq`. From these,
`step_ends` says once what a step does: one of the moves of `Move`, if it succeeds, and otherwise it
fails in the scheduler's self-checks, by a reboot, by one task too many, at a message that is not
intact, or because `task_wake` does not find the receiver of a port or the sender of a message
(`Failure`). The invariants of the following modules are proved by cases on the move.
-/

namespace Rastapopoulos.Ipc

open Scheduler

/-! ## Faults of the scheduler -/

section Lift

variable {α : Type} {x : Except Scheduler.Fault α} {a : α}

@[simp] theorem lift_eq_ok : lift x = .ok a ↔ x = .ok a := by
  cases x <;> simp [lift]

@[simp] theorem lift_ok : lift (.ok a : Except Scheduler.Fault α) = .ok a := rfl

theorem lift_ends : Ends (lift x) (fun e => ∃ f, x = .error f ∧ e = .sched f) (x = .ok ·) := by
  cases x with
  | error f => exact .error ⟨f, rfl, rfl⟩
  | ok a => exact .ok rfl

end Lift

/-! ## Free locks -/

/-- All locks of the table are free. -/
structure PortTable.Unlocked (table : PortTable) : Prop where
  table_free : table.lock = false
  port_free : ∀ port ∈ table.ports, port.lock = false

section Table

variable {table : PortTable} {p : ℕ} {port port' : Port} {number : Word}

theorem PortTable.get_eq (h : table.ports[p]? = some port) : table.get p = .ok port := by
  simp [PortTable.get, h]

@[simp] theorem PortTable.set_set : (table.set p port).set p port' = table.set p port' := by
  simp [PortTable.set]

theorem PortTable.set_self (h : table.ports[p]? = some port) : table.set p port = table := by
  obtain ⟨hp, rfl⟩ := List.getElem?_eq_some_iff.mp h
  rw [PortTable.set, List.set_getElem_self]

theorem PortTable.getElem?_set_self (h : table.ports[p]? = some port) (port' : Port) :
    (table.set p port').ports[p]? = some port' := by
  rw [PortTable.set, List.getElem?_set_self (List.getElem?_eq_some_iff.mp h).1]

/-- The port that `port_get` finds. -/
def PortTable.find (table : PortTable) (number : Word) : Option ℕ :=
  if 0 ≤ number.toInt then table.ports.findIdx? (·.number = number) else none

theorem PortTable.with_lock (h : table.lock = false) : { table with lock := false } = table := by
  cases table
  cases h
  rfl

theorem Port.with_lock (h : port.lock = false) : { port with lock := false } = port := by
  cases port
  cases h
  rfl

theorem portGet_eq (h : table.lock = false) :
    portGet table number = .ok (table, table.find number) := by
  unfold portGet PortTable.find
  split
  · simp only [PortTable.checkedLock, PortTable.checkedUnlock, check_of _ h, ok_bind, pure_eq_ok,
      check_of _ trivial, PortTable.with_lock h]
  · rfl

theorem PortTable.find_eq_some (h : table.find number = some p) :
    ∃ port, table.ports[p]? = some port ∧ port.number = number ∧ 0 ≤ number.toInt := by
  unfold PortTable.find at h
  split at h
  · rename_i hpos
    obtain ⟨hp, hnum, -⟩ := List.findIdx?_eq_some_iff_getElem.mp h
    exact ⟨table.ports[p], List.getElem?_eq_getElem hp, by simpa using hnum, hpos⟩
  · exact nomatch h

theorem lockPort_eq (h : table.ports[p]? = some port) (hl : port.lock = false) :
    lockPort table p = .ok (table.set p { port with lock := true }) := by
  simp [lockPort, PortTable.get_eq h, hl, check_of]

theorem unlockPort_eq (h : table.ports[p]? = some port) (hl : port.lock = true) :
    unlockPort table p = .ok (table.set p { port with lock := false }) := by
  simp [unlockPort, PortTable.get_eq h, hl, check_of]

theorem queueEmpty_eq (h : table.ports[p]? = some port) (hl : port.lock = false) :
    queueEmpty table p = .ok (table, port.queue.isEmpty) := by
  have h' := PortTable.getElem?_set_self h { port with lock := true }
  rw [queueEmpty, lockPort_eq h hl, ok_bind, PortTable.get_eq h', ok_bind,
    unlockPort_eq h' rfl, ok_bind, PortTable.set_set]
  simp only [Port.with_lock hl, PortTable.set_self h]
  rfl

/-- The port after a message has been queued. -/
def Port.push (port : Port) (sent : Sent) : Port :=
  { port with queue := port.queue ++ [sent.copy], sent := port.sent ++ [sent] }

/-- The port after its first message has been taken. -/
def Port.pop (port : Port) (taken : Taken) : Port :=
  { port with queue := port.queue.tail, taken := port.taken ++ [taken] }

theorem enqueue_eq (h : table.ports[p]? = some port) (hl : port.lock = false) (sent : Sent) :
    enqueue table p sent = .ok (table.set p (port.push sent)) := by
  have h' := PortTable.getElem?_set_self h { port with lock := true }
  rw [enqueue, lockPort_eq h hl, ok_bind, PortTable.get_eq h', ok_bind, PortTable.set_set,
    unlockPort_eq (PortTable.getElem?_set_self h _) rfl, PortTable.set_set, Port.push, ← hl]

/-- The three outcomes of `portopen`: a dynamic port, a requested port, or none. -/
theorem syscallPortopenHandler_cases {table' : PortTable} {receiver result : Word}
    (hl : table.lock = false)
    (h : syscallPortopenHandler table receiver number = .ok (table', result)) :
    (number = invalidPort ∧ table.nextPortValue ≠ invalidPort ∧ result = table.nextPortValue ∧
        table' = { table with
          nextPortValue := table.nextPortValue + 1
          ports := table.ports ++ [newPort table.nextPortValue receiver] }) ∨
      (number ≠ invalidPort ∧ table.reservedPorts &&& portBit number = 0 ∧ result = number ∧
        table' = { table with
          reservedPorts := table.reservedPorts ||| portBit number
          ports := table.ports ++ [newPort number receiver] }) ∨
      (result = invalidPort ∧ (number ≠ invalidPort ∧ table' = table ∨
        number = invalidPort ∧ table.nextPortValue = invalidPort ∧
          table' = { table with nextPortValue := table.nextPortValue + 1 })) := by
  by_cases hn : number = invalidPort
  · simp only [syscallPortopenHandler, choosePort, if_pos hn, PortTable.checkedLock,
      PortTable.checkedUnlock, check_of _ hl, ok_bind, pure_eq_ok, check_of _ trivial] at h
    split at h
    · rename_i hne
      simp only [Except.ok.injEq, Prod.mk.injEq] at h
      obtain ⟨rfl, rfl⟩ := h
      exact .inl ⟨hn, hne, rfl, by rw [hl]⟩
    · rename_i heq
      simp only [Except.ok.injEq, Prod.mk.injEq] at h
      obtain ⟨rfl, rfl⟩ := h
      exact .inr (.inr ⟨not_not.mp heq, .inr ⟨hn, not_not.mp heq, by rw [hl]⟩⟩)
  · simp only [syscallPortopenHandler, choosePort, if_neg hn, PortTable.checkedLock,
      PortTable.checkedUnlock, check_of _ hl, ok_bind, pure_eq_ok] at h
    by_cases hbit : table.reservedPorts &&& portBit number ≠ 0
    · simp only [if_pos hbit, check_of _ trivial, ok_bind, ne_eq, not_true, if_false,
        Except.ok.injEq, Prod.mk.injEq, PortTable.with_lock hl] at h
      exact .inr (.inr ⟨h.2.symm, .inl ⟨hn, h.1.symm⟩⟩)
    · simp only [if_neg hbit, check_of _ trivial, ok_bind, if_pos (show number ≠ invalidPort from hn),
        Except.ok.injEq, Prod.mk.injEq] at h
      obtain ⟨rfl, rfl⟩ := h
      exact .inr (.inl ⟨hn, not_not.mp hbit, rfl, by rw [hl]⟩)

end Table

/-! ## The handlers on a table with free locks -/

section Handlers

variable {k : Kernel} {p : ℕ} {port : Port} {portNumber : Word} {msg : Message}
  {bufferSize : ℕ} {outsize : Bool}

theorem sendLoop_eq (hu : k.table.Unlocked) :
    sendLoop k portNumber msg = match k.table.find portNumber with
      | none => block k invalidPort portNumber sleepInfinite (.sendOpen portNumber msg)
      | some p => deliver k p msg := by
  rw [sendLoop, portGet_eq hu.table_free]
  rfl

theorem deliver_eq (hu : k.table.Unlocked) (hp : k.table.ports[p]? = some port)
    (hmsg : msg.Intact) :
    deliver k p msg = (do
      let sender := k.sched.current.pid
      let sched ← lift (taskWake k.sched port.receiver)
      block ⟨sched, k.table.set p (port.push ⟨sender, msg, msg.stamp sender⟩)⟩
        invalidPort invalidPort sleepInfinite (.sendTaken p port.sent.length)) := by
  have hl := hu.port_free port (List.mem_of_getElem? hp)
  rw [deliver, check_of _ hmsg, ok_bind, PortTable.get_eq hp, ok_bind, enqueue_eq hp hl, ok_bind,
    wake]
  cases lift (taskWake k.sched port.receiver) <;> rfl

theorem recvLoop_eq_of_empty (hu : k.table.Unlocked) (hp : k.table.ports[p]? = some port)
    (hq : port.queue = []) :
    recvLoop k p portNumber bufferSize outsize = (do
      let sched ← lift (wakeTasksWaitingForPort k.sched portNumber)
      block { k with sched := sched } portNumber invalidPort sleepInfinite
        (.recv p portNumber bufferSize outsize)) := by
  have hl := hu.port_free port (List.mem_of_getElem? hp)
  rw [recvLoop, queueEmpty_eq hp hl, ok_bind, hq]
  rfl

/-- What `msgrecv` stores through `outsize`. -/
def reportedSize (outsize : Bool) (m : Message) : Option ℕ :=
  if outsize then some m.size else none

theorem recvLoop_eq_of_cons {m : Message} {rest : List Message} (hu : k.table.Unlocked)
    (hp : k.table.ports[p]? = some port) (hq : port.queue = m :: rest) (hm : m.Intact) :
    recvLoop k p portNumber bufferSize outsize =
      if m.size ≤ bufferSize then do
        let sched ← lift (taskWake k.sched m.sender)
        return ret ⟨sched, k.table.set p (port.pop ⟨k.sched.current.pid, m⟩)⟩
          ⟨0, reportedSize outsize m, some m⟩
      else .ok (ret k ⟨3, reportedSize outsize m, none⟩) := by
  have hl := hu.port_free port (List.mem_of_getElem? hp)
  have h' := PortTable.getElem?_set_self hp { port with lock := true }
  rw [recvLoop, queueEmpty_eq hp hl, ok_bind, hq]
  show takeMessage k p bufferSize outsize = _
  rw [takeMessage, lockPort_eq hp hl, ok_bind, PortTable.get_eq h', ok_bind]
  rw [hq] at h'
  simp only [hq, check_of _ hm, ok_bind]
  by_cases hsize : m.size ≤ bufferSize
  · simp only [hsize, if_true, dequeue, PortTable.get_eq h', ok_bind, pure_eq_ok, wake,
      PortTable.set_set]
    cases lift (taskWake k.sched m.sender) with
    | error e => rfl
    | ok sched =>
      simp only [ok_bind]
      rw [unlockPort_eq (PortTable.getElem?_set_self hp _) rfl, ok_bind, PortTable.set_set,
        Port.pop, hq, ← hl]
      rfl
  · simp only [hsize, if_false]
    rw [unlockPort_eq h' rfl, ok_bind, PortTable.set_set]
    simp only [← hq, Port.with_lock hl, PortTable.set_self hp]
    rfl

theorem recvLoop_eq_of_corrupted {m : Message} {rest : List Message} (hu : k.table.Unlocked)
    (hp : k.table.ports[p]? = some port) (hq : port.queue = m :: rest) (hm : ¬ m.Intact) :
    recvLoop k p portNumber bufferSize outsize = .error .corruptedMessage := by
  have hl := hu.port_free port (List.mem_of_getElem? hp)
  have h' := PortTable.getElem?_set_self hp { port with lock := true }
  rw [recvLoop, queueEmpty_eq hp hl, ok_bind, hq]
  show takeMessage k p bufferSize outsize = _
  rw [takeMessage, lockPort_eq hp hl, ok_bind, PortTable.get_eq h', ok_bind]
  simp only [hq, check_of_not _ hm, error_bind]

theorem waitLoop_eq (hu : k.table.Unlocked) (hp : k.table.ports[p]? = some port) :
    waitLoop k p portNumber =
      if port.queue = [] then
        block k portNumber invalidPort sleepInfinite (.wait p portNumber)
      else .ok (ret k (.value 0)) := by
  have hl := hu.port_free port (List.mem_of_getElem? hp)
  rw [waitLoop, queueEmpty_eq hp hl, ok_bind]
  cases port.queue <;> rfl

end Handlers

/-! ## Moves -/

/-- The current task makes the system call, or runs on in it after a sleep at `cont`. -/
def Kernel.From (k : Kernel) (action : Action) (syscall : Syscall) (cont : Cont) : Prop :=
  (action = .call syscall ∧ k.sched.current.context.IsUser) ∨
    (action = .resume ∧ k.sched.current.context = cont)

/-- The current task is past the tests of a receiving system call on the port `p`: it has just made
the call, or it had made it before. -/
def Kernel.MayRecv (k : Kernel) (action : Action) (p : ℕ) (port : Port) (portNumber : Word)
    (syscall : Syscall) (cont : Cont) : Prop :=
  (action = .call syscall ∧ k.sched.current.context.IsUser ∧
    k.table.find portNumber = some p ∧ port.receiver = k.sched.current.pid) ∨
  (action = .resume ∧ k.sched.current.context = cont)

/-- What a step of a task can do. -/
inductive Move (k : Kernel) : Action → Kernel → Prop
  | yield {sched : Sched Cont} : k.sched.current.context.IsUser →
      syscallYieldHandler k.sched = .ok sched → Move k (.call .yield) { k with sched := sched }
  | exit {sched : Sched Cont} : k.sched.current.context.IsUser →
      syscallExitHandler k.sched = .ok sched → Move k (.call .exit) { k with sched := sched }
  | fork {sched : Sched Cont} {pid : Word} : k.sched.current.context.IsUser →
      syscallForkHandler k.sched (.user (.value 0)) = .ok (sched, pid) →
      Move k (.call .fork) (ret { k with sched := sched } (.value pid))
  | sleep {sched : Sched Cont} {millis : Word} : k.sched.current.context.IsUser →
      taskBlock k.sched invalidPort invalidPort millis .sleep = .ok sched →
      Move k (.call (.sleep millis)) { k with sched := sched }
  | portopen {table : PortTable} {portNumber result : Word} : k.sched.current.context.IsUser →
      syscallPortopenHandler k.table k.sched.current.pid portNumber = .ok (table, result) →
      Move k (.call (.portopen portNumber)) (ret { k with table := table } (.value result))
  | sendBlock {action : Action} {portNumber : Word} {msg : Message} {sched : Sched Cont} :
      k.From action (.msgsend portNumber msg) (.sendOpen portNumber msg) →
      (k.sched.current.context.IsUser → msg.Intact) → k.table.find portNumber = none →
      taskBlock k.sched invalidPort portNumber sleepInfinite (.sendOpen portNumber msg)
        = .ok sched → Move k action { k with sched := sched }
  | send {action : Action} {portNumber : Word} {msg : Message} {p : ℕ} {port : Port}
      {sched₁ sched₂ : Sched Cont} :
      k.From action (.msgsend portNumber msg) (.sendOpen portNumber msg) → msg.Intact →
      k.table.find portNumber = some p →
      k.table.ports[p]? = some port → taskWake k.sched port.receiver = .ok sched₁ →
      taskBlock sched₁ invalidPort invalidPort sleepInfinite (.sendTaken p port.sent.length)
        = .ok sched₂ →
      Move k action ⟨sched₂, k.table.set p
        (port.push ⟨k.sched.current.pid, msg, msg.stamp k.sched.current.pid⟩)⟩
  | recvBlock {action : Action} {p : ℕ} {port : Port} {portNumber : Word} {bufferSize : ℕ}
      {outsize : Bool} {sched₁ sched₂ : Sched Cont} :
      k.MayRecv action p port portNumber (.msgrecv portNumber bufferSize outsize)
        (.recv p portNumber bufferSize outsize) →
      k.table.ports[p]? = some port → port.queue = [] →
      wakeTasksWaitingForPort k.sched portNumber = .ok sched₁ →
      taskBlock sched₁ portNumber invalidPort sleepInfinite
        (.recv p portNumber bufferSize outsize) = .ok sched₂ →
      Move k action { k with sched := sched₂ }
  | recvTake {action : Action} {p : ℕ} {port : Port} {portNumber : Word} {bufferSize : ℕ}
      {outsize : Bool} {m : Message} {rest : List Message} {sched : Sched Cont} :
      k.MayRecv action p port portNumber (.msgrecv portNumber bufferSize outsize)
        (.recv p portNumber bufferSize outsize) →
      k.table.ports[p]? = some port → port.queue = m :: rest → m.Intact → m.size ≤ bufferSize →
      taskWake k.sched m.sender = .ok sched →
      Move k action (ret ⟨sched, k.table.set p (port.pop ⟨k.sched.current.pid, m⟩)⟩
        ⟨0, reportedSize outsize m, some m⟩)
  | recvSmall {action : Action} {p : ℕ} {port : Port} {portNumber : Word} {bufferSize : ℕ}
      {outsize : Bool} {m : Message} {rest : List Message} :
      k.MayRecv action p port portNumber (.msgrecv portNumber bufferSize outsize)
        (.recv p portNumber bufferSize outsize) →
      k.table.ports[p]? = some port → port.queue = m :: rest → bufferSize < m.size →
      Move k action (ret k ⟨3, reportedSize outsize m, none⟩)
  | recvRefused {portNumber : Word} {bufferSize : ℕ} {outsize : Bool} {eax : Word} :
      k.sched.current.context.IsUser →
      ((k.table.find portNumber = none ∧ eax = 1) ∨ ∃ p port, k.table.find portNumber = some p ∧
        k.table.ports[p]? = some port ∧ k.sched.current.pid ≠ port.receiver ∧ eax = 2) →
      Move k (.call (.msgrecv portNumber bufferSize outsize)) (ret k (.value eax))
  | waitBlock {action : Action} {p : ℕ} {port : Port} {portNumber : Word} {sched : Sched Cont} :
      k.MayRecv action p port portNumber (.msgwait portNumber) (.wait p portNumber) →
      k.table.ports[p]? = some port → port.queue = [] →
      taskBlock k.sched portNumber invalidPort sleepInfinite (.wait p portNumber) = .ok sched →
      Move k action { k with sched := sched }
  | waitReturn {action : Action} {p : ℕ} {portNumber eax : Word} :
      k.From action (.msgwait portNumber) (.wait p portNumber) → Move k action (ret k (.value eax))
  | peek {portNumber eax : Word} : k.sched.current.context.IsUser →
      Move k (.call (.msgpeek portNumber)) (ret k (.value eax))
  | sendReturn {p i : ℕ} : k.sched.current.context = .sendTaken p i →
      Move k .resume (ret k (.value 0))
  | sleepReturn : k.sched.current.context = .sleep → Move k .resume (ret k (.value 0))

/-- What holds between steps: the locks are free, the scheduler's tasks are accounted for, and the
idle task is in its own program. -/
structure Sane (k : Kernel) : Prop where
  unlocked : k.table.Unlocked
  accounted : Accounted k.sched
  idle_user : k.sched.idle.context.IsUser

/-! ## Who sends and who receives -/

/-- The step has the current task look for the port `portNumber` to send `msg` to it. -/
def Kernel.Sends (k : Kernel) (action : Action) (portNumber : Word) (msg : Message) : Prop :=
  k.sched.current.pid ≠ k.sched.idle.pid ∧
    k.From action (.msgsend portNumber msg) (.sendOpen portNumber msg)

/-- The step has the current task look for a message in the queue of `port`. -/
def Kernel.Receives (k : Kernel) (action : Action) (p : ℕ) (port : Port) (bufferSize : ℕ) : Prop :=
  k.sched.current.pid ≠ k.sched.idle.pid ∧ k.table.ports[p]? = some port ∧
    ∃ portNumber outsize, k.MayRecv action p port portNumber
      (.msgrecv portNumber bufferSize outsize) (.recv p portNumber bufferSize outsize)

/-- A pointer to a port that is not there, kept by a task asleep in a system call. -/
def Kernel.Dangling (k : Kernel) : Prop :=
  ∃ p, k.table.ports[p]? = none ∧
    ((∃ portNumber bufferSize outsize,
        k.sched.current.context = .recv p portNumber bufferSize outsize) ∨
      ∃ portNumber, k.sched.current.context = .wait p portNumber)

/-- How a step can fail. -/
inductive Failure (k : Kernel) (action : Action) : Fault → Prop
  | selfCheck : Failure k action (.sched .selfCheck)
  | reboot : Failure k action (.sched .reboot)
  | tooManyTasks : Failure k action (.sched .tooManyTasks)
  | stuck : Failure k action .stuck
  | badPointer : k.Dangling → Failure k action .badPointer
  | sendChecksum {portNumber : Word} {msg : Message} : k.Sends action portNumber msg →
      ¬ msg.Intact → Failure k action .sendChecksum
  | corruptedMessage {p : ℕ} {port : Port} {bufferSize : ℕ} {m : Message} {rest : List Message} :
      k.Receives action p port bufferSize → port.queue = m :: rest → ¬ m.Intact →
      Failure k action .corruptedMessage
  | sendGone {portNumber : Word} {msg : Message} {p : ℕ} {port : Port} :
      k.Sends action portNumber msg → msg.Intact → k.table.find portNumber = some p →
      k.table.ports[p]? = some port → ¬ k.sched.Findable port.receiver →
      Failure k action (.sched .wakeUnknown)
  | recvGone {p : ℕ} {port : Port} {bufferSize : ℕ} {m : Message} {rest : List Message} :
      k.Receives action p port bufferSize → port.queue = m :: rest → m.Intact →
      m.size ≤ bufferSize → ¬ k.sched.Findable m.sender → Failure k action (.sched .wakeUnknown)

/-! ## Steps -/

section StepEnds

variable {k k' : Kernel} {action : Action} {fault : Fault} {p : ℕ} {port : Port} {portNumber : Word}
  {msg : Message} {bufferSize : ℕ} {outsize : Bool}

theorem Kernel.Sends.step_eq (h : k.Sends action portNumber msg) (hmsg : msg.Intact) :
    step k action = sendLoop k portNumber msg := by
  obtain ⟨hne, ⟨rfl, huser⟩ | ⟨rfl, hctx⟩⟩ := h
  · simp only [step, handle, syscallMsgsendHandler, check_of _ huser, check_of _ hne,
      check_of _ hmsg, ok_bind]
  · simp only [step, resume, hctx]

theorem Kernel.Receives.step_eq (hk : Sane k) (h : k.Receives action p port bufferSize) :
    ∃ portNumber outsize, step k action = recvLoop k p portNumber bufferSize outsize := by
  obtain ⟨hne, hp, portNumber, outsize, ⟨rfl, huser, hfind, hrecv⟩ | ⟨rfl, hctx⟩⟩ := h
  · refine ⟨portNumber, outsize, ?_⟩
    simp only [step, handle, syscallMsgrecvHandler, check_of _ huser, check_of _ hne,
      portGet_eq hk.unlocked.table_free, hfind, PortTable.get_eq hp, ok_bind, hrecv, ne_eq,
      not_true, if_false]
  · exact ⟨portNumber, outsize, by simp only [step, resume, hctx]⟩

theorem block_eq_ok {canrecvPort cansendPort timeout : Word} {cont : Cont}
    (h : block k canrecvPort cansendPort timeout cont = .ok k') :
    ∃ sched, taskBlock k.sched canrecvPort cansendPort timeout cont = .ok sched ∧
      k' = { k with sched := sched } := by
  simp only [block, bind_eq_ok, lift_eq_ok, pure_inj] at h
  obtain ⟨sched, h, rfl⟩ := h
  exact ⟨sched, h, rfl⟩

/-- A task blocks, if the self-checks pass. -/
theorem block_ends {canrecvPort cansendPort timeout : Word} {cont : Cont} {k₁ : Kernel}
    {P : Kernel → Prop}
    (hP : ∀ sched, taskBlock k₁.sched canrecvPort cansendPort timeout cont = .ok sched →
      P { k₁ with sched := sched }) :
    Ends (block k₁ canrecvPort cansendPort timeout cont) (Failure k action) P := by
  refine (lift_ends.mono (fun e he => ?_) fun _ h => h).bind fun sched hs => .ok (hP sched hs)
  obtain ⟨f, hf, rfl⟩ := he
  exact taskSwitchNext_error hf ▸ .selfCheck

theorem wake_ends (hk : Sane k) {pid : Word}
    (hgone : ¬ k.sched.Findable pid → Failure k action (.sched .wakeUnknown)) :
    Ends (lift (taskWake k.sched pid)) (Failure k action) (taskWake k.sched pid = .ok ·) := by
  refine lift_ends.mono (fun e he => ?_) fun _ h => h
  obtain ⟨f, hf, rfl⟩ := he
  obtain ⟨rfl, hnot⟩ := (taskWake_error_iff hk.accounted.distinct).mp hf
  exact hgone hnot

theorem sendLoop_ends (hk : Sane k) (hne : k.sched.current.pid ≠ k.sched.idle.pid)
    (hfrom : k.From action (.msgsend portNumber msg) (.sendOpen portNumber msg))
    (hmsg : k.sched.current.context.IsUser → msg.Intact) :
    Ends (sendLoop k portNumber msg) (Failure k action) (Move k action) := by
  rw [sendLoop_eq hk.unlocked]
  cases hfind : k.table.find portNumber with
  | none => exact block_ends fun sched hb => .sendBlock hfrom hmsg hfind hb
  | some p =>
    obtain ⟨port, hp, -, -⟩ := PortTable.find_eq_some hfind
    by_cases hint : msg.Intact
    · simp only [deliver_eq hk.unlocked hp hint]
      exact (wake_ends hk (.sendGone ⟨hne, hfrom⟩ hint hfind hp)).bind fun sched₁ hw =>
        block_ends fun sched₂ hb => .send hfrom hint hfind hp hw hb
    · simp only [deliver, check_of_not _ hint]
      exact .error (.sendChecksum ⟨hne, hfrom⟩ hint)

theorem recvLoop_ends (hk : Sane k) (hne : k.sched.current.pid ≠ k.sched.idle.pid)
    (hp : k.table.ports[p]? = some port)
    (hmay : k.MayRecv action p port portNumber (.msgrecv portNumber bufferSize outsize)
      (.recv p portNumber bufferSize outsize)) :
    Ends (recvLoop k p portNumber bufferSize outsize) (Failure k action) (Move k action) := by
  have hr : k.Receives action p port bufferSize := ⟨hne, hp, portNumber, outsize, hmay⟩
  cases hq : port.queue with
  | nil =>
    have hw := wakeTasksWaitingForPort_eq hk.accounted.distinct portNumber
    rw [recvLoop_eq_of_empty hk.unlocked hp hq, hw, lift_ok, ok_bind]
    exact block_ends fun sched hb => .recvBlock hmay hp hq hw hb
  | cons m rest =>
    by_cases hm : m.Intact
    · rw [recvLoop_eq_of_cons hk.unlocked hp hq hm]
      split
      · rename_i hsize
        exact (wake_ends hk (.recvGone hr hq hm hsize)).bind fun sched hw =>
          .ok (.recvTake hmay hp hq hm hsize hw)
      · rename_i hsize
        exact .ok (.recvSmall hmay hp hq (by omega))
    · rw [recvLoop_eq_of_corrupted hk.unlocked hp hq hm]
      exact .error (.corruptedMessage hr hq hm)

theorem waitLoop_ends (hk : Sane k) (hp : k.table.ports[p]? = some port)
    (hmay : k.MayRecv action p port portNumber (.msgwait portNumber) (.wait p portNumber)) :
    Ends (waitLoop k p portNumber) (Failure k action) (Move k action) := by
  rw [waitLoop_eq hk.unlocked hp]
  split
  · rename_i hq
    exact block_ends fun sched hb => .waitBlock hmay hp hq hb
  · rcases hmay with ⟨rfl, huser, -⟩ | hctx
    · exact .ok (.waitReturn (p := p) (.inl ⟨rfl, huser⟩))
    · exact .ok (.waitReturn (.inr hctx))

theorem syscallPortopenHandler_ne_error {table : PortTable} (hl : table.lock = false)
    (receiver number : Word) : syscallPortopenHandler table receiver number ≠ .error fault := by
  simp only [syscallPortopenHandler, choosePort, PortTable.checkedLock, PortTable.checkedUnlock,
    check_of _ hl, ok_bind, pure_eq_ok]
  by_cases hn : number = invalidPort
  · simp only [if_pos hn, check_of _ trivial, ok_bind]
    split <;> simp
  · simp only [if_neg hn]
    by_cases hbit : table.reservedPorts &&& portBit number ≠ 0
    · simp only [if_pos hbit, check_of _ trivial, ok_bind, ne_eq, not_true, if_false]
      simp
    · simp only [if_neg hbit, check_of _ trivial, ok_bind,
        if_pos (show number ≠ invalidPort from hn)]
      simp

/-- **A system call.** -/
theorem handle_ends (hk : Sane k) (huser : k.sched.current.context.IsUser)
    (hne : k.sched.current.pid ≠ k.sched.idle.pid) (syscall : Syscall) :
    Ends (handle k syscall) (Failure k (.call syscall)) (Move k (.call syscall)) := by
  have hu := hk.unlocked
  cases syscall with
  | portopen portNumber =>
    have hopen : Ends (syscallPortopenHandler k.table k.sched.current.pid portNumber)
        (Failure k (.call (.portopen portNumber)))
        (syscallPortopenHandler k.table k.sched.current.pid portNumber = .ok ·) :=
      ⟨id, fun h => absurd h (syscallPortopenHandler_ne_error hu.table_free _ _)⟩
    exact hopen.bind fun r hr => .ok (.portopen huser hr)
  | msgsend portNumber msg =>
    have hfrom : k.From (.call (.msgsend portNumber msg)) (.msgsend portNumber msg)
      (.sendOpen portNumber msg) := .inl ⟨rfl, huser⟩
    exact .check (fun hmsg => .sendChecksum ⟨hne, hfrom⟩ hmsg) fun hmsg =>
      sendLoop_ends hk hne hfrom fun _ => hmsg
  | msgrecv portNumber bufferSize outsize =>
    simp only [handle, syscallMsgrecvHandler, portGet_eq hu.table_free, ok_bind]
    cases hfind : k.table.find portNumber with
    | none => exact .ok (.recvRefused huser (.inl ⟨hfind, rfl⟩))
    | some p =>
      obtain ⟨port, hp, -, -⟩ := PortTable.find_eq_some hfind
      simp only [PortTable.get_eq hp, ok_bind]
      split
      · rename_i hrecv
        exact .ok (.recvRefused huser (.inr ⟨p, port, hfind, hp, hrecv, rfl⟩))
      · rename_i hrecv
        exact recvLoop_ends hk hne hp (.inl ⟨rfl, huser, hfind, (not_not.mp hrecv).symm⟩)
  | msgwait portNumber =>
    simp only [handle, syscallMsgwaitHandler, portGet_eq hu.table_free, ok_bind]
    cases hfind : k.table.find portNumber with
    | none => exact .ok (.waitReturn (p := 0) (.inl ⟨rfl, huser⟩))
    | some p =>
      obtain ⟨port, hp, -, -⟩ := PortTable.find_eq_some hfind
      simp only [PortTable.get_eq hp, ok_bind]
      split
      · exact .ok (.waitReturn (p := p) (.inl ⟨rfl, huser⟩))
      · rename_i hrecv
        exact waitLoop_ends hk hp (.inl ⟨rfl, huser, hfind, (not_not.mp hrecv).symm⟩)
  | msgpeek portNumber =>
    simp only [handle, syscallMsgpeekHandler, portGet_eq hu.table_free, ok_bind]
    cases hfind : k.table.find portNumber with
    | none => exact .ok (.peek huser)
    | some p =>
      obtain ⟨port, hp, -, -⟩ := PortTable.find_eq_some hfind
      have hl := hu.port_free port (List.mem_of_getElem? hp)
      simp only [PortTable.get_eq hp, queueEmpty_eq hp hl, ok_bind]
      split <;> exact .ok (.peek huser)
  | yield =>
    refine (lift_ends.mono (fun e he => ?_) fun _ h => h).bind fun sched hs => .ok (.yield huser hs)
    obtain ⟨f, hf, rfl⟩ := he
    exact taskSwitchNext_error hf ▸ .selfCheck
  | fork =>
    refine (lift_ends.mono (fun e he => ?_) fun _ h => h).bind fun r hr => .ok (.fork huser hr)
    obtain ⟨f, hf, rfl⟩ := he
    exact syscallForkHandler_error hf ▸ .tooManyTasks
  | exit =>
    refine (lift_ends.mono (fun e he => ?_) fun _ h => h).bind fun sched hs => .ok (.exit huser hs)
    obtain ⟨f, hf, rfl⟩ := he
    exact taskSwitchNext_error hf ▸ .selfCheck
  | sleep millis => exact block_ends fun sched hb => .sleep huser hb

/-- **A task runs on** after a sleep. -/
theorem resume_ends (hk : Sane k) (hne : k.sched.current.pid ≠ k.sched.idle.pid) :
    Ends (resume k) (Failure k .resume) (Move k .resume) := by
  unfold resume
  split
  · exact .error .stuck
  · rename_i portNumber msg hctx
    exact sendLoop_ends hk hne (.inr ⟨rfl, hctx⟩) fun huser => by simp [hctx, Cont.IsUser] at huser
  · rename_i p i hctx
    exact .ok (.sendReturn hctx)
  · rename_i p portNumber bufferSize outsize hctx
    cases hp : k.table.ports[p]? with
    | none =>
      simp only [recvLoop, queueEmpty, lockPort, PortTable.get, hp, error_bind]
      exact .error (.badPointer ⟨p, hp, .inl ⟨portNumber, bufferSize, outsize, hctx⟩⟩)
    | some port => exact recvLoop_ends hk hne hp (.inr ⟨rfl, hctx⟩)
  · rename_i p portNumber hctx
    cases hp : k.table.ports[p]? with
    | none =>
      simp only [waitLoop, queueEmpty, lockPort, PortTable.get, hp, error_bind]
      exact .error (.badPointer ⟨p, hp, .inr ⟨portNumber, hctx⟩⟩)
    | some port => exact waitLoop_ends hk hp (.inr ⟨rfl, hctx⟩)
  · rename_i hctx
    exact .ok (.sleepReturn hctx)

/-- **What a step can do**: the timer ticks, or a task other than the idle one moves, or it fails. -/
theorem step_ends (hk : Sane k) : Ends (step k action) (Failure k action) fun k' =>
    (action = .tick ∧ k.sched.current.context.IsUser ∧ ∃ sched, irqHandler k.sched = .ok sched ∧
        k' = { k with sched := sched }) ∨
      (k.sched.current.pid ≠ k.sched.idle.pid ∧ Move k action k') := by
  cases action with
  | tick =>
    refine .check (fun _ => .stuck) fun huser => ?_
    refine (lift_ends.mono (fun e he => ?_) fun _ h => h).bind fun sched hs =>
      .ok (.inl ⟨rfl, huser, sched, hs, rfl⟩)
    obtain ⟨f, hf, rfl⟩ := he
    rcases irqHandler_error hf with rfl | rfl
    · exact .selfCheck
    · exact .reboot
  | call syscall =>
    refine .check (fun _ => .stuck) fun huser => .check (fun _ => .stuck) fun hne => ?_
    exact (handle_ends hk huser hne syscall).mono (fun _ h => h) fun _ h => .inr ⟨hne, h⟩
  | resume =>
    by_cases heq : k.sched.current.pid = k.sched.idle.pid
    · -- the idle task is in its own program
      have huser := hk.accounted.current_idle heq ▸ hk.idle_user
      simp only [step, resume]
      split <;> simp_all [Cont.IsUser]
      exact .error .stuck
    · exact (resume_ends hk heq).mono (fun _ h => h) fun _ h => .inr ⟨heq, h⟩

theorem step_cases (hk : Sane k) (h : step k action = .ok k') :
    (action = .tick ∧ k.sched.current.context.IsUser ∧ ∃ sched, irqHandler k.sched = .ok sched ∧
        k' = { k with sched := sched }) ∨
      (k.sched.current.pid ≠ k.sched.idle.pid ∧ Move k action k') :=
  (step_ends hk).of_ok h

end StepEnds

/-! ## Sanity along runs -/

section Sane

variable {k k' : Kernel} {action : Action}

theorem PortTable.Unlocked.set {table : PortTable} (h : table.Unlocked) {p : ℕ} {port : Port}
    (hl : port.lock = false) : (table.set p port).Unlocked := by
  refine ⟨h.table_free, fun x hx => ?_⟩
  rcases List.mem_or_eq_of_mem_set hx with hx | rfl
  · exact h.port_free x hx
  · exact hl

theorem PortTable.Unlocked.portopen {table table' : PortTable} (h : table.Unlocked)
    {receiver number result : Word}
    (hs : syscallPortopenHandler table receiver number = .ok (table', result)) :
    table'.Unlocked := by
  have happend : ∀ n, ∀ x ∈ table.ports ++ [newPort n receiver], x.lock = false := by
    intro n x hx
    rcases List.mem_append.mp hx with hx | hx
    · exact h.port_free x hx
    · rw [List.mem_singleton.mp hx]
      rfl
  rcases syscallPortopenHandler_cases h.table_free hs with ⟨-, -, -, rfl⟩ | ⟨-, -, -, rfl⟩ |
    ⟨-, ⟨-, rfl⟩ | ⟨-, -, rfl⟩⟩
  · exact ⟨h.table_free, happend _⟩
  · exact ⟨h.table_free, happend _⟩
  · exact h
  · exact ⟨h.table_free, h.port_free⟩

/-- A system call's return changes nothing but the current task's context. -/
theorem Sane.ret (h : Sane k) (hne : k.sched.current.pid ≠ k.sched.idle.pid) (o : Outcome) :
    Sane (ret k o) :=
  ⟨h.unlocked, ⟨h.accounted.perm, h.accounted.nextPid_le, fun heq => absurd heq hne⟩, h.idle_user⟩

theorem Sane.sched (h : Sane k) {sched : Sched Cont} (hacc : Accounted sched)
    (hidle : sched.idle = k.sched.idle) : Sane { k with sched := sched } :=
  ⟨h.unlocked, hacc, hidle ▸ h.idle_user⟩

theorem Sane.table (h : Sane k) {table : PortTable} (hu : table.Unlocked) :
    Sane { k with table := table } :=
  ⟨hu, h.accounted, h.idle_user⟩

theorem Sane.move (h : Sane k) (hne : k.sched.current.pid ≠ k.sched.idle.pid)
    (hm : Move k action k') : Sane k' := by
  cases hm with
  | yield _ hs => exact h.sched (h.accounted.yield hne hs) (syscallYieldHandler_all hs).1
  | exit _ hs => exact h.sched (h.accounted.exit hne hs) (syscallExitHandler_all hs).1
  | fork _ hs =>
    obtain ⟨-, heq⟩ := syscallForkHandler_eq_ok hs
    have hacc := h.accounted.fork hs
    subst heq
    exact (h.sched hacc rfl).ret hne _
  | sleep _ hs => exact h.sched (h.accounted.block hne hs) (taskBlock_all hs).1
  | portopen _ hs => exact (h.table (h.unlocked.portopen hs)).ret hne _
  | sendBlock _ _ _ hs => exact h.sched (h.accounted.block hne hs) (taskBlock_all hs).1
  | send _ _ _ hp hw hb =>
    have hl := h.unlocked.port_free _ (List.mem_of_getElem? hp)
    obtain ⟨hidle, hcur, -⟩ := taskWake_all h.accounted.distinct hw
    have hacc := (h.accounted.wake hw).block (by rw [hidle, hcur]; exact hne) hb
    exact (h.sched hacc ((taskBlock_all hb).1.trans hidle)).table (h.unlocked.set hl)
  | recvBlock _ _ _ hw hb =>
    obtain ⟨hidle, hcur, -⟩ := wakeTasksWaitingForPort_all h.accounted.distinct hw
    have hacc := (h.accounted.wakeWaiting hw).block (by rw [hidle, hcur]; exact hne) hb
    exact h.sched hacc ((taskBlock_all hb).1.trans hidle)
  | recvTake _ hp _ _ _ hw =>
    have hl := h.unlocked.port_free _ (List.mem_of_getElem? hp)
    obtain ⟨hidle, hcur, -⟩ := taskWake_all h.accounted.distinct hw
    refine Sane.ret ((h.sched (h.accounted.wake hw) hidle).table (h.unlocked.set ?_)) ?_ _
    · exact hl
    · simp only [hidle, hcur]
      exact hne
  | waitBlock _ _ _ hs => exact h.sched (h.accounted.block hne hs) (taskBlock_all hs).1
  | recvSmall | recvRefused | waitReturn | peek | sendReturn | sleepReturn => exact h.ret hne _

theorem Sane.step (h : Sane k) (hs : step k action = .ok k') : Sane k' := by
  rcases step_cases h hs with ⟨-, -, sched, hirq, rfl⟩ | ⟨hne, hm⟩
  · exact h.sched (h.accounted.tick hirq) (irqHandler_all hirq).1
  · exact h.move hne hm

theorem sane_boot : Sane boot :=
  ⟨⟨rfl, by simp [boot, ipcInit]⟩, accounted_schedulerStart _ _, trivial⟩

end Sane

end Rastapopoulos.Ipc
