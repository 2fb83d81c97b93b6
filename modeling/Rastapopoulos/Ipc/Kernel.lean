import Rastapopoulos.Ipc.Port

/-!
# The system calls

The kernel as a machine: the scheduler, with contexts that say where a task stands (`Cont`), and the
ports. Interrupts are off in a system call, from its entry to its return or to the point where it
puts the current task to sleep, and again from the point where the task is resumed. So a step is a
tick of the timer while the current task runs its own program, a system call of that task up to its
return or first sleep, or the continuation of a system call that had been asleep.

The handlers of `kernel/ipc.c` are cut at their calls of `task_block`. `exec`, `mmap` and
`hwportopen` do not touch any of the state here.
-/

namespace Rastapopoulos.Ipc

open Scheduler

/-- What a system call leaves with the task: the value in `eax`, what was stored through `outsize`,
and the message copied to the buffer. -/
structure Outcome where
  eax : Word
  outsize : Option ℕ
  buffer : Option Message
  deriving DecidableEq

/-- A value in `eax` and nothing else. -/
def Outcome.value (eax : Word) : Outcome := ⟨eax, none, none⟩

/-- Where a task stands. -/
inductive Cont
  /-- In its own program; the last system call left this. -/
  | user (outcome : Outcome)
  /-- Asleep in `msgsend` until the port is open. -/
  | sendOpen (portNumber : Word) (msg : Message)
  /-- Asleep at the end of `msgsend`. The message is the one with this index in the history of the
  port. -/
  | sendTaken (port index : ℕ)
  /-- Asleep in `msgrecv`, with a pointer to the port. -/
  | recv (port : ℕ) (portNumber : Word) (bufferSize : ℕ) (outsize : Bool)
  /-- Asleep in `msgwait`, with a pointer to the port. -/
  | wait (port : ℕ) (portNumber : Word)
  /-- Asleep in `sleep`. -/
  | sleep
  deriving DecidableEq

/-- In its own program. -/
def Cont.IsUser : Cont → Prop
  | .user _ => True
  | _ => False

instance : DecidablePred Cont.IsUser
  | .user _ => .isTrue trivial
  | .sendOpen _ _ | .sendTaken _ _ | .recv _ _ _ _ | .wait _ _ | .sleep => .isFalse id

/-- The state of the kernel. -/
structure Kernel where
  sched : Sched Cont
  table : PortTable
  deriving DecidableEq

/-- A function of the scheduler, called from a handler. -/
def lift {α : Type} : Except Scheduler.Fault α → Except Fault α
  | .ok a => .ok a
  | .error e => .error (.sched e)

/-- The system call returns to the current task. -/
def ret (k : Kernel) (outcome : Outcome) : Kernel :=
  { k with sched :=
    { k.sched with current := { k.sched.current with context := .user outcome } } }

/-- `task_block`. -/
def block (k : Kernel) (canrecvPort cansendPort timeout : Word) (cont : Cont) :
    Except Fault Kernel := do
  let sched ← lift (taskBlock k.sched canrecvPort cansendPort timeout cont)
  return { k with sched := sched }

/-- `task_wake`. -/
def wake (k : Kernel) (pid : Word) : Except Fault Kernel := do
  let sched ← lift (taskWake k.sched pid)
  return { k with sched := sched }

/-! ## Sending -/

/-- `syscall_msgsend_handler` once the port is open. -/
def deliver (k : Kernel) (p : ℕ) (msg : Message) : Except Fault Kernel := do
  check msg.Intact .sendChecksum
  let sender := k.sched.current.pid
  let port ← k.table.get p
  let table ← enqueue k.table p ⟨sender, msg, msg.stamp sender⟩
  let k ← wake { k with table := table } port.receiver
  block k invalidPort invalidPort sleepInfinite (.sendTaken p port.sent.length)

/-- The loop of `syscall_msgsend_handler` that waits for the port to be open. -/
def sendLoop (k : Kernel) (portNumber : Word) (msg : Message) : Except Fault Kernel := do
  let (table, port) ← portGet k.table portNumber
  let k := { k with table := table }
  match port with
  | none => block k invalidPort portNumber sleepInfinite (.sendOpen portNumber msg)
  | some p => deliver k p msg

def syscallMsgsendHandler (k : Kernel) (portNumber : Word) (msg : Message) :
    Except Fault Kernel := do
  check msg.Intact .sendChecksum
  sendLoop k portNumber msg

/-! ## Receiving -/

/-- `syscall_msgrecv_handler` once the queue is not empty. -/
def takeMessage (k : Kernel) (p bufferSize : ℕ) (outsize : Bool) : Except Fault Kernel := do
  let table ← lockPort k.table p
  let port ← table.get p
  match port.queue with
  | [] => .error .badPointer
  | message :: _ =>
    check message.Intact .corruptedMessage
    let size := if outsize then some message.size else none
    if message.size ≤ bufferSize then
      let table ← dequeue table p ⟨k.sched.current.pid, message⟩
      let k ← wake { k with table := table } message.sender
      let table ← unlockPort k.table p
      return ret { k with table := table } ⟨0, size, some message⟩
    else
      let table ← unlockPort table p
      return ret { k with table := table } ⟨3, size, none⟩

/-- The loop of `syscall_msgrecv_handler`. -/
def recvLoop (k : Kernel) (p : ℕ) (portNumber : Word) (bufferSize : ℕ) (outsize : Bool) :
    Except Fault Kernel := do
  let (table, empty) ← queueEmpty k.table p
  let k := { k with table := table }
  if empty then
    let sched ← lift (wakeTasksWaitingForPort k.sched portNumber)
    block { k with sched := sched } portNumber invalidPort sleepInfinite
      (.recv p portNumber bufferSize outsize)
  else takeMessage k p bufferSize outsize

def syscallMsgrecvHandler (k : Kernel) (portNumber : Word) (bufferSize : ℕ) (outsize : Bool) :
    Except Fault Kernel := do
  let (table, port) ← portGet k.table portNumber
  let k := { k with table := table }
  match port with
  | none => return ret k (.value 1)
  | some p =>
    let port ← k.table.get p
    if k.sched.current.pid ≠ port.receiver then return ret k (.value 2)
    else recvLoop k p portNumber bufferSize outsize

/-- The loop of `syscall_msgwait_handler`. -/
def waitLoop (k : Kernel) (p : ℕ) (portNumber : Word) : Except Fault Kernel := do
  let (table, empty) ← queueEmpty k.table p
  let k := { k with table := table }
  if empty then block k portNumber invalidPort sleepInfinite (.wait p portNumber)
  else return ret k (.value 0)

def syscallMsgwaitHandler (k : Kernel) (portNumber : Word) : Except Fault Kernel := do
  let (table, port) ← portGet k.table portNumber
  let k := { k with table := table }
  match port with
  | none => return ret k (.value (-1))
  | some p =>
    let port ← k.table.get p
    if k.sched.current.pid ≠ port.receiver then return ret k (.value (-1))
    else waitLoop k p portNumber

def syscallMsgpeekHandler (k : Kernel) (portNumber : Word) : Except Fault Kernel := do
  let (table, port) ← portGet k.table portNumber
  let k := { k with table := table }
  match port with
  | none => return ret k (.value 0)
  | some p =>
    let (table, empty) ← queueEmpty k.table p
    let port ← k.table.get p
    let k := { k with table := table }
    if k.sched.current.pid = port.receiver ∧ empty = false then return ret k (.value 1)
    else return ret k (.value 0)

/-! ## Steps -/

/-- A system call with its arguments. -/
inductive Syscall
  | portopen (portNumber : Word)
  | msgsend (portNumber : Word) (msg : Message)
  | msgrecv (portNumber : Word) (bufferSize : ℕ) (outsize : Bool)
  | msgwait (portNumber : Word)
  | msgpeek (portNumber : Word)
  | yield
  | fork
  | exit
  | sleep (millis : Word)
  deriving DecidableEq

/-- The handler of a system call. -/
def handle (k : Kernel) : Syscall → Except Fault Kernel
  | .portopen portNumber => do
    let (table, portNumber) ←
      syscallPortopenHandler k.table k.sched.current.pid portNumber
    return ret { k with table := table } (.value portNumber)
  | .msgsend portNumber msg => syscallMsgsendHandler k portNumber msg
  | .msgrecv portNumber bufferSize outsize => syscallMsgrecvHandler k portNumber bufferSize outsize
  | .msgwait portNumber => syscallMsgwaitHandler k portNumber
  | .msgpeek portNumber => syscallMsgpeekHandler k portNumber
  | .yield => do
    let sched ← lift (syscallYieldHandler k.sched)
    return { k with sched := sched }
  | .fork => do
    let (sched, pid) ← lift (syscallForkHandler k.sched (.user (.value 0)))
    return ret { k with sched := sched } (.value pid)
  | .exit => do
    let sched ← lift (syscallExitHandler k.sched)
    return { k with sched := sched }
  | .sleep millis => block k invalidPort invalidPort millis .sleep

/-- What a task does when it runs on after a sleep. -/
def resume (k : Kernel) : Except Fault Kernel :=
  match k.sched.current.context with
  | .user _ => .error .stuck
  | .sendOpen portNumber msg => sendLoop k portNumber msg
  | .sendTaken _ _ => .ok (ret k (.value 0))
  | .recv p portNumber bufferSize outsize => recvLoop k p portNumber bufferSize outsize
  | .wait p portNumber => waitLoop k p portNumber
  | .sleep => .ok (ret k (.value 0))

/-- What can happen next. -/
inductive Action
  | tick
  | call (syscall : Syscall)
  | resume
  deriving DecidableEq

/-- One step of the kernel. -/
def step (k : Kernel) : Action → Except Fault Kernel
  | .tick => do
    check k.sched.current.context.IsUser .stuck
    let sched ← lift (irqHandler k.sched)
    return { k with sched := sched }
  | .call syscall => do
    check k.sched.current.context.IsUser .stuck
    check (k.sched.current.pid ≠ k.sched.idle.pid) .stuck
    handle k syscall
  | .resume => resume k

/-- The kernel task runs, the idle task exists, and no port is open. -/
def boot : Kernel where
  sched := schedulerStart (.user (.value 0)) (.user (.value 0))
  table := ipcInit

end Rastapopoulos.Ipc
