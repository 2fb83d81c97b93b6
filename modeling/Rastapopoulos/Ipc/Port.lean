import Rastapopoulos.Ipc.Message
import Mathlib.Data.List.Nodup

/-!
# Ports

The list of ports of `kernel/ipc.c`: `port_get`, the system call `portopen`, and the lock and queue
operations of a single port. A pointer to a port is its index in the list, which is sound because
ports are only ever appended. Besides its queue, a port has two histories that nothing reads: the
messages that were queued on it, and those that were taken from it.

Numbers below 32 are handed out on request and remembered in a mask of 32 bits; the others come
from a counter that starts at 32. The mask is indexed by the requested number modulo 32, without a
test that it is below 32. `ports_unique_of_reach` says when the numbers stay pairwise distinct.
-/

namespace Rastapopoulos.Ipc

open Scheduler

/-- Why a system call of this module does not return. -/
inductive Fault
  | sched (fault : Scheduler.Fault)
  /-- The panic of `checked_lock` and `checked_unlock`. -/
  | lock
  /-- The assertions on the checksum in `msgsend`. -/
  | sendChecksum
  /-- The panic and the assertion on the checksum in `msgrecv`. -/
  | corruptedMessage
  /-- A pointer to a port that is not in the list, or to the head of an empty queue. -/
  | badPointer
  /-- A step that the current task cannot take where it is. -/
  | stuck
  deriving DecidableEq, Repr

/-- A message queued: the sending task, its buffer at the time of the call, and the copy. -/
structure Sent where
  sender : Word
  buffer : Message
  copy : Message
  deriving DecidableEq

/-- A message taken from a queue, and the task that took it. -/
structure Taken where
  receiver : Word
  message : Message
  deriving DecidableEq

/-- `struct port`, with its histories. -/
structure Port where
  number : Word
  receiver : Word
  queue : List Message
  lock : Bool
  sent : List Sent
  taken : List Taken
  deriving DecidableEq

/-- The static data of `kernel/ipc.c`. -/
structure PortTable where
  ports : List Port
  lock : Bool
  reservedPorts : Word
  nextPortValue : Word
  deriving DecidableEq

/-- The table before the first port is opened. -/
def ipcInit : PortTable where
  ports := []
  lock := false
  reservedPorts := 0
  nextPortValue := 32

namespace PortTable

/-- `checked_lock(&port_list_lock)`. -/
def checkedLock (table : PortTable) : Except Fault PortTable := do
  check (table.lock = false) .lock
  return { table with lock := true }

/-- `checked_unlock(&port_list_lock)`. -/
def checkedUnlock (table : PortTable) : Except Fault PortTable := do
  check (table.lock = true) .lock
  return { table with lock := false }

end PortTable

/-- `port_get`: the index of the first port with the number. Negative numbers are not looked up. -/
def portGet (table : PortTable) (number : Word) : Except Fault (PortTable × Option ℕ) := do
  if 0 ≤ number.toInt then
    let table ← table.checkedLock
    let port := table.ports.findIdx? (·.number = number)
    let table ← table.checkedUnlock
    return (table, port)
  else return (table, none)

/-- `1 << idx` as an `int` on x86: the count is taken modulo 32. -/
def portBit (idx : Word) : Word := 1 <<< (idx.toNat % 32)

/-- The first half of `portopen`: the number of the new port, `INVALID_PORT` if there is none. -/
def choosePort (table : PortTable) (portNumber : Word) : Except Fault (PortTable × Word) := do
  if portNumber = invalidPort then
    let table ← table.checkedLock
    let portNumber := table.nextPortValue
    let table := { table with nextPortValue := table.nextPortValue + 1 }
    let table ← table.checkedUnlock
    return (table, portNumber)
  else
    let table ← table.checkedLock
    let (table, portNumber) :=
      if table.reservedPorts &&& portBit portNumber ≠ 0 then (table, invalidPort)
      else ({ table with reservedPorts := table.reservedPorts ||| portBit portNumber }, portNumber)
    let table ← table.checkedUnlock
    return (table, portNumber)

/-- A port just opened. -/
def newPort (number receiver : Word) : Port where
  number := number
  receiver := receiver
  queue := []
  lock := false
  sent := []
  taken := []

/-- `syscall_portopen_handler`, for a call by the task `receiver`. -/
def syscallPortopenHandler (table : PortTable) (receiver portNumber : Word) :
    Except Fault (PortTable × Word) := do
  let (table, portNumber) ← choosePort table portNumber
  if portNumber ≠ invalidPort then
    let table ← table.checkedLock
    let table := { table with ports := table.ports ++ [newPort portNumber receiver] }
    let table ← table.checkedUnlock
    return (table, portNumber)
  else return (table, portNumber)

/-! ## Single ports -/

/-- The port a pointer points to. -/
def PortTable.get (table : PortTable) (p : ℕ) : Except Fault Port :=
  match table.ports[p]? with
  | some port => .ok port
  | none => .error .badPointer

/-- The table after the port at `p` has been overwritten. -/
def PortTable.set (table : PortTable) (p : ℕ) (port : Port) : PortTable :=
  { table with ports := table.ports.set p port }

/-- `checked_lock(&port->lock)`. -/
def lockPort (table : PortTable) (p : ℕ) : Except Fault PortTable := do
  let port ← table.get p
  check (port.lock = false) .lock
  return table.set p { port with lock := true }

/-- `checked_unlock(&port->lock)`. -/
def unlockPort (table : PortTable) (p : ℕ) : Except Fault PortTable := do
  let port ← table.get p
  check (port.lock = true) .lock
  return table.set p { port with lock := false }

/-- The test for an empty queue, under the port's lock. -/
def queueEmpty (table : PortTable) (p : ℕ) : Except Fault (PortTable × Bool) := do
  let table ← lockPort table p
  let port ← table.get p
  let table ← unlockPort table p
  return (table, port.queue.isEmpty)

/-- `list_append(&port->queue, msg_copy, node)` under the port's lock. -/
def enqueue (table : PortTable) (p : ℕ) (sent : Sent) : Except Fault PortTable := do
  let table ← lockPort table p
  let port ← table.get p
  let table := table.set p
    { port with queue := port.queue ++ [sent.copy], sent := port.sent ++ [sent] }
  unlockPort table p

/-- `list_remove(&port->queue, message, node)` for the head of the queue. -/
def dequeue (table : PortTable) (p : ℕ) (taken : Taken) : Except Fault PortTable := do
  let port ← table.get p
  return table.set p { port with queue := port.queue.tail, taken := port.taken ++ [taken] }

end Rastapopoulos.Ipc
