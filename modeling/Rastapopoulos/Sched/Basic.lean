import Mathlib.Data.BitVec
import Rastapopoulos.Foundations.Fallible

/-!
# The scheduler

`kernel/scheduler.c` and the tick of `kernel/timer.c`. A task is its record: the pid, the waking
condition that `task_block` writes, and a context. The context is a parameter: to the scheduler it
is saved and restored and never looked at, and the users of this module put there whatever the
task does when it is resumed.

The three queues are lists. A pointer to a task is its pid: `task == t` in the source is equality
of pids here, which agrees with it as long as pids are distinct, and that they are is proved. The
64-bit millisecond clock is a natural number. Interrupts are off in every function below, so each
of them is one step.
-/

namespace Rastapopoulos.Scheduler

/-- A C `int` or `unsigned`. -/
abbrev Word := BitVec 32

/-- `INVALID_PORT`. -/
def invalidPort : Word := -1

/-- `SLEEP_INFINITE`. -/
def sleepInfinite : Word := 0xFFFFFFFF

/-- Why the kernel does not go on. -/
inductive Fault
  /-- An assertion of `scheduler_perform_checks`. -/
  | selfCheck
  /-- `assert(result->pid < 64)` in `task_create`. -/
  | tooManyTasks
  /-- `assert(t)` in `task_wake`. -/
  | wakeUnknown
  /-- The panic at the end of `task_wake`. -/
  | wakeLost
  /-- `reboot()` in `scheduler_timer`. -/
  | reboot
  /-- A system call of the idle task, which only halts. -/
  | idleCall
  deriving DecidableEq, Repr

/-- `struct task`. -/
structure Task (κ : Type) where
  pid : Word
  /-- Wait until port has a message to receive. -/
  waitCanrecvPort : Word
  /-- Wait until port is open and can receive messages. -/
  waitCansendPort : Word
  /-- `0` for none. -/
  sleepDeadline : ℕ
  context : κ
  deriving DecidableEq, Repr

/-- The scheduler's static data, with the clock. `collected` has the pids of the tasks freed so
far; nothing reads it. -/
structure Sched (κ : Type) where
  current : Task κ
  idle : Task κ
  ready : List (Task κ)
  sleeping : List (Task κ)
  exited : List (Task κ)
  nextPid : Word
  /-- `current_timestamp`. -/
  timestamp : ℕ
  /-- `last_triggered` of the scheduler's timer. -/
  lastTriggered : ℕ
  collected : List Word
  deriving DecidableEq, Repr

variable {κ : Type}

/-! ## Self-checks and switching -/

/-- `1 << idx` as an `int` on x86, converted to `uint64_t`: the count is taken modulo 32, and the
result is sign-extended. -/
def pidBit (idx : Word) : BitVec 64 := ((1 : Word) <<< (idx.toNat % 32)).signExtend 64

/-- One traversal step of `scheduler_perform_checks`. -/
def checkTask (s : Sched κ) (encounteredPids : BitVec 64) (task : Task κ) :
    Except Fault (BitVec 64) := do
  check (task.pid ≠ s.current.pid ∧ task.pid ≠ s.idle.pid) .selfCheck
  check (encounteredPids &&& pidBit task.pid = 0) .selfCheck
  return encounteredPids ||| pidBit task.pid

/-- `scheduler_perform_checks`. -/
def schedulerPerformChecks (s : Sched κ) : Except Fault Unit := do
  let seen ← s.ready.foldlM (checkTask s) 0
  let seen ← s.sleeping.foldlM (checkTask s) seen
  let _ ← s.exited.foldlM (checkTask s) seen
  return ()

/-- `task_switch`. -/
def taskSwitch (s : Sched κ) (task : Task κ) : Except Fault (Sched κ) := do
  let s := { s with current := task }
  schedulerPerformChecks s
  return s

/-- "Awake sleeping tasks whose deadline has arrived". -/
def due (now : ℕ) (task : Task κ) : Bool :=
  decide (task.sleepDeadline ≠ 0 ∧ task.sleepDeadline ≤ now)

/-- `task_switch_next`. -/
def taskSwitchNext (s : Sched κ) : Except Fault (Sched κ) :=
  match s.sleeping.find? (due s.timestamp) with
  | some task => taskSwitch { s with sleeping := s.sleeping.eraseP (due s.timestamp) } task
  | none =>
    match s.ready with
    | task :: ready => taskSwitch { s with ready := ready } task
    | [] => taskSwitch s s.idle

/-! ## The timer -/

/-- The decision of `scheduler_timer` to go on, on the queues as they are when it is made. In the
source `may_wakeup` is `false` on both paths. -/
def moreTasks (s : Sched κ) : Bool :=
  if s.ready.isEmpty && s.sleeping.isEmpty then false
  else if s.ready.isEmpty then
    let mayWakeup := if s.sleeping.any (fun task => task.sleepDeadline != 0) then false else false
    mayWakeup
  else true

/-- `scheduler_timer`. -/
def schedulerTimer (s : Sched κ) : Except Fault (Sched κ) := do
  schedulerPerformChecks s
  let s :=
    if s.current.pid ≠ s.idle.pid then { s with ready := s.ready ++ [s.current] } else s
  -- collect exited tasks
  let s := { s with collected := s.collected ++ s.exited.map Task.pid, exited := [] }
  check (moreTasks s = true) .reboot
  taskSwitchNext s

/-- `TICKS_PER_MS`: the milliseconds of a tick. -/
def tickMillis : ℕ := 10

/-- The period of the scheduler's timer. -/
def schedulerPeriod : ℕ := 50

/-- `irq_handler` of the timer, with the scheduler's timer as the only one scheduled. -/
def irqHandler (s : Sched κ) : Except Fault (Sched κ) :=
  let s := { s with timestamp := s.timestamp + tickMillis }
  if s.lastTriggered + schedulerPeriod ≤ s.timestamp then
    schedulerTimer { s with lastTriggered := s.timestamp }
  else .ok s

/-! ## Tasks -/

/-- `task_create`: the record of a new task, zeroed but for its pid and context. -/
def taskCreate (s : Sched κ) (context : κ) : Except Fault (Sched κ × Task κ) := do
  let task : Task κ :=
    { pid := s.nextPid, waitCanrecvPort := 0, waitCansendPort := 0, sleepDeadline := 0,
      context := context }
  let s := { s with nextPid := s.nextPid + 1 }
  check (task.pid.toInt < 64) .tooManyTasks
  return (s, task)

/-- `task_get`. -/
def taskGet (s : Sched κ) (pid : Word) : Option (Task κ) :=
  if pid = s.idle.pid then some s.idle
  else if pid = s.current.pid then some s.current
  else (s.ready.find? (·.pid = pid)).or (s.sleeping.find? (·.pid = pid))

/-- `task_wake`. -/
def taskWake (s : Sched κ) (pid : Word) : Except Fault (Sched κ) :=
  match taskGet s pid with
  | none => .error .wakeUnknown
  | some t =>
    if s.sleeping.any (·.pid = t.pid) then
      .ok { s with
        sleeping := s.sleeping.eraseP (·.pid = t.pid), ready := s.ready ++ [t] }
    else if s.ready.any (·.pid = t.pid) then .ok s
    else if pid = s.current.pid then .ok s
    else if pid = s.idle.pid then .ok s
    else .error .wakeLost

/-- `wake_tasks_waiting_for_port`. The traversal reads the next link before it wakes a task, so it
visits the tasks that were asleep when it started. -/
def wakeTasksWaitingForPort (s : Sched κ) (portNumber : Word) : Except Fault (Sched κ) :=
  s.sleeping.foldlM
    (fun s task => if task.waitCansendPort = portNumber then taskWake s task.pid else .ok s) s

/-! ## System calls of the scheduler -/

/-- `syscall_yield_handler`. -/
def syscallYieldHandler (s : Sched κ) : Except Fault (Sched κ) :=
  taskSwitchNext { s with ready := s.ready ++ [s.current] }

/-- `syscall_fork_handler`: the child resumes with `context`. The result is its pid. -/
def syscallForkHandler (s : Sched κ) (context : κ) : Except Fault (Sched κ × Word) := do
  let (s, newTask) ← taskCreate s context
  return ({ s with ready := s.ready ++ [newTask] }, newTask.pid)

/-- `syscall_exit_handler`. -/
def syscallExitHandler (s : Sched κ) : Except Fault (Sched κ) :=
  taskSwitchNext { s with exited := s.exited ++ [s.current] }

/-- `syscall_block_handler`. -/
def syscallBlockHandler (s : Sched κ) : Except Fault (Sched κ) :=
  taskSwitchNext { s with sleeping := s.sleeping ++ [s.current] }

/-- The record that `task_block` leaves: the waking condition, and `context` to resume with. The
deadline is set for an infinite sleep and cleared for a timed one. -/
def blockedTask (s : Sched κ) (canrecvPort cansendPort timeout : Word) (context : κ) : Task κ :=
  { s.current with
    waitCanrecvPort := canrecvPort
    waitCansendPort := cansendPort
    sleepDeadline := if timeout ≠ sleepInfinite then 0 else s.timestamp + timeout.toNat
    context := context }

/-- `task_block`, up to the point where another task runs. -/
def taskBlock (s : Sched κ) (canrecvPort cansendPort timeout : Word) (context : κ) :
    Except Fault (Sched κ) :=
  syscallBlockHandler { s with current := blockedTask s canrecvPort cansendPort timeout context }

/-- `scheduler_start`: the kernel task runs, the idle task exists. -/
def schedulerStart (kernelContext idleContext : κ) : Sched κ where
  current := ⟨0, 0, 0, 0, kernelContext⟩
  idle := ⟨1, 0, 0, 0, idleContext⟩
  ready := []
  sleeping := []
  exited := []
  nextPid := 2
  timestamp := 0
  lastTriggered := 0
  collected := []

end Rastapopoulos.Scheduler
