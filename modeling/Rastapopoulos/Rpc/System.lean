import Rastapopoulos.Ipc.Lookup
import Rastapopoulos.Rpc.Stub

/-!
# Clients and servers on the kernel

Any number of tasks that run the library's `fork`, the stubs and `rpc_dispatch` on the kernel of
`Rastapopoulos.Ipc.Kernel`. A task starts without a port of its own; it opens its reply port with
`port_open(-1)`, as the child does in `fork` and as every program does before `main`, and can then
call stubs, one at a time, or enter `rpc_dispatch`. In between, and in handlers, tasks make system
calls of other kinds.

A step of the system is a tick of the timer, the continuation of a system call that was asleep, or
what the current task does in its own program up to and including its next system call. Handlers are
not modelled: what a handler leaves in the variables of its marshaller comes with the step.

The records of the calls begun, the requests served and the calls finished are read by nothing.
-/

namespace Rastapopoulos.Rpc

open Scheduler (invalidPort)

open Ipc

/-! ## The state -/

/-- A call of a stub: the function, the caller's variables, and the request made of them. -/
structure Call where
  index : ℕ
  fn : RPCFunction
  env : Env
  request : Message

/-- Where a task is in its program. -/
inductive Phase
  /-- Between calls. -/
  | idle
  /-- In a stub, at its `msgsend`. -/
  | sending (call : Call)
  /-- In a stub, at its `msgrecv`. -/
  | receiving (call : Call)
  /-- At the head of the loop of `rpc_dispatch`. -/
  | ready
  /-- In `rpc_dispatch`, at its `msgrecv`. -/
  | awaiting
  /-- In the handler of a request. -/
  | handling (request : Message)
  /-- In `rpc_dispatch`, at its `msgsend`. -/
  | replying

/-- Where a task may make system calls of its own. -/
def Phase.IsFree : Phase → Prop
  | .idle | .ready | .handling _ => True
  | .sending _ | .receiving _ | .awaiting | .replying => False

instance : DecidablePred Phase.IsFree
  | .idle | .ready | .handling _ => .isTrue trivial
  | .sending _ | .receiving _ | .awaiting | .replying => .isFalse id

/-- The program of a task: its `pcb.ack_port`, once it is open, and where it is. -/
structure Prog where
  ackPort : Option Word
  phase : Phase

/-- What a stub returns: `RPC_OK` with the reply and what the caller's variables got from it,
`RPC_FAIL_SEND` or `RPC_FAIL_RECV`. -/
inductive Result
  | ok (reply : List Byte) (results : List (String × Datum))
  | failSend
  | failRecv

/-- A call that has returned. -/
structure Finished where
  client : Word
  call : Call
  result : Result

/-- A request for which the handler has returned, and the data of the reply, if it has one. -/
structure Served where
  request : Message
  reply : Option (List Byte)

/-- The kernel, the programs of the tasks by pid, and the records. Of calls, those that are not
`oneway` are on record. -/
structure World where
  kernel : Kernel
  prog : Word → Prog
  begun : List (Word × Call)
  served : List Served
  finished : List Finished

/-- The interface, and the port of the server. -/
structure Config where
  interface : List RPCFunction
  rpcPort : Word

namespace World

/-- The pid of the current task. -/
def pid (w : World) : Word := w.kernel.sched.current.pid

/-- Where the current task is. -/
def phase (w : World) : Phase := (w.prog w.pid).phase

/-- A step of the kernel. -/
def act (w : World) (action : Action) : Except RpcFault World := do
  let kernel ← (Ipc.step w.kernel action).mapError .kernel
  return { w with kernel := kernel }

/-- What the last system call left with the current task. -/
def outcome (w : World) : Except RpcFault Outcome :=
  match w.kernel.sched.current.context with
  | .user outcome => .ok outcome
  | _ => .error .stuck

/-- The task goes on elsewhere in its program. -/
def goto (w : World) (pid : Word) (phase : Phase) : World :=
  { w with prog := Function.update w.prog pid { w.prog pid with phase := phase } }

/-- The stub of the current task returns. -/
def finishCall (w : World) (call : Call) (result : Result) : World :=
  { w.goto w.pid .idle with
    finished := if call.fn.OneWay then w.finished else w.finished ++ [⟨w.pid, call, result⟩] }

end World

/-! ## Clients -/

/-- `pcb.ack_port = port_open(-1)`. -/
def openAckPort (w : World) : Except RpcFault World := do
  check ((w.prog w.pid).ackPort = none) .stuck
  let w' ← w.act (.call (.portopen invalidPort))
  let outcome ← w'.outcome
  return { w' with prog := Function.update w'.prog w.pid ⟨some outcome.eax, .idle⟩ }

/-- A stub, up to its `msgsend`. -/
def beginCall (cfg : Config) (w : World) (index : ℕ) (env : Env) : Except RpcFault World :=
  match w.prog w.pid, cfg.interface[index]? with
  | ⟨some ackPort, .idle⟩, some fn => do
    let request ← stubRequest fn index env ackPort
    let call : Call := ⟨index, fn, env, request⟩
    let w' ← w.act (.call (.msgsend cfg.rpcPort (libMsgsend request)))
    return { w'.goto w.pid (.sending call) with
      begun := if fn.OneWay then w.begun else w.begun ++ [(w.pid, call)] }
  | _, _ => .error .stuck

/-- A stub, from the return of its `msgsend` to its `msgrecv` or its end. -/
def proceedCall (w : World) : Except RpcFault World :=
  match w.prog w.pid with
  | ⟨some ackPort, .sending call⟩ => do
    let outcome ← w.outcome
    if outcome.eax ≠ 0 then return w.finishCall call .failSend
    else if call.fn.OneWay then return w.finishCall call (.ok [] [])
    else
      let rcvbufSize ← stubReceiveSize call.fn call.env
      let w' ← w.act (.call (.msgrecv ackPort rcvbufSize false))
      return w'.goto w.pid (.receiving call)
  | _ => .error .stuck

/-- A stub, from the return of its `msgrecv` to its end. -/
def endCall (w : World) : Except RpcFault World :=
  match w.phase with
  | .receiving call => do
    let outcome ← w.outcome
    check (LibMsgrecvOk outcome.buffer) .panic
    if outcome.eax ≠ 0 then return w.finishCall call .failRecv
    else
      let reply := outcome.buffer.getD .zero
      let rcvbufSize ← stubReceiveSize call.fn call.env
      let results ← stubResult call.fn call.env rcvbufSize reply
      return w.finishCall call (.ok reply.data results)
  | _ => .error .stuck

/-! ## Servers -/

/-- `rpc_dispatch` is called. -/
def serve (w : World) : Except RpcFault World :=
  match w.prog w.pid with
  | ⟨some _, .idle⟩ => return w.goto w.pid .ready
  | _ => .error .stuck

/-- The `msgrecv` of `rpc_dispatch`. -/
def receiveRequest (cfg : Config) (w : World) : Except RpcFault World :=
  match w.phase with
  | .ready => do
    let w' ← w.act (.call (.msgrecv cfg.rpcPort dispatchBufferSize true))
    return w'.goto w.pid .awaiting
  | _ => .error .stuck

/-- The `msgrecv` of `rpc_dispatch` has returned. -/
def acceptRequest (w : World) : Except RpcFault World :=
  match w.phase with
  | .awaiting => do
    let outcome ← w.outcome
    check (LibMsgrecvOk outcome.buffer) .panic
    check (outcome.eax = 0) .panic
    return w.goto w.pid (.handling (outcome.buffer.getD .zero))
  | _ => .error .stuck

/-- The `switch` of `rpc_dispatch`, with the marshaller, and the `msgsend` of the reply. The handler
leaves `env`, and the reply goes over what stood in `resbuf`. -/
def handleRequest (cfg : Config) (w : World) (env : Env) (resbuf : List Byte) :
    Except RpcFault World :=
  match w.phase with
  | .handling request =>
    match caseFor request.code 0 cfg.interface with
    | none => .error .panic
    | some fn => do
      let _ ← marshallArgs fn request
      let reply ← marshallReply fn env resbuf
      let w : World := { w with served := w.served ++ [⟨request, reply⟩] }
      match reply with
      | none => return w.goto w.pid .ready
      | some data =>
        let sndBuf ← newMessage invalidPort 0 data
        let w' ← w.act (.call (.msgsend request.replyPort (libMsgsend sndBuf)))
        return w'.goto w.pid .replying
  | _ => .error .stuck

/-- The `msgsend` of `rpc_dispatch` has returned. -/
def replySent (w : World) : Except RpcFault World :=
  match w.phase with
  | .replying => do
    let outcome ← w.outcome
    check (outcome.eax = 0) .panic
    return w.goto w.pid .ready
  | _ => .error .stuck

/-! ## Steps -/

/-- What can happen next. -/
inductive Act
  | tick
  | resume
  /-- A system call of the program, or of a handler. -/
  | other (syscall : Syscall)
  | openAckPort
  | beginCall (index : ℕ) (env : Env)
  | proceedCall
  | endCall
  | serve
  | receiveRequest
  | acceptRequest
  | handleRequest (env : Env) (resbuf : List Byte)
  | replySent

/-- One step of the system. -/
def step (cfg : Config) (w : World) : Act → Except RpcFault World
  | .tick => w.act .tick
  | .resume => w.act .resume
  | .other syscall => do
    check (w.phase.IsFree ∧ syscall.Ordinary) .stuck
    w.act (.call syscall)
  | .openAckPort => openAckPort w
  | .beginCall index env => beginCall cfg w index env
  | .proceedCall => proceedCall w
  | .endCall => endCall w
  | .serve => serve w
  | .receiveRequest => receiveRequest cfg w
  | .acceptRequest => acceptRequest w
  | .handleRequest env resbuf => handleRequest cfg w env resbuf
  | .replySent => replySent w

/-- The kernel has started. -/
def boot : World where
  kernel := Ipc.boot
  prog := fun _ => ⟨none, .idle⟩
  begun := []
  served := []
  finished := []

/-- What is asked of the programs: requests for ports are in range, and no reply port has the number
of the server's port; callers and handlers set their variables; and `resbuf` is the data of the
server's buffer. -/
def Allowed (cfg : Config) (w : World) : Act → Prop
  | .other (.portopen number) => InRange w.kernel.table ⟨w.pid, number⟩
  | .openAckPort => InRange w.kernel.table ⟨w.pid, invalidPort⟩ ∧
      w.kernel.table.nextPortValue ≠ cfg.rpcPort
  | .beginCall index env => ∀ fn, cfg.interface[index]? = some fn → CallSet fn env
  | .handleRequest env resbuf => resbuf.length = replyRoom ∧ ∀ request fn log,
      w.phase = .handling request → caseFor request.code 0 cfg.interface = some fn →
      marshallArgs fn request = .ok log → HandlerSet fn log env
  | _ => True

/-- The interface of the system: sound functions, with different message codes. -/
structure Config.Sound (cfg : Config) : Prop where
  functions : ∀ fn ∈ cfg.interface, fn.Sound
  codes : cfg.interface.length < 2 ^ 32

end Rastapopoulos.Rpc
