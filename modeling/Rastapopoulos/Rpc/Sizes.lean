import Rastapopoulos.Rpc.Generator
import Rastapopoulos.Rpc.Server

/-!
# Calls and the buffers of the server

A stub allocates a buffer that its request fits in, whatever the size, and tells the server how much
room there is for each out parameter. `rpc_dispatch` has one buffer of 4096 bytes for requests and
one for replies. The kernel does not hand over a request that is larger than the first, and
`rpc_dispatch` panics; the assertions of a marshaller stop it at a reply that is larger than the
second. Nothing tells the client.

So the server gets past a call if and only if both sizes are within bounds (`survives_iff`).
-/

namespace Rastapopoulos.Rpc

open Ipc

/-! ## Signatures -/

/-- `rpcgen` emits both sides of the function, and they compile: for an argument with the modifier
`oneway` there is nothing between two commas in the declaration of the handler. -/
structure RPCFunction.Accepted (fn : RPCFunction) : Prop where
  client : ∃ stub, generateClientMarshaller fn = .ok stub
  server : ∃ marshaller, generateMarshaller fn = .ok marshaller
  args : ∀ arg ∈ fn.args, arg.type.modifier ≠ .oneWay

section Signature

variable {fn : RPCFunction}

theorem emitAll_eq_ok {α : Type} {emit : RPCArgument → Except GenFault (List α)}
    {args : List RPCArgument} {code : List α} (h : emitAll emit args = .ok code) :
    ∀ arg ∈ args, ∃ part, emit arg = .ok part := by
  induction args generalizing code with
  | nil => exact fun arg harg => nomatch harg
  | cons a args ih =>
    simp only [emitAll, bind_eq_ok] at h
    obtain ⟨part, hpart, rest, hrest, -⟩ := h
    intro arg harg
    rcases List.mem_cons.mp harg with rfl | harg
    · exact ⟨part, hpart⟩
    · exact ih hrest arg harg

theorem RPCFunction.Accepted.result (h : fn.Accepted) :
    fn.returnType.type = .void ∨ fn.returnType.type = .int ∨ fn.returnType.type = .long := by
  obtain ⟨marshaller, hs⟩ := h.server
  simp only [generateMarshaller, generateDeclaration, bind_eq_ok] at hs
  obtain ⟨-, ⟨result, hresult, -⟩, -⟩ := hs
  cases htype : fn.returnType.type <;> rw [htype] at hresult
  case void => exact .inl rfl
  case int => exact .inr (.inl rfl)
  case long => exact .inr (.inr rfl)
  case string | blob => cases hresult

theorem RPCFunction.Accepted.takes (h : fn.Accepted) : fn.Takes := by
  obtain ⟨stub, hc⟩ := h.client
  simp only [generateClientMarshaller, bind_eq_ok] at hc
  obtain ⟨-, -, sizes, hsizes, -⟩ := hc
  refine fun arg harg => ⟨fun hvoid => ?_, h.args arg harg⟩
  obtain ⟨part, hpart⟩ := emitAll_eq_ok hsizes arg harg
  by_cases hout : arg.type.modifier = .out
  · simp only [argSizes, hout, hvoid, ne_eq] at hpart
    cases hpart
  · simp only [argSizes, hout, hvoid, ne_eq] at hpart
    cases hpart

end Signature

/-! ## Sizes -/

/-- The bytes of a string, with its terminator. -/
def stringSize (env : Env) (x : String) : ℕ := (cString (env.value x).bytes).length + 1

/-- The bytes that an argument takes up in a request. -/
def argSize (env : Env) (arg : RPCArgument) : ℕ :=
  if arg.type.modifier ≠ .out then
    match arg.type.type with
    | .int => 5
    | .string => 5 + stringSize env arg.name
    | .long => 9
    | .blob => 5 + (env.size arg.name).toNat
    | .void => 0
  else
    match arg.type.type with
    | .string | .blob => 5
    | .int | .long | .void => 0

/-- The bytes of a request, with the header. -/
def requestSize (env : Env) (fn : RPCFunction) : ℕ :=
  headerSize + (fn.args.map (argSize env)).sum

/-- The bytes that what the handler has set takes up in a reply. -/
def outSize (env : Env) (arg : RPCArgument) : ℕ :=
  if arg.type.modifier = .out then
    match arg.type.type with
    | .int => 5
    | .string => 5 + stringSize env (outName arg.name)
    | .long => 9
    | .blob => 5 + (env.size (outName arg.name)).toNat
    | .void => 0
  else 0

/-- The bytes of a reply, with the header. -/
def answerSize (env : Env) (fn : RPCFunction) : ℕ :=
  headerSize + (resultSize fn.returnType.type + (fn.args.map (outSize env)).sum)

section Lengths

variable {fn : RPCFunction} {arg : RPCArgument} {env : Env}

theorem length_argBytes (hset : arg.type.modifier ≠ .out → ArgSet env arg) :
    (argBytes env arg).length = argSize env arg := by
  by_cases hout : arg.type.modifier = .out
  · cases htype : arg.type.type <;> simp [argBytes, argSize, hout, htype]
  · have hset := hset hout
    cases htype : arg.type.type <;>
      simp only [argBytes, argSize, hout, htype, ne_eq, not_false_eq_true, if_true,
        List.length_cons, List.length_append, length_leBytes, List.length_nil, List.length_take]
    case string =>
      obtain ⟨hn, hle, -, -⟩ := hset.string htype
      rw [stringSize]
      omega
    case blob =>
      rw [Nat.min_eq_left (hset.blob htype).1]
      omega

theorem length_requestBytes (hargs : ∀ arg ∈ fn.args, arg.type.modifier ≠ .out → ArgSet env arg) :
    headerSize + (requestBytes env fn).length = requestSize env fn := by
  rw [requestBytes, List.length_flatMap, requestSize,
    List.map_congr_left fun arg harg => length_argBytes (hargs arg harg)]

theorem length_outBytes {capacity : Word}
    (hset : arg.type.modifier = .out → OutSet env capacity arg) :
    (outBytes env arg).length = outSize env arg := by
  by_cases hout : arg.type.modifier = .out
  · have hset := hset hout
    cases htype : arg.type.type <;>
      simp only [outBytes, outSize, hout, htype, if_true, List.length_cons,
        List.length_append, length_leBytes, List.length_nil, List.length_take]
    case string =>
      obtain ⟨hn, hle, -⟩ := hset.string htype
      rw [stringSize]
      omega
    case blob =>
      simp only [OutSet, htype] at hset
      obtain ⟨bytes, hval, -, hle⟩ := hset
      rw [hval, Value.bytes]
      omega
  · simp [outBytes, outSize, hout]

theorem replySize_eq {capacity : String → Word}
    (houts : ∀ arg ∈ fn.args, arg.type.modifier = .out → OutSet env (capacity arg.name) arg) :
    headerSize + replySize env fn = answerSize env fn := by
  rw [replySize, List.length_flatMap, answerSize,
    List.map_congr_left fun arg harg => length_outBytes (houts arg harg)]

end Lengths

/-! ## The marshaller -/

section Reply

variable {fn : RPCFunction} {env : Env} {resbuf : List Byte} {log : List (String × Datum)}

/-- The marshaller gets to its end if and only if the reply fits, for `oneway` functions too. -/
theorem marshallReply_iff (hfn : fn.Accepted) (hset : HandlerSet fn log env)
    (hbuf : resbuf.length = replyRoom) :
    (∃ reply, marshallReply fn env resbuf = .ok reply) ↔ answerSize env fn ≤ dispatchBufferSize := by
  have houts : ∀ arg ∈ fn.args, arg.type.modifier = .out →
      OutSet env ((⟨fun _ => .int 0, capacityIn log⟩ : Env).size arg.name) arg := hset.outs
  obtain ⟨code, answer, hcode, -, hrun⟩ := resultSerializer_iff hfn.result
    (fun arg harg => (hfn.takes arg harg).1) houts (show resbuf.length < 2 ^ 32 by rw [hbuf]; decide)
  simp only [marshallReply, hcode, emitted, mapError_ok, ok_bind, running_eq_ok, hrun,
    exists_and_left, exists_eq, and_true]
  rw [← replySize_eq hset.outs, hbuf, headerSize, dispatchBufferSize, replyRoom]
  omega

/-- Only an assertion stops a marshaller after the handler has returned. -/
theorem marshallReply_error {fault : RpcFault} (hfn : fn.Accepted)
    (h : marshallReply fn env resbuf = .error fault) : ∃ f, fault = .code f := by
  obtain ⟨marshaller, hs⟩ := hfn.server
  simp only [generateMarshaller, bind_eq_ok] at hs
  obtain ⟨-, -, -, -, -, -, code, hcode, -⟩ := hs
  simp only [marshallReply, hcode, emitted, mapError_ok, ok_bind] at h
  cases hrun : code.run env resbuf with
  | ok reply =>
    rw [hrun] at h
    cases h
  | error f =>
    rw [hrun] at h
    cases h
    exact ⟨f, rfl⟩

end Reply

/-! ## The server's turn -/

section Turn

variable {cfg : Config} {w w' : World} {act : Act} {m : Message}

/-- A step of the system is at most one step of the kernel. -/
theorem step_kernel (h : step cfg w act = .ok w') :
    w'.kernel = w.kernel ∨ ∃ action, Ipc.step w.kernel action = .ok w'.kernel := by
  cases act with
  | tick | resume =>
    obtain ⟨k', hstep, rfl⟩ := World.act_eq_ok.mp h
    exact .inr ⟨_, hstep⟩
  | other syscall =>
    simp only [step, bind_eq_ok, World.act_eq_ok] at h
    obtain ⟨-, -, k', hstep, rfl⟩ := h
    exact .inr ⟨_, hstep⟩
  | openAckPort =>
    simp only [step, openAckPort, bind_eq_ok, World.act_eq_ok, pure_inj] at h
    obtain ⟨-, -, -, ⟨k', hstep, rfl⟩, -, -, rfl⟩ := h
    exact .inr ⟨_, hstep⟩
  | beginCall index env =>
    obtain ⟨_, _, _, k', -, -, -, hstep, rfl⟩ := beginCall_eq_ok h
    exact .inr ⟨_, hstep⟩
  | proceedCall =>
    obtain ⟨_, _, _, -, -, ⟨-, rfl⟩ | ⟨-, -, rfl⟩ | ⟨-, -, _, k', -, hstep, rfl⟩⟩ :=
      proceedCall_eq_ok h
    · exact .inl rfl
    · exact .inl rfl
    · exact .inr ⟨_, hstep⟩
  | endCall =>
    obtain ⟨_, _, -, -, ⟨-, rfl⟩ | ⟨-, _, rfl⟩⟩ := endCall_eq_ok h <;> exact .inl rfl
  | serve =>
    simp only [step, serve] at h
    split at h <;> cases h
    exact .inl rfl
  | receiveRequest =>
    simp only [step, receiveRequest] at h
    split at h
    · simp only [bind_eq_ok, World.act_eq_ok, pure_inj] at h
      obtain ⟨-, ⟨k', hstep, rfl⟩, rfl⟩ := h
      exact .inr ⟨_, hstep⟩
    · cases h
  | acceptRequest =>
    simp only [step, acceptRequest] at h
    split at h
    · simp only [bind_eq_ok, pure_inj] at h
      obtain ⟨-, -, -, -, -, -, rfl⟩ := h
      exact .inl rfl
    · cases h
  | handleRequest env resbuf =>
    obtain ⟨_, _, _, _, -, -, -, -, ⟨-, rfl⟩ | ⟨_, _, k', -, -, hstep, rfl⟩⟩ :=
      handleRequest_eq_ok h
    · exact .inl rfl
    · exact .inr ⟨_, hstep⟩
  | replySent =>
    simp only [step, replySent] at h
    split at h
    · simp only [bind_eq_ok, pure_inj] at h
      obtain ⟨-, -, -, -, rfl⟩ := h
      exact .inl rfl
    · cases h

theorem honest_of_reach (h : Reach (step cfg) (fun _ _ => True) boot w) : Honest w.kernel := by
  refine Reach.invariant (P := fun w : World => Honest w.kernel) h honest_boot ?_
  intro w act w' hhonest _ hs
  rcases step_kernel hs with hsame | ⟨action, hstep⟩
  · rwa [hsame]
  · exact hhonest.step hstep

/-- The current task is in `rpc_dispatch`, where it calls `msgrecv` or goes on in a `msgrecv` that
was asleep. -/
def AtMsgrecv (cfg : Config) (w : World) : Act → Action → Prop
  | .receiveRequest, action =>
    w.phase = .ready ∧ action = .call (.msgrecv cfg.rpcPort dispatchBufferSize true)
  | .resume, action => w.phase = .awaiting ∧ action = .resume
  | _, _ => False

/-- The next message that `rpc_dispatch` looks at is `m`, whose sender is still there. -/
structure Faces (cfg : Config) (w : World) (act : Act) (m : Message) : Prop where
  first : ∃ action p port rest, AtMsgrecv cfg w act action ∧
    w.kernel.Receives action p port dispatchBufferSize ∧ port.queue = m :: rest
  sender : w.kernel.sched.Findable m.sender

/-- What `msgrecv` with a buffer of 4096 bytes leaves for the message. -/
def Receipt (m : Message) (outcome : Outcome) : Prop :=
  if m.size ≤ dispatchBufferSize then outcome.eax = 0 ∧ outcome.buffer = some m
  else outcome.eax = 3 ∧ outcome.buffer = none

/-- The kernel's side of the `msgrecv`. -/
theorem receives_step {k : Kernel} {action : Action} {p : ℕ} {port : Port} {rest : List Message}
    (hk : Honest k) (hr : k.Receives action p port dispatchBufferSize)
    (hq : port.queue = m :: rest) (hsender : k.sched.Findable m.sender) :
    ∃ k' outcome, Ipc.step k action = .ok k' ∧ k'.sched.current.pid = k.sched.current.pid ∧
      k'.sched.current.context = .user outcome ∧ Receipt m outcome := by
  have hp := hr.2.1
  have hm : m.Intact :=
    (hk.ports port (List.mem_of_getElem? hp)).queue_intact (hq ▸ .head _)
  obtain ⟨number, outsize, hstep⟩ := hr.step_eq hk.sane
  rw [hstep, recvLoop_eq_of_cons hk.sane.unlocked hp hq hm]
  by_cases hsize : m.size ≤ dispatchBufferSize
  · have hd := hk.sane.accounted.distinct
    cases hwake : Scheduler.taskWake k.sched m.sender with
    | error fault => exact absurd hsender ((Scheduler.taskWake_error_iff hd).mp hwake).2
    | ok sched =>
      obtain ⟨-, hcur, -⟩ := Scheduler.taskWake_all hd hwake
      rw [if_pos hsize]
      refine ⟨_, _, rfl, show sched.current.pid = _ by rw [hcur], rfl, ?_⟩
      rw [Receipt, if_pos hsize]
      exact ⟨rfl, rfl⟩
  · rw [if_neg hsize]
    refine ⟨_, _, rfl, rfl, rfl, ?_⟩
    rw [Receipt, if_neg hsize]
    exact ⟨rfl, rfl⟩

/-- **The `msgrecv` of `rpc_dispatch`** returns 0 for a message that fits, and 3 for another one. -/
theorem Faces.step (hk : Honest w.kernel) (h : Faces cfg w act m) :
    ∃ w₁ outcome, Rpc.step cfg w act = .ok w₁ ∧ w₁.phase = .awaiting ∧
      w₁.outcome = .ok outcome ∧ Receipt m outcome := by
  obtain ⟨action, p, port, rest, hat, hr, hq⟩ := h.first
  obtain ⟨k', outcome, hstep, hpid, hctx, hreceipt⟩ := receives_step hk hr hq h.sender
  have hact : w.act action = .ok { w with kernel := k' } := World.act_eq_ok.mpr ⟨k', hstep, rfl⟩
  have hout : ∀ prog begun served finished,
      World.outcome ⟨k', prog, begun, served, finished⟩ = .ok outcome := by
    intro prog begun served finished
    simp only [World.outcome, hctx]
  cases act
  case receiveRequest =>
    obtain ⟨hphase, rfl⟩ := hat
    refine ⟨World.goto { w with kernel := k' } w.pid .awaiting, outcome, ?_, ?_, hout .., hreceipt⟩
    · simp only [Rpc.step, receiveRequest, hphase, hact, ok_bind, pure_eq_ok]
    · have hcur : (World.goto { w with kernel := k' } w.pid .awaiting).pid = w.pid := hpid
      rw [World.phase, hcur]
      simp [World.goto]
  case resume =>
    obtain ⟨hphase, rfl⟩ := hat
    refine ⟨{ w with kernel := k' }, outcome, hact, ?_, hout .., hreceipt⟩
    have hcur : World.pid { w with kernel := k' } = w.pid := hpid
    rw [World.phase, hcur]
    exact hphase
  all_goals exact hat.elim

/-- `rpc_dispatch` goes on with a message that fits, and panics at another one. -/
theorem acceptRequest_eq {outcome : Outcome} (hm : m.Intact) (hphase : w.phase = .awaiting)
    (hout : w.outcome = .ok outcome) (hreceipt : Receipt m outcome) :
    acceptRequest w =
      if m.size ≤ dispatchBufferSize then .ok (w.goto w.pid (.handling m)) else .error .panic := by
  unfold Receipt at hreceipt
  simp only [acceptRequest, hphase, hout, ok_bind]
  split at hreceipt
  · obtain ⟨heax, hbuf⟩ := hreceipt
    rw [hbuf, check_of _ (show LibMsgrecvOk (some m) from hm), check_of _ heax, if_pos ‹_›]
    rfl
  · obtain ⟨heax, hbuf⟩ := hreceipt
    rw [hbuf, check_of _ libMsgrecvOk_none, ok_bind, check_of_not _ (by rw [heax]; decide),
      if_neg ‹_›]
    rfl

theorem World.act_error {action : Action} {fault : RpcFault} (h : w.act action = .error fault) :
    ∃ f, fault = .kernel f := by
  unfold World.act at h
  cases hstep : Ipc.step w.kernel action with
  | ok k' =>
    rw [hstep] at h
    cases h
  | error f =>
    rw [hstep] at h
    cases h
    exact ⟨f, rfl⟩

/-- No assertion fails in the `switch` if and only if the marshaller gets to its end. -/
theorem handleRequest_iff {fn : RPCFunction} {env : Env} {resbuf : List Byte}
    {log : List (String × Datum)} (hfn : fn.Accepted) (hphase : w.phase = .handling m)
    (hcase : caseFor m.code 0 cfg.interface = some fn) (hargs : marshallArgs fn m = .ok log) :
    (∀ fault, handleRequest cfg w env resbuf ≠ .error (.code fault)) ↔
      ∃ reply, marshallReply fn env resbuf = .ok reply := by
  simp only [handleRequest, hphase, hcase, hargs]
  cases hreply : marshallReply fn env resbuf with
  | error fault =>
    obtain ⟨f, rfl⟩ := marshallReply_error hfn hreply
    constructor
    · exact fun h => absurd rfl (h f)
    · rintro ⟨_, h⟩
      cases h
  | ok reply =>
    refine ⟨fun _ => ⟨reply, rfl⟩, fun _ fault h => ?_⟩
    cases reply with
    | none => cases h
    | some data =>
      simp only [ok_bind, bind_eq_error] at h
      rcases h with h | ⟨sndBuf, -, h | ⟨w', -, h⟩⟩
      · unfold newMessage at h
        split at h <;> cases h
      · obtain ⟨f, hf⟩ := World.act_error h
        cases hf
      · cases h

end Turn

/-! ## Calls that the server survives -/

section Survival

variable {cfg : Config} {w : World} {act : Act} {fn : RPCFunction} {index : ℕ} {cenv env : Env}
  {resbuf : List Byte} {ackPort client : Word} {request : Message}

/-- `rpc_dispatch` gets past the message it faces: it does not panic at its `msgrecv`, and no
assertion of the marshaller fails, with what the handler leaves in `env`. -/
def Survives (cfg : Config) (w : World) (act : Act) (env : Env) (resbuf : List Byte) : Prop :=
  ∃ w₁ w₂, step cfg w act = .ok w₁ ∧ acceptRequest w₁ = .ok w₂ ∧
    ∀ fault, handleRequest cfg w₂ env resbuf ≠ .error (.code fault)

/-- The server gets past a message that fits, if the marshaller gets to its end. -/
theorem Faces.survives_iff_marshals {m : Message} {log : List (String × Datum)} (h : Faces cfg w act m)
    (hk : Honest w.kernel) (hm : m.Intact) (hfn : fn.Accepted)
    (hcase : caseFor m.code 0 cfg.interface = some fn) (hlog : marshallArgs fn m = .ok log) :
    Survives cfg w act env resbuf ↔
      m.size ≤ dispatchBufferSize ∧ ∃ reply, marshallReply fn env resbuf = .ok reply := by
  obtain ⟨w₁, outcome, hstep, hphase, hout, hreceipt⟩ := h.step hk
  have haccept := acceptRequest_eq hm hphase hout hreceipt
  have hphase₂ : (w₁.goto w₁.pid (.handling m)).phase = .handling m := by
    simp [World.phase, World.goto, World.pid]
  have hhandle : (∀ fault, handleRequest cfg (w₁.goto w₁.pid (.handling m)) env resbuf ≠
      .error (.code fault)) ↔ ∃ reply, marshallReply fn env resbuf = .ok reply :=
    handleRequest_iff hfn hphase₂ hcase hlog
  constructor
  · rintro ⟨w₁', w₂, hstep', haccept', hrest⟩
    cases hstep.symm.trans hstep'
    rw [haccept] at haccept'
    split at haccept'
    · cases haccept'
      exact ⟨‹_›, hhandle.mp hrest⟩
    · cases haccept'
  · rintro ⟨hsize, hreply⟩
    rw [if_pos hsize] at haccept
    exact ⟨w₁, _, hstep, haccept, hhandle.mpr hreply⟩

/-- **Sizes.** For every interface and every function of it that is accepted, all arguments that a
stub makes a request of, every server that faces the request in any run, and whatever the handler
leaves within the capacities it was given: the server survives the call if and only if the request
and the reply are at most 4096 bytes with their headers. -/
theorem survives_iff (hw : Reach (step cfg) (fun _ _ => True) boot w)
    (hcodes : cfg.interface.length < 2 ^ 32) (hindex : cfg.interface[index]? = some fn)
    (hfn : fn.Accepted) (hargs : ∀ arg ∈ fn.args, arg.type.modifier ≠ .out → ArgSet cenv arg)
    (hrequest : stubRequest fn index cenv ackPort = .ok request)
    (hfaces : Faces cfg w act ((libMsgsend request).stamp client))
    (hhandler : ∀ log, marshallArgs fn ((libMsgsend request).stamp client) = .ok log →
      HandlerSet fn log env) (hbuf : resbuf.length = replyRoom) :
    Survives cfg w act env resbuf ↔
      requestSize cenv fn ≤ dispatchBufferSize ∧ answerSize env fn ≤ dispatchBufferSize := by
  obtain ⟨-, hcode, hdata⟩ := stubRequest_eq_ok hfn.takes hargs hrequest
  have hcase : caseFor ((libMsgsend request).stamp client).code 0 cfg.interface = some fn := by
    have := caseFor_messageCode hindex (show 0 + cfg.interface.length < 2 ^ 32 by omega)
    rwa [Nat.zero_add, ← hcode] at this
  have hlog : marshallArgs fn ((libMsgsend request).stamp client) =
      .ok (fn.args.flatMap (argData cenv)) := marshallArgs_request hfn.takes hargs hdata
  have hsize : ((libMsgsend request).stamp client).size = requestSize cenv fn := by
    rw [← length_requestBytes hargs, ← hdata]
    rfl
  rw [hfaces.survives_iff_marshals (honest_of_reach hw) (Message.stamp_intact _ _) hfn hcase hlog, hsize,
    marshallReply_iff hfn (hhandler _ hlog) hbuf]

end Survival

/-! ## A call for 4096 bytes -/

/-- `void get(out blob b)`. -/
def getFunction : RPCFunction := ⟨"get", ⟨.void, .null⟩, [⟨"b", ⟨.blob, .out⟩⟩]⟩

def getConfig : Config := ⟨[getFunction], 5⟩

/-- The caller offers a buffer of 4096 bytes. -/
def getEnv : Env := ⟨fun _ => .int 0, fun _ => 4096⟩

/-- The request that the stub makes. -/
def getRequest : Message := ⟨0, 0, 33, 1, [66, 0, 16, 0, 0], by decide⟩

/-- The handler returns `n` bytes. -/
def gotEnv (n : ℕ) : Env := ⟨fun _ => .memory (List.replicate n 0), fun _ => BitVec.ofNat 32 n⟩

theorem getFunction_accepted : getFunction.Accepted := ⟨⟨_, rfl⟩, ⟨_, rfl⟩, by decide⟩

theorem getFunction_argSet :
    ∀ arg ∈ getFunction.args, arg.type.modifier ≠ .out → ArgSet getEnv arg := by
  intro arg harg hout
  cases List.mem_singleton.mp harg
  exact absurd rfl hout

theorem stubRequest_get : stubRequest getFunction 0 getEnv 33 = .ok getRequest := by decide +kernel

theorem marshallArgs_get : marshallArgs getFunction ((libMsgsend getRequest).stamp 2) =
    .ok [("b", .capacity 4096)] := by decide +kernel

theorem handlerSet_got {n : ℕ} (hn : n ≤ 4096) {log : List (String × Datum)}
    (hlog : marshallArgs getFunction ((libMsgsend getRequest).stamp 2) = .ok log) :
    HandlerSet getFunction log (gotEnv n) := by
  cases marshallArgs_get.symm.trans hlog
  refine ⟨trivial, fun arg harg _ => ?_⟩
  cases List.mem_singleton.mp harg
  refine ⟨List.replicate n 0, rfl, ?_, ?_⟩
  · rw [List.length_replicate]
    exact hn
  · rw [List.length_replicate]
    exact Nat.mod_le _ _

/-- In `rpc_dispatch`, at its `msgrecv`. -/
def Phase.IsAwaiting : Phase → Prop
  | .awaiting => True
  | _ => False

instance : DecidablePred Phase.IsAwaiting
  | .awaiting => .isTrue trivial
  | .idle | .sending _ | .receiving _ | .ready | .handling _ | .replying => .isFalse id

theorem Phase.IsAwaiting.eq {phase : Phase} (h : phase.IsAwaiting) : phase = .awaiting := by
  cases phase with
  | awaiting => rfl
  | idle | sending | receiving | ready | handling | replying => exact h.elim

/-- The server sleeps in its `msgrecv`, the child calls the stub, and the server goes on. -/
theorem exists_faces_get : ∃ w, Reach (step getConfig) (fun _ _ => True) boot w ∧
    Faces getConfig w .resume ((libMsgsend getRequest).stamp 2) := by
  obtain ⟨w, hw, hphase, hctx, hne, hport, hsender⟩ :=
    Reach.exists_of_run (step getConfig) (fun _ _ => True) boot
      [.other .fork, .openAckPort, .other (.portopen 5), .serve, .receiveRequest, .openAckPort,
        .beginCall 0 getEnv]
      (fun w => w.phase.IsAwaiting ∧
        w.kernel.sched.current.context = .recv 1 5 dispatchBufferSize true ∧
        w.kernel.sched.current.pid ≠ w.kernel.sched.idle.pid ∧
        (w.kernel.table.ports[1]?).map Port.queue = some [(libMsgsend getRequest).stamp 2] ∧
        (Scheduler.taskGet w.kernel.sched 2).isSome = true) (by decide +kernel)
  obtain ⟨port, hp, hq⟩ := Option.map_eq_some_iff.mp hport
  exact ⟨w, hw, ⟨.resume, 1, port, [], ⟨hphase.eq, rfl⟩, ⟨hne, hp, 5, true, .inr ⟨rfl, hctx⟩⟩, hq⟩,
    Scheduler.taskGet_isSome_iff.mp hsender⟩

/-- The server survives the call if the handler returns 100 bytes. -/
theorem survives_get : ∃ w, Faces getConfig w .resume ((libMsgsend getRequest).stamp 2) ∧
    Survives getConfig w .resume (gotEnv 100) (List.replicate replyRoom 0) := by
  obtain ⟨w, hw, hfaces⟩ := exists_faces_get
  have hindex : getConfig.interface[0]? = some getFunction := rfl
  have hiff := survives_iff hw (by decide) hindex getFunction_accepted getFunction_argSet
    stubRequest_get hfaces (fun log => handlerSet_got (show 100 ≤ 4096 by decide))
    (List.length_replicate (a := (0 : Byte)) (n := replyRoom))
  exact ⟨w, hfaces, hiff.mpr (by decide +kernel)⟩

/-- The handler fills the buffer of 4096 bytes: the reply has five bytes more, and the server stops
at an assertion. -/
theorem not_survives_full : ¬ ∀ cfg w act fn index cenv env resbuf ackPort client request,
    Reach (step cfg) (fun _ _ => True) boot w → cfg.interface.length < 2 ^ 32 →
    cfg.interface[index]? = some fn → fn.Accepted →
    (∀ arg ∈ fn.args, arg.type.modifier ≠ .out → ArgSet cenv arg) →
    stubRequest fn index cenv ackPort = .ok request →
    Faces cfg w act ((libMsgsend request).stamp client) →
    (∀ log, marshallArgs fn ((libMsgsend request).stamp client) = .ok log →
      HandlerSet fn log env) → resbuf.length = replyRoom → Survives cfg w act env resbuf := by
  intro hall
  obtain ⟨w, hw, hfaces⟩ := exists_faces_get
  have hset : ∀ log, marshallArgs getFunction ((libMsgsend getRequest).stamp 2) = .ok log →
      HandlerSet getFunction log (gotEnv 4096) := fun log => handlerSet_got le_rfl
  have hlen : (List.replicate replyRoom (0 : Byte)).length = replyRoom := List.length_replicate
  have hsurvives := hall getConfig w .resume getFunction 0 getEnv (gotEnv 4096)
    (List.replicate replyRoom 0) 33 2 getRequest hw (by decide) rfl getFunction_accepted
    getFunction_argSet stubRequest_get hfaces hset hlen
  have hreply := ((hfaces.survives_iff_marshals (honest_of_reach hw) (Message.stamp_intact _ _)
    getFunction_accepted rfl marshallArgs_get).mp hsurvives).2
  rw [marshallReply_iff getFunction_accepted (hset _ marshallArgs_get) hlen] at hreply
  exact absurd hreply (by decide +kernel)

end Rastapopoulos.Rpc
