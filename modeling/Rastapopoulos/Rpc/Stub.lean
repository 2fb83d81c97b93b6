import Mathlib.Algebra.Order.BigOperators.Group.List
import Mathlib.Algebra.Order.Group.Nat
import Rastapopoulos.Ipc.Kernel
import Rastapopoulos.Rpc.Request

/-!
# Stubs and marshallers

The client stub of a function as `generate_client_marshaller` puts it together, up to its two system
calls: the request it sends (`stubRequest`), the size of the buffer it receives the reply in
(`stubReceiveSize`), and what it makes of the reply (`stubResult`). On the server's side the
`switch` of `rpc_dispatch` (`caseFor`) and the two halves of a marshaller, before and after the call
of the handler (`marshallArgs`, `marshallReply`).

For a call whose arguments are set and a handler that has set what it is to set, the reply fits in
the buffer that the stub offers, and the stub takes it apart without a failed assertion
(`marshallReply_accepted`).
-/

namespace Rastapopoulos.Rpc

open Cursor

open Ipc (Message)

/-- Why a program does not go on. -/
inductive RpcFault
  /-- `rpcgen` does not emit the code. -/
  | generator
  /-- The emitted code stops. -/
  | code (fault : Fault)
  /-- There is no memory for a buffer. -/
  | noMemory
  /-- A panic of `rpc_dispatch`, or the assertion of the library's `msgrecv`. -/
  | panic
  /-- The kernel stops. -/
  | kernel (fault : Ipc.Fault)
  /-- A step that the current task does not take where it is. -/
  | stuck
  deriving DecidableEq

/-- Code that `rpcgen` is to emit. -/
def emitted {α : Type} (x : Except GenFault α) : Except RpcFault α := x.mapError fun _ => .generator

/-- Emitted code that runs. -/
def running {α : Type} (x : Except Fault α) : Except RpcFault α := x.mapError .code

@[simp] theorem emitted_eq_ok {α : Type} {x : Except GenFault α} {a : α} :
    emitted x = .ok a ↔ x = .ok a := mapError_eq_ok

@[simp] theorem running_eq_ok {α : Type} {x : Except Fault α} {a : α} :
    running x = .ok a ↔ x = .ok a := mapError_eq_ok

/-- A message with these contents, before `msgsend` sees it. -/
def newMessage (replyPort code : Word) (data : List Byte) : Except RpcFault Message :=
  if h : data.length + 4096 ≤ 2 ^ 32 then .ok ⟨0, 0, replyPort, code, data, h⟩ else .error .noMemory

variable {m : Message} {fn : RPCFunction} {fns : List RPCFunction}

theorem newMessage_eq_ok {replyPort code : Word} {data : List Byte}
    (h : newMessage replyPort code data = .ok m) :
    m.replyPort = replyPort ∧ m.code = code ∧ m.data = data := by
  unfold newMessage at h
  split at h
  · cases h
    exact ⟨rfl, rfl, rfl⟩
  · exact nomatch h

/-! ## The client -/

/-- `MSG_F`, for the function with this index in the interface. -/
def messageCode (index : ℕ) : Word := BitVec.ofNat 32 (index + 1)

/-- The stub up to its `msgsend`. The memory it gets from `malloc` is overwritten. -/
def stubRequest (fn : RPCFunction) (index : ℕ) (env : Env) (rpcReplyPort : Word) :
    Except RpcFault Message := do
  let sizes ← emitted (generateSendSizes fn)
  let code ← emitted (generateArgSerializer fn)
  let sndbufSize := evalSizes env sizes (BitVec.ofNat 32 headerSize)
  let len := sndbufSize - BitVec.ofNat 32 headerSize
  let data := List.replicate (sndbufSize.toNat - headerSize) 0
  let s ← running (execWrite env code ⟨[], data, len⟩)
  newMessage rpcReplyPort (messageCode index) ((s.before ++ s.rest).take len.toNat)

/-- The additions to `rcvbuf_size` for the result. -/
def resultSizes : TypeName → Except GenFault (List SizeExpr)
  | .void => .ok []
  | .int => .ok [.const 1, .const 4]
  | .long => .ok [.const 1, .const 8]
  | .string | .blob => .error .abort

/-- The additions to `rcvbuf_size` for an argument. -/
def outSizes (arg : RPCArgument) : Except GenFault (List SizeExpr) :=
  let x := arg.name
  if arg.type.modifier = .out then
    match arg.type.type with
    | .int => .ok [.const 1, .const 4]
    | .string => .ok [.const 1, .const 4, .size x]
    | .long => .ok [.const 1, .const 8]
    | .blob => .ok [.const 1, .const 4, .size x]
    | .void => .error .abort
  else .ok []

/-- The additions to `rcvbuf_size`. -/
def generateReceiveSizes (fn : RPCFunction) : Except GenFault (List SizeExpr) := do
  let result ← resultSizes fn.returnType.type
  let outs ← emitAll outSizes fn.args
  return result ++ outs

/-- `rcvbuf_size`. -/
def stubReceiveSize (fn : RPCFunction) (env : Env) : Except RpcFault ℕ := do
  let sizes ← emitted (generateReceiveSizes fn)
  return (evalSizes env sizes (BitVec.ofNat 32 headerSize)).toNat

/-- The stub from its `msgrecv` on: what the caller's variables get from the reply. The buffer was
zero before. -/
def stubResult (fn : RPCFunction) (env : Env) (rcvbufSize : ℕ) (reply : Message) :
    Except RpcFault (List (String × Datum)) := do
  let reader ← emitted (generateResultDeserializer fn)
  let rcvbuf := reply.data ++ List.replicate (rcvbufSize - reply.size) 0
  let s ← running (execRead env reader ⟨rcvbuf, reply.len, 0, []⟩)
  return s.log

/-! ## The server -/

/-- The size of the two buffers of `rpc_dispatch`. -/
def dispatchBufferSize : ℕ := 4096

/-- The `switch` of `rpc_dispatch`, whose labels are counted from `index`. -/
def caseFor (code : Word) : ℕ → List RPCFunction → Option RPCFunction
  | _, [] => none
  | index, fn :: fns => if code = messageCode index then some fn else caseFor code (index + 1) fns

theorem caseFor_mem {code : Word} {start : ℕ}
    (h : caseFor code start fns = some fn) : fn ∈ fns := by
  induction fns generalizing start with
  | nil => cases h
  | cons fn' fns ih =>
    rw [caseFor] at h
    split at h
    · cases h
      exact .head _
    · exact .tail _ (ih h)

/-- A marshaller up to the call of the handler: the arguments, and the sizes of the buffers that the
caller offers. -/
def marshallArgs (fn : RPCFunction) (request : Message) :
    Except RpcFault (List (String × Datum)) := do
  let reader ← emitted (generateArgDeserializer fn)
  let rcvBuf := request.data ++ List.replicate (dispatchBufferSize - request.size) 0
  let s ← running (execRead ⟨fun _ => .int 0, fun _ => 0⟩ reader ⟨rcvBuf, request.len, 0, []⟩)
  return s.log

/-- A marshaller from the return of the handler on. -/
def marshallReply (fn : RPCFunction) (env : Env) (resbuf : List Byte) :
    Except RpcFault (Option (List Byte)) := do
  let code ← emitted (generateResultSerializer fn)
  running (code.run env resbuf)

/-! ## Calls and handlers that keep their side -/

def RPCFunction.OneWay (fn : RPCFunction) : Prop := fn.returnType.modifier = .oneWay

instance (fn : RPCFunction) : Decidable fn.OneWay := inferInstanceAs (Decidable (_ = _))

/-- The signatures in question: not `oneway`, or `oneway` and with nothing to send back. As C has
it, no two arguments have the same name. -/
structure RPCFunction.Sound (fn : RPCFunction) : Prop where
  result : fn.returnType.type = .void ∨ fn.returnType.type = .int ∨ fn.returnType.type = .long
  args : fn.Takes
  names : (fn.args.map RPCArgument.name).Nodup
  oneWay : fn.OneWay → fn.returnType.type = .void ∧ ∀ arg ∈ fn.args, arg.type.modifier ≠ .out

theorem RPCFunction.Sound.answers (h : fn.Sound) (hfn : ¬ fn.OneWay) :
    fn.Answers := ⟨h.result, hfn, h.args⟩

/-- From `USER_START` to `USER_END`. -/
def userMemory : ℕ := 0xBFFFF000

/-- The size of the buffer that a caller offers for an argument. -/
def offered (env : Env) (arg : RPCArgument) : ℕ :=
  if arg.type.modifier = .out ∧ (arg.type.type = .string ∨ arg.type.type = .blob) then
    (env.size arg.name).toNat
  else 0

/-- The caller has set the arguments, and the buffers it offers are disjoint parts of its memory. -/
structure CallSet (fn : RPCFunction) (env : Env) : Prop where
  args : ∀ arg ∈ fn.args, arg.type.modifier ≠ .out → ArgSet env arg
  offered : (fn.args.map (offered env)).sum ≤ userMemory

/-- The size that a marshaller has read for an out parameter. -/
def capacityIn (log : List (String × Datum)) (x : String) : Word :=
  match log.lookup x with
  | some (.capacity n) => n
  | _ => 0

/-- The handler has returned, and has set the out parameters within the sizes it was given. -/
structure HandlerSet (fn : RPCFunction) (log : List (String × Datum)) (env : Env) : Prop where
  result : ResultSet env fn.returnType.type
  outs : ∀ arg ∈ fn.args, arg.type.modifier = .out → OutSet env (capacityIn log arg.name) arg

/-! ## The request -/

section Request

variable {fn : RPCFunction} {env : Env} {index : ℕ} {rpcReplyPort : Word} {m : Message}

/-- **The request** that a stub sends. -/
theorem stubRequest_eq_ok (hfn : fn.Takes)
    (hargs : ∀ arg ∈ fn.args, arg.type.modifier ≠ .out → ArgSet env arg)
    (h : stubRequest fn index env rpcReplyPort = .ok m) :
    m.replyPort = rpcReplyPort ∧ m.code = messageCode index ∧ m.data = requestBytes env fn := by
  obtain ⟨sizes, code, -, hsizes, hcode, -, heval, hw, -⟩ := request_code hfn hargs env
  simp only [stubRequest, bind_eq_ok, emitted_eq_ok, running_eq_ok] at h
  obtain ⟨sizes', hsizes', code', hcode', s, hrun, hm⟩ := h
  cases hsizes.symm.trans hsizes'
  cases hcode.symm.trans hcode'
  obtain ⟨hport, hmcode, hdata⟩ := newMessage_eq_ok hm
  refine ⟨hport, hmcode, hdata.trans ?_⟩
  obtain ⟨hle, rfl⟩ := hw.sound _ _ hrun
  rw [List.length_replicate] at hle
  -- had the size wrapped around, the first byte beyond it would not have been written
  have hlen : (evalSizes env sizes (BitVec.ofNat 32 headerSize) -
      BitVec.ofNat 32 headerSize).toNat = (requestBytes env fn).length := by
    rw [heval, BitVec.ofNat_add, add_sub_cancel_left, BitVec.toNat_ofNat]
    omega
  rw [hlen, Writer.put, List.nil_append, List.take_left' rfl]

/-- A request that memory can hold is sent. -/
theorem exists_stubRequest (hfn : fn.Takes)
    (hargs : ∀ arg ∈ fn.args, arg.type.modifier ≠ .out → ArgSet env arg)
    (hfit : (requestBytes env fn).length + 4096 ≤ 2 ^ 32) :
    ∃ m, stubRequest fn index env rpcReplyPort = .ok m := by
  obtain ⟨sizes, code, -, hsizes, hcode, -, heval, hw, -⟩ := request_code hfn hargs env
  have hnat : (evalSizes env sizes (BitVec.ofNat 32 headerSize)).toNat =
      headerSize + (requestBytes env fn).length := by
    rw [heval, BitVec.toNat_ofNat]
    unfold headerSize
    omega
  have hlen : (evalSizes env sizes (BitVec.ofNat 32 headerSize) -
      BitVec.ofNat 32 headerSize).toNat = (requestBytes env fn).length := by
    rw [heval, BitVec.ofNat_add, add_sub_cancel_left, BitVec.toNat_ofNat]
    omega
  have hrun := hw.total ⟨[], List.replicate ((evalSizes env sizes
    (BitVec.ofNat 32 headerSize)).toNat - headerSize) 0, evalSizes env sizes
    (BitVec.ofNat 32 headerSize) - BitVec.ofNat 32 headerSize⟩
    (by rw [List.length_replicate, hnat, Nat.add_sub_cancel_left]) hlen.ge
  simp only [stubRequest, hsizes, hcode, emitted, running, mapError_ok, ok_bind, hrun]
  refine ⟨_, dif_pos ?_⟩
  rw [List.length_take]
  omega

theorem caseFor_messageCode {start : ℕ} (hfn : fns[index]? = some fn)
    (hlt : start + fns.length < 2 ^ 32) :
    caseFor (messageCode (start + index)) start fns = some fn := by
  induction fns generalizing start index with
  | nil => exact nomatch hfn
  | cons f fns ih =>
    rw [List.length_cons] at hlt
    cases index with
    | zero =>
      cases hfn
      exact if_pos rfl
    | succ index =>
      have hbound : index < fns.length :=
        Nat.lt_of_succ_lt_succ (List.getElem?_eq_some_iff.mp hfn).1
      have hne : messageCode (start + (index + 1)) ≠ messageCode start := by
        intro heq
        have := congrArg BitVec.toNat heq
        simp only [messageCode, BitVec.toNat_ofNat] at this
        omega
      rw [caseFor, if_neg hne, show start + (index + 1) = start + 1 + index by omega]
      exact ih hfn (by omega)

/-- The marshaller gets the arguments out of the request. -/
theorem marshallArgs_request (hfn : fn.Takes)
    (hargs : ∀ arg ∈ fn.args, arg.type.modifier ≠ .out → ArgSet env arg)
    (hdata : m.data = requestBytes env fn) :
    marshallArgs fn m = .ok (fn.args.flatMap (argData env)) := by
  obtain ⟨-, -, reader, -, -, hreader, -, -, hreads⟩ :=
    request_code hfn hargs ⟨fun _ => .int 0, fun _ => 0⟩
  obtain ⟨size, hread⟩ := hreads
    ⟨m.data ++ List.replicate (dispatchBufferSize - m.size) 0, m.len, 0, []⟩ _
    (by rw [hdata]) (by rw [Ipc.Message.toNat_len, hdata])
  simp only [marshallArgs, hreader, emitted, running, mapError_ok, hread, ok_bind, pure_eq_ok,
    List.nil_append]

end Request

/-! ## What the marshaller reads of the sizes -/

section Capacity

variable {env senv : Env} {arg : RPCArgument} {args : List RPCArgument}

theorem argData_cases (env : Env) (arg : RPCArgument) :
    argData env arg = [] ∨ ∃ d, argData env arg = [(arg.name, d)] := by
  unfold argData
  split <;> split <;> simp

theorem lookup_argData_of_ne {x : String} (hx : arg.name ≠ x) :
    (argData env arg).lookup x = none := by
  rcases argData_cases env arg with h | ⟨d, h⟩
  · rw [h]
    rfl
  · rw [h, List.lookup_cons, beq_false_of_ne (Ne.symm hx)]
    rfl

theorem lookup_flatMap_argData {d : Datum} (hnames : (args.map RPCArgument.name).Nodup)
    (harg : arg ∈ args) (hd : argData env arg = [(arg.name, d)]) :
    (args.flatMap (argData env)).lookup arg.name = some d := by
  induction args with
  | nil => exact nomatch harg
  | cons a args ih =>
    rw [List.map_cons, List.nodup_cons] at hnames
    rw [List.flatMap_cons, List.lookup_append]
    rcases List.mem_cons.mp harg with rfl | harg
    · rw [hd, List.lookup_cons, beq_self_eq_true]
      rfl
    · have hne : a.name ≠ arg.name := fun heq => hnames.1 (heq ▸ List.mem_map_of_mem harg)
      rw [lookup_argData_of_ne hne]
      exact ih hnames.2 harg

/-- The marshaller has read the sizes that the caller offers, and a handler that keeps to them keeps
to what the caller offers. -/
theorem HandlerSet.outSet (hfn : fn.Sound)
    (h : HandlerSet fn (fn.args.flatMap (argData env)) senv) (harg : arg ∈ fn.args)
    (hout : arg.type.modifier = .out) : OutSet senv (env.size arg.name) arg := by
  have hset := h.outs arg harg hout
  have hcap : arg.type.type = .string ∨ arg.type.type = .blob →
      capacityIn (fn.args.flatMap (argData env)) arg.name = env.size arg.name := by
    intro htype
    have hd : argData env arg = [(arg.name, .capacity (env.size arg.name))] := by
      rcases htype with htype | htype <;> simp [argData, hout, htype]
    rw [capacityIn, lookup_flatMap_argData hfn.names harg hd]
  unfold OutSet at hset ⊢
  cases htype : arg.type.type <;> simp only [htype] at hset ⊢
  case int | long => exact hset
  case string => rwa [hcap (.inl htype)] at hset
  case blob => rwa [hcap (.inr htype)] at hset

end Capacity

/-! ## The buffer for the reply -/

section Room

variable {env senv : Env} {arg : RPCArgument} {fn : RPCFunction}

/-- The bytes that the stub reckons with for an argument. -/
def outRoom (env : Env) (arg : RPCArgument) : ℕ :=
  if arg.type.modifier = .out then
    match arg.type.type with
    | .int => 5
    | .string | .blob => 4 + (env.size arg.name).toNat + 1
    | .long => 9
    | .void => 0
  else 0

theorem outSizes_eval (hvoid : arg.type.type ≠ .void) :
    ∃ sizes, outSizes arg = .ok sizes ∧
      ∀ start, evalSizes env sizes start = start + BitVec.ofNat 32 (outRoom env arg) := by
  by_cases hout : arg.type.modifier = .out
  · cases htype : arg.type.type <;> simp only [outSizes, outRoom, hout, htype]
    case int | long =>
      exact ⟨_, rfl, fun start => by simp [evalSizes, SizeExpr.eval, BitVec.add_assoc]⟩
    case string | blob => exact ⟨_, rfl, fun start => evalSizes_sized _ start⟩
    case void => exact absurd htype hvoid
  · exact ⟨[], by simp [outSizes, hout], fun start => by simp [evalSizes, outRoom, hout]⟩

theorem resultSizes_eval (env : Env) {type : TypeName}
    (htype : type = .void ∨ type = .int ∨ type = .long) :
    ∃ sizes, resultSizes type = .ok sizes ∧
      ∀ start, evalSizes env sizes start = start + BitVec.ofNat 32 (resultSize type) := by
  rcases htype with rfl | rfl | rfl
  · exact ⟨[], rfl, fun start => by simp [evalSizes, resultSize]⟩
  · exact ⟨_, rfl, fun start => by simp [evalSizes, SizeExpr.eval, resultSize, BitVec.add_assoc]⟩
  · exact ⟨_, rfl, fun start => by simp [evalSizes, SizeExpr.eval, resultSize, BitVec.add_assoc]⟩

/-- `rcvbuf_size`, as a `size_t`. -/
theorem stubReceiveSize_eq (hfn : fn.Answers) (env : Env) :
    stubReceiveSize fn env = .ok ((headerSize + (resultSize fn.returnType.type +
      (fn.args.map (outRoom env)).sum)) % 2 ^ 32) := by
  obtain ⟨sizes₁, hsizes₁, heval₁⟩ := resultSizes_eval env hfn.result
  have houts : ∃ sizes, emitAll outSizes fn.args = .ok sizes ∧ ∀ start,
      evalSizes env sizes start = start + BitVec.ofNat 32 (fn.args.map (outRoom env)).sum :=
    emitAll_sizes fun arg harg => outSizes_eval (hfn.args arg harg).1
  obtain ⟨sizes₂, hsizes₂, heval₂⟩ := houts
  have happ : evalSizes env (sizes₁ ++ sizes₂) (BitVec.ofNat 32 headerSize) =
    evalSizes env sizes₂ (evalSizes env sizes₁ (BitVec.ofNat 32 headerSize)) := List.foldl_append
  simp only [stubReceiveSize, generateReceiveSizes, hsizes₁, hsizes₂, ok_bind, pure_eq_ok, emitted,
    mapError_ok, happ, heval₂, heval₁, ← BitVec.ofNat_add, BitVec.toNat_ofNat, Nat.add_assoc]

/-- What a handler may send back fits in what the stub reckons with. -/
theorem length_outBytes_le (hset : arg.type.modifier = .out → OutSet senv (env.size arg.name) arg) :
    (outBytes senv arg).length ≤ outRoom env arg := by
  by_cases hout : arg.type.modifier = .out
  · have hset := hset hout
    cases htype : arg.type.type <;>
      simp only [outBytes, outRoom, OutSet, hout, htype, if_true, List.length_cons,
        List.length_append, length_leBytes, List.length_take] at hset ⊢
    case int | long | void => simp
    case string | blob =>
      obtain ⟨bytes, hval, hlen, -⟩ := hset
      rw [hval]
      simp only [Value.bytes]
      omega
  · simp [outBytes, hout]

/-- The stub reckons with what comes back, what went out, and what it offers. -/
theorem outRoom_le (env senv : Env) (arg : RPCArgument) :
    outRoom env arg ≤ (outBytes senv arg).length + (argBytes env arg).length + offered env arg := by
  by_cases hout : arg.type.modifier = .out
  · cases htype : arg.type.type <;>
      simp only [outRoom, outBytes, argBytes, offered, hout, htype, if_true, if_false, ne_eq,
        not_true, reduceCtorEq, or_self, or_false, or_true, and_self, and_false, List.length_cons,
        List.length_append, List.length_nil, length_leBytes]
    case int | long | void => omega
    case string | blob => omega
  · simp [outRoom, hout]

end Room

/-! ## The reply -/

/-- The stub takes the reply: it fits in the buffer, and no assertion fails on it. -/
def Accepts (fn : RPCFunction) (env : Env) (data : List Byte) : Prop :=
  ∃ size, stubReceiveSize fn env = .ok size ∧ headerSize + data.length ≤ size ∧
    ∀ reply : Message, reply.data = data → ∃ results, stubResult fn env size reply = .ok results

section Reply

variable {fn : RPCFunction} {env senv : Env} {resbuf : List Byte} {reply : Option (List Byte)}

theorem marshallReply_oneWay (hfn : fn.Sound) (hone : fn.OneWay)
    (h : marshallReply fn senv resbuf = .ok reply) : reply = none := by
  obtain ⟨hvoid, hout⟩ := hfn.oneWay hone
  have hcode : generateResultSerializer fn = .ok .minusOne := by
    rw [generateResultSerializer, if_neg, if_pos (show fn.returnType.modifier = .oneWay from hone)]
    rintro (h | ⟨arg, harg, h⟩)
    · exact h hvoid
    · exact hout arg harg h
  simp only [marshallReply, hcode] at h
  cases h
  rfl

/-- The data of the reply, exactly when it fits. -/
theorem marshallReply_eq_ok (hfn : fn.Answers)
    (houts : ∀ arg ∈ fn.args, arg.type.modifier = .out → OutSet senv (env.size arg.name) arg)
    (hbuf : resbuf.length = replyRoom) : marshallReply fn senv resbuf = .ok reply ↔
      replySize senv fn ≤ replyRoom ∧ reply = some (replyBytes senv resbuf fn) := by
  obtain ⟨code, answer, hcode, hanswer, hrun⟩ := resultSerializer_iff hfn.result
    (fun arg harg => (hfn.args arg harg).1) houts (show resbuf.length < 2 ^ 32 by rw [hbuf]; decide)
  obtain rfl := hanswer hfn.modifier
  simp only [marshallReply, hcode, emitted, mapError_ok, ok_bind, running_eq_ok, hrun, hbuf]

/-- What the stub gets from it. -/
theorem stubResult_eq {size : ℕ} (hfn : fn.Answers)
    (houts : ∀ arg ∈ fn.args, arg.type.modifier = .out → OutSet senv (env.size arg.name) arg)
    (hfit : replySize senv fn ≤ resbuf.length) (hm : m.data = replyBytes senv resbuf fn) :
    stubResult fn env size m =
      .ok (resultGot senv resbuf fn.returnType.type ++ fn.args.flatMap (outData senv)) := by
  obtain ⟨reader, hreader, hreads⟩ := resultDeserializer_reads hfn houts hfit
  obtain ⟨last, hread⟩ := hreads ⟨m.data ++ List.replicate (size - m.size) 0, m.len, 0, []⟩ _
    (by rw [hm]) (by rw [Ipc.Message.toNat_len, hm])
  simp only [stubResult, hreader, emitted, running, mapError_ok, hread, ok_bind, pure_eq_ok,
    List.nil_append]

theorem sum_outRoom_le (env senv : Env) (args : List RPCArgument) :
    (args.map (outRoom env)).sum ≤ (args.flatMap (outBytes senv)).length +
      (args.flatMap (argBytes env)).length + (args.map (offered env)).sum := by
  induction args with
  | nil => exact Nat.zero_le _
  | cons arg args ih =>
    have := outRoom_le env senv arg
    simp only [List.map_cons, List.sum_cons, List.flatMap_cons, List.length_append]
    omega

/-- **The reply is accepted.** The handler of a two-way function that was given the arguments of a
call and has set what it is to set: the marshaller makes a reply of it, and the caller's stub takes
it. -/
theorem marshallReply_accepted {request : Message} {log : List (String × Datum)} (hfn : fn.Sound)
    (htwo : ¬ fn.OneWay) (hcall : CallSet fn env) (hdata : request.data = requestBytes env fn)
    (hsize : request.size ≤ dispatchBufferSize) (hargs : marshallArgs fn request = .ok log)
    (hset : HandlerSet fn log senv) (hbuf : resbuf.length = replyRoom)
    (h : marshallReply fn senv resbuf = .ok reply) :
    ∃ data, reply = some data ∧ Accepts fn env data := by
  rw [marshallArgs_request hfn.args hcall.args hdata, Except.ok.injEq] at hargs
  subst hargs
  have hans := hfn.answers htwo
  have houts : ∀ arg ∈ fn.args, arg.type.modifier = .out → OutSet senv (env.size arg.name) arg :=
    fun arg harg => hset.outSet hfn harg
  obtain ⟨hfit, rfl⟩ := (marshallReply_eq_ok hans houts hbuf).mp h
  have hle : (fn.args.flatMap (outBytes senv)).length ≤ (fn.args.map (outRoom env)).sum := by
    rw [List.length_flatMap]
    exact List.sum_le_sum fun arg harg => length_outBytes_le (houts arg harg)
  -- the request went through a buffer of 4096 bytes, and so does the reply
  have hroom := sum_outRoom_le env senv fn.args
  have hoff := hcall.offered
  have hreq : 28 + (fn.args.flatMap (argBytes env)).length ≤ 4096 := by
    have : request.data.length = (fn.args.flatMap (argBytes env)).length := by rw [hdata]; rfl
    rw [← this]
    exact hsize
  have hmod : (headerSize + (resultSize fn.returnType.type + (fn.args.map (outRoom env)).sum)) %
      2 ^ 32 = headerSize + (resultSize fn.returnType.type + (fn.args.map (outRoom env)).sum) := by
    simp only [replySize, replyRoom, headerSize, userMemory] at *
    omega
  obtain ⟨size, hsize, hle⟩ : ∃ size, stubReceiveSize fn env = .ok size ∧
      headerSize + (replyBytes senv resbuf fn).length ≤ size := by
    refine ⟨_, stubReceiveSize_eq hans env, ?_⟩
    rw [length_replyBytes (hbuf ▸ hfit), replySize]
    omega
  exact ⟨_, rfl, size, hsize, hle, fun m hm => ⟨_, stubResult_eq hans houts (hbuf ▸ hfit) hm⟩⟩

end Reply

end Rastapopoulos.Rpc
