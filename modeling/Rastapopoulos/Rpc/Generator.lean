import Rastapopoulos.Rpc.Stub

/-!
# What `rpcgen` emits for a function

`generate_client_marshaller` (`gen_client.c`) and `generate_declaration` with `generate_marshaller`
(`gen_server.c`) as a whole, with every place where they stop. Whether the stub waits for a reply
and whether the marshaller has one sent is decided in two files: the stub goes by the modifier of
the function, the marshaller by what there is to send and then by the modifier. The two agree unless
a `oneway` function has an out parameter (`waits_iff_replies_iff`).
-/

namespace Rastapopoulos.Rpc

open Cursor

variable {fn : RPCFunction}

/-! ## Parameters -/

/-- The types of parameters in declarations. -/
inductive CType
  | int
  | long
  | size
  /-- `const char*` -/
  | constChars
  /-- `const void*` -/
  | constVoid
  /-- `int*` -/
  | intOut
  /-- `long long*` -/
  | longOut
  /-- `size_t*` -/
  | sizeOut
  /-- `char*` -/
  | chars
  /-- `void*` -/
  | void
  deriving DecidableEq, Repr

/-- A parameter of a C function. -/
structure CParam where
  type : CType
  name : String
  deriving DecidableEq, Repr

/-- The variable `x_size`. -/
def sizeName (x : String) : String := x ++ "_size"

/-- The parameters for an argument that is passed in. -/
def inParams (x : String) : TypeName → Except GenFault (List CParam)
  | .int => .ok [⟨.int, x⟩]
  | .string => .ok [⟨.constChars, x⟩]
  | .long => .ok [⟨.long, x⟩]
  | .blob => .ok [⟨.constVoid, x⟩, ⟨.size, sizeName x⟩]
  | .void => .error .abort

/-- The parameters for an argument that is passed out. -/
def outParams (x : String) : TypeName → Except GenFault (List CParam)
  | .int => .ok [⟨.intOut, x⟩]
  | .string => .ok [⟨.chars, x⟩, ⟨.size, sizeName x⟩]
  | .long => .ok [⟨.longOut, x⟩]
  | .blob => .ok [⟨.void, x⟩, ⟨.sizeOut, sizeName x⟩]
  | .void => .error .abort

/-! ## The client side -/

/-- The parameters of the stub for the result. -/
def resultParams : TypeName → Except GenFault (List CParam)
  | .void => .ok []
  | .int => .ok [⟨.intOut, "rpc_result"⟩]
  | .long => .ok [⟨.longOut, "rpc_result"⟩]
  | .string | .blob => .error .abort

/-- `generate_client_marshaller_declaration`. -/
def generateClientMarshallerDeclaration (fn : RPCFunction) : Except GenFault (List CParam) := do
  let result ← resultParams fn.returnType.type
  let args ← emitAll (fun arg =>
    if arg.type.modifier ≠ .out then inParams arg.name arg.type.type
    else outParams arg.name arg.type.type) fn.args
  return result ++ [⟨.int, "rpc_port"⟩, ⟨.int, "rpc_reply_port"⟩] ++ args

/-- A stub: its parameters, the code up to its `msgsend`, and the code from its `msgrecv` on, if it
has one. -/
structure ClientStub where
  params : List CParam
  sendSizes : List SizeExpr
  serializer : List WriteStmt
  receives : Option (List SizeExpr × List ReadStmt)

def generateClientMarshaller (fn : RPCFunction) : Except GenFault ClientStub := do
  let params ← generateClientMarshallerDeclaration fn
  let sendSizes ← generateSendSizes fn
  let serializer ← generateArgSerializer fn
  if fn.returnType.modifier ≠ .oneWay then
    let receiveSizes ← generateReceiveSizes fn
    let deserializer ← generateResultDeserializer fn
    return ⟨params, sendSizes, serializer, some (receiveSizes, deserializer)⟩
  else
    -- "Invalid return type for oneway function"
    check (fn.returnType.type = .void) .abort
    return ⟨params, sendSizes, serializer, none⟩

/-- The stub waits for a reply. -/
def ClientStub.Waits (stub : ClientStub) : Prop := stub.receives ≠ none

/-! ## The server side -/

/-- The type of the result of a handler. -/
def handlerResult : TypeName → Except GenFault TypeName
  | .void => .ok .void
  | .int => .ok .int
  | .long => .ok .long
  | .string | .blob => .error .abort

/-- `generate_declaration`: the result and the parameters of the handler. For an argument with the
modifier `oneway` only a comma is emitted. -/
def generateDeclaration (fn : RPCFunction) : Except GenFault (TypeName × List CParam) := do
  let result ← handlerResult fn.returnType.type
  let args ← emitAll (fun arg =>
    match arg.type.modifier with
    | .null => inParams arg.name arg.type.type
    | .out => outParams arg.name arg.type.type
    | .oneWay => .ok []) fn.args
  return (result, ⟨.int, "sender_pid"⟩ :: args)

/-- The variables of a marshaller for out parameters. -/
def outVariable (arg : RPCArgument) : Except GenFault (List CParam) :=
  let x := outName arg.name
  if arg.type.modifier = .out then
    match arg.type.type with
    | .int => .ok [⟨.int, x⟩]
    | .string => .ok [⟨.chars, x⟩]
    | .long => .ok [⟨.long, x⟩]
    | .blob => .ok [⟨.void, x⟩]
    | .void => .error .abort
  else .ok []

/-- What a marshaller passes to the handler for an argument. -/
def handlerArg (arg : RPCArgument) : Except GenFault (List String) :=
  let x := "arg_" ++ arg.name
  let out := outName arg.name
  match arg.type.modifier with
  | .null =>
    match arg.type.type with
    | .int | .long | .string => .ok [x]
    | .blob => .ok [x, sizeName x]
    | .void => .error .abort
  | .out =>
    match arg.type.type with
    | .int | .long => .ok ["&" ++ out]
    | .string => .ok [out, sizeName out]
    | .blob => .ok [out, "&" ++ sizeName out]
    | .void => .error .abort
  | .oneWay => .ok []

/-- `generate_handler_call`: the variables, and what is passed. -/
def generateHandlerCall (fn : RPCFunction) : Except GenFault (List CParam × List String) := do
  let outs ← emitAll outVariable fn.args
  let _ ← handlerResult fn.returnType.type
  let args ← emitAll handlerArg fn.args
  return (outs, "sender_pid" :: args)

/-- A marshaller, with the declaration of its handler. -/
structure Marshaller where
  declaration : TypeName × List CParam
  deserializer : List ReadStmt
  call : List CParam × List String
  result : ResultCode

/-- `generate_declaration` and `generate_marshaller`. -/
def generateMarshaller (fn : RPCFunction) : Except GenFault Marshaller := do
  let declaration ← generateDeclaration fn
  let deserializer ← generateArgDeserializer fn
  let call ← generateHandlerCall fn
  let result ← generateResultSerializer fn
  return ⟨declaration, deserializer, call, result⟩

/-- What a marshaller returns, as a `size_t`. -/
def ResultCode.returned (env : Env) (resbuf : List Byte) : ResultCode → Except Fault Word
  | .serialized code => do
    let resbufSize := BitVec.ofNat 32 resbuf.length
    let s ← execWrite env code ⟨[], resbuf, resbufSize⟩
    return resbufSize - s.room
  | .zero => .ok 0
  | .minusOne => .ok (-1)

/-- The marshaller does not end in `return -1`. -/
def Marshaller.Replies (marshaller : Marshaller) : Prop := marshaller.result ≠ .minusOne

/-! ## The value returned -/

section Returned

variable {env : Env} {s s' : Writer 32}

theorem WriteStmt.exec_room {stmt : WriteStmt} (h : stmt.exec env s = .ok s')
    (hs : s.room.toNat = s.rest.length) :
    s'.room.toNat = s'.rest.length ∧ s'.rest.length ≤ s.rest.length := by
  cases stmt with
  | assertRoom n =>
    simp only [WriteStmt.exec, Writer.assertRoom, bind_eq_ok, check_eq_ok, pure_eq_ok,
      Except.ok.injEq] at h
    obtain ⟨-, -, rfl⟩ := h
    exact ⟨hs, le_refl _⟩
  | store offset source =>
    simp only [WriteStmt.exec, Writer.store, bind_eq_ok, check_eq_ok, pure_eq_ok,
      Except.ok.injEq] at h
    obtain ⟨bytes, -, -, hfit, rfl⟩ := h
    have hlen : (s.rest.take offset ++ bytes ++ s.rest.drop (offset + bytes.length)).length =
        s.rest.length := by
      simp only [List.length_append, List.length_take, List.length_drop]
      omega
    exact ⟨hs.trans hlen.symm, le_of_eq hlen⟩
  | advance n =>
    simp only [WriteStmt.exec, Writer.advance, bind_eq_ok, check_eq_ok, pure_eq_ok,
      Except.ok.injEq] at h
    obtain ⟨-, hfit, rfl⟩ := h
    have hle : n.eval env ≤ s.room := by
      rw [BitVec.le_def, hs]
      exact hfit
    refine ⟨?_, by simp⟩
    rw [BitVec.toNat_sub_of_le hle, hs, List.length_drop]

/-- Whatever is written, the count of bytes left is that of the buffer. -/
theorem execWrite_room {code : List WriteStmt} (h : execWrite env code s = .ok s')
    (hs : s.room.toNat = s.rest.length) :
    s'.room.toNat = s'.rest.length ∧ s'.rest.length ≤ s.rest.length := by
  induction code generalizing s with
  | nil =>
    cases h
    exact ⟨hs, le_refl _⟩
  | cons stmt code ih =>
    simp only [execWrite, List.foldlM_cons, bind_eq_ok] at h
    obtain ⟨s₁, h₁, h₂⟩ := h
    obtain ⟨hs₁, hle₁⟩ := WriteStmt.exec_room h₁ hs
    obtain ⟨hs', hle'⟩ := ih h₂ hs₁
    exact ⟨hs', hle'.trans hle₁⟩

/-- A marshaller that serializes does not return `(size_t)-1`. -/
theorem ResultCode.returned_ne {code : ResultCode} {resbuf : List Byte} {v : Word}
    (hbuf : resbuf.length = replyRoom) (h : code.returned env resbuf = .ok v) :
    v ≠ -1 ↔ code ≠ .minusOne := by
  cases code with
  | zero =>
    cases h
    decide
  | minusOne =>
    cases h
    simp
  | serialized code =>
    simp only [ResultCode.returned, bind_eq_ok, pure_inj] at h
    obtain ⟨s, hs, rfl⟩ := h
    have hsize : (BitVec.ofNat 32 resbuf.length).toNat = 4068 := by
      rw [hbuf]
      rfl
    obtain ⟨hroom, hle⟩ := execWrite_room hs (hsize.trans hbuf.symm)
    refine ⟨fun _ => nofun, fun _ heq => ?_⟩
    have hlt := congrArg BitVec.toNat heq
    have hle' : s.room ≤ BitVec.ofNat 32 resbuf.length := by
      rw [BitVec.le_def, hroom, hsize]
      exact hle.trans (le_of_eq hbuf)
    rw [BitVec.toNat_sub_of_le hle', hsize] at hlt
    have : (-1 : Word).toNat = 4294967295 := rfl
    omega

end Returned

/-! ## Agreement -/

theorem generateClientMarshaller_eq_ok {stub : ClientStub}
    (h : generateClientMarshaller fn = .ok stub) :
    (stub.Waits ↔ ¬ fn.OneWay) ∧ (fn.OneWay → fn.returnType.type = .void) := by
  simp only [generateClientMarshaller, bind_eq_ok] at h
  obtain ⟨params, -, sizes, -, serializer, -, h⟩ := h
  split at h
  · rename_i hmod
    simp only [bind_eq_ok, pure_inj] at h
    obtain ⟨receiveSizes, -, deserializer, -, rfl⟩ := h
    exact ⟨⟨fun _ => hmod, fun _ => by simp [ClientStub.Waits]⟩, fun hone => absurd hone hmod⟩
  · rename_i hmod
    simp only [bind_eq_ok, check_eq_ok, pure_inj] at h
    obtain ⟨-, hvoid, rfl⟩ := h
    exact ⟨⟨fun hwaits => absurd rfl hwaits, fun hone => absurd (not_not.mp hmod) hone⟩,
      fun _ => hvoid⟩

theorem generateResultSerializer_eq_minusOne {code : ResultCode}
    (h : generateResultSerializer fn = .ok code) :
    code = .minusOne ↔ fn.returnType.type = .void ∧ fn.OneWay ∧
      ∀ arg ∈ fn.args, arg.type.modifier ≠ .out := by
  unfold generateResultSerializer at h
  split at h
  · rename_i hres
    simp only [bind_eq_ok, pure_inj] at h
    obtain ⟨result, -, outs, -, rfl⟩ := h
    refine ⟨nofun, fun ⟨hvoid, _, hout⟩ => ?_⟩
    rcases hres with hne | ⟨arg, harg, hmod⟩
    · exact absurd hvoid hne
    · exact absurd hmod (hout arg harg)
  · rename_i hres
    simp only [not_or, not_exists, not_and, not_not] at hres
    split at h
    · rename_i hmod
      cases h
      exact ⟨fun _ => ⟨hres.1, hmod, hres.2⟩, fun _ => rfl⟩
    · rename_i hmod
      cases h
      refine ⟨nofun, fun hvoid => absurd hvoid.2.1 hmod⟩

/-- **Who waits and who replies.** For every signature that `rpcgen` emits both sides of: the
marshaller returns `(size_t)-1` if and only if its code ends so, and the stub waits exactly when the
marshaller replies, if and only if the function is not `oneway` with an out parameter. -/
theorem waits_iff_replies_iff {stub : ClientStub} {marshaller : Marshaller}
    (hc : generateClientMarshaller fn = .ok stub) (hs : generateMarshaller fn = .ok marshaller) :
    (∀ env resbuf v, resbuf.length = replyRoom → marshaller.result.returned env resbuf = .ok v →
      (v ≠ -1 ↔ marshaller.Replies)) ∧
    ((stub.Waits ↔ marshaller.Replies) ↔
      (fn.OneWay → ∀ arg ∈ fn.args, arg.type.modifier ≠ .out)) := by
  refine ⟨fun env resbuf v hbuf hv => ResultCode.returned_ne hbuf hv, ?_⟩
  obtain ⟨hwaits, hvoid⟩ := generateClientMarshaller_eq_ok hc
  simp only [generateMarshaller, bind_eq_ok, pure_inj] at hs
  obtain ⟨_, -, _, -, _, -, result, hresult, rfl⟩ := hs
  rw [hwaits, Marshaller.Replies, Ne, generateResultSerializer_eq_minusOne hresult]
  constructor
  · intro hiff hone
    by_contra hout
    exact hiff.mpr (fun ⟨_, _, h⟩ => hout h) hone
  · exact fun hout => ⟨fun hone ⟨_, hone', _⟩ => hone hone', fun hn hone =>
      hn ⟨hvoid hone, hone, hout hone⟩⟩

/-- `void f(int a, out int b)`. -/
theorem waits_iff_replies_out : ∃ fn stub marshaller, generateClientMarshaller fn = .ok stub ∧
    generateMarshaller fn = .ok marshaller ∧ fn.args.length = 2 ∧
    (stub.Waits ↔ marshaller.Replies) := by
  let fn : RPCFunction := ⟨"f", ⟨.void, .null⟩, [⟨"a", ⟨.int, .null⟩⟩, ⟨"b", ⟨.int, .out⟩⟩]⟩
  have hc : ∃ stub, generateClientMarshaller fn = .ok stub := ⟨_, rfl⟩
  have hs : ∃ marshaller, generateMarshaller fn = .ok marshaller := ⟨_, rfl⟩
  obtain ⟨stub, hc⟩ := hc
  obtain ⟨marshaller, hs⟩ := hs
  exact ⟨fn, stub, marshaller, hc, hs, rfl, (waits_iff_replies_iff hc hs).2.mpr nofun⟩

/-- `oneway void f(out int b)`: the stub returns, and the reply stays on the caller's port. -/
theorem not_waits_iff_replies : ¬ ∀ fn stub marshaller, generateClientMarshaller fn = .ok stub →
    generateMarshaller fn = .ok marshaller → ∀ env resbuf v, resbuf.length = replyRoom →
      marshaller.result.returned env resbuf = .ok v → (stub.Waits ↔ v ≠ -1) := by
  intro h
  let fn : RPCFunction := ⟨"f", ⟨.void, .oneWay⟩, [⟨"b", ⟨.int, .out⟩⟩]⟩
  have hs : generateMarshaller fn =
      .ok ⟨(.void, [⟨.int, "sender_pid"⟩, ⟨.intOut, "b"⟩]), [],
        ([⟨.int, "out_b"⟩], ["sender_pid", "&out_b"]),
        .serialized (putTypecode 'I' ++ putField (.const 4) (.int "out_b"))⟩ := rfl
  have hv := h fn _ _ rfl hs ⟨fun _ => .int 7, fun _ => 0⟩ (List.replicate replyRoom 0) 5
    List.length_replicate (by decide +kernel)
  exact hv.mpr (by decide) rfl

end Rastapopoulos.Rpc
