import Rastapopoulos.Rpc.Reply

/-!
# Requests

The code that `generate_client_marshaller_argserializer` (`gen_client.c`) emits, first to compute
the size of the send buffer and then to fill it, and the code that `generate_arg_deserializer`
(`gen_server.c`) emits to take the arguments out again. Arguments without a modifier travel with
their values; for out parameters of type `string` or `blob` the size of the caller's buffer does,
and for the others nothing.

The three agree on every argument (`argSizes_eval`, `serializeArg_writes`, `deserializeArg_reads`).
The size of the buffer is a `size_t`, so a request survives if and only if it is smaller than
`2 ^ 32` bytes with its header (`request_roundTrip_iff`).
-/

namespace Rastapopoulos.Rpc

open Cursor

/-! ## The client side -/

/-- The additions to `sndbuf_size` for an argument. -/
def argSizes (arg : RPCArgument) : Except GenFault (List SizeExpr) :=
  let x := arg.name
  if arg.type.modifier ≠ .out then
    match arg.type.type with
    | .int => .ok [.const 1, .const 4]
    | .string => .ok [.const 1, .const 4, .add (.strlen x) (.const 1)]
    | .long => .ok [.const 1, .const 8]
    | .blob => .ok [.const 1, .const 4, .size x]
    | .void => .error .abort
  else
    match arg.type.type with
    | .int | .long => .ok []
    | .string | .blob => .ok [.const 1, .const 4]
    | .void => .error .abort

/-- The statements that serialize an argument. -/
def serializeArg (arg : RPCArgument) : Except GenFault (List WriteStmt) :=
  let x := arg.name
  if arg.type.modifier ≠ .out then
    match arg.type.type with
    | .int => .ok (putTypecode 'i' ++ putField (.const 4) (.int x))
    | .string => .ok (putTypecode 's' ++ putSized (.add (.strlen x) (.const 1)) x)
    | .long => .ok (putTypecode 'l' ++ putField (.const 8) (.long x))
    | .blob => .ok (putTypecode 'b' ++ putSized (.size x) x)
    | .void => .error .abort
  else
    match arg.type.type with
    | .int | .long => .ok []
    | .string => .ok (putTypecode 'S' ++ putField (.const 4) (.size (.size x)))
    | .blob => .ok (putTypecode 'B' ++ putField (.const 4) (.size (.size x)))
    | .void => .error .abort

/-- `sizeof(struct message)`. -/
def headerSize : ℕ := 28

/-- The first half of the stub: the additions to `sndbuf_size`. -/
def generateSendSizes (fn : RPCFunction) : Except GenFault (List SizeExpr) :=
  emitAll argSizes fn.args

/-- The second half: what goes through `snd_ptr`. -/
def generateArgSerializer (fn : RPCFunction) : Except GenFault (List WriteStmt) :=
  emitAll serializeArg fn.args

/-! ## The server side -/

/-- `generate_arg_deserializer` on an argument. -/
def deserializeArg (arg : RPCArgument) : Except GenFault (List ReadStmt) :=
  let x := arg.name
  if arg.type.modifier = .null then
    match arg.type.type with
    | .int => .ok (getTypecode 'i' ++ getField 4 (.int x))
    | .string => .ok (getTypecode 's' ++ getSized [.assertSize] (.pointString x))
    | .long => .ok (getTypecode 'l' ++ getField 8 (.long x))
    | .blob => .ok (getTypecode 'b' ++ getSized [.assertSize] (.blob x))
    | .void => .error .abort
  else
    match arg.type.type with
    | .int | .long => .ok []
    | .string => .ok (getTypecode 'S' ++ getField 4 (.capacity x))
    | .blob => .ok (getTypecode 'B' ++ getField 4 (.capacity x))
    | .void => .error .abort

def generateArgDeserializer (fn : RPCFunction) : Except GenFault (List ReadStmt) :=
  emitAll deserializeArg fn.args

/-! ## What is agreed on -/

/-- The signatures in question: arguments with no modifier or `out`. -/
def RPCFunction.Takes (fn : RPCFunction) : Prop :=
  ∀ arg ∈ fn.args, arg.type.type ≠ .void ∧ arg.type.modifier ≠ .oneWay

/-- The caller has set an argument. Memory does not reach into the first page of the address space,
which is never mapped. -/
def ArgSet (env : Env) (arg : RPCArgument) : Prop :=
  let x := arg.name
  match arg.type.type with
  | .int => ∃ v, env.value x = .int v
  | .long => ∃ v, env.value x = .long v
  | .string => ∃ bytes, env.value x = .memory bytes ∧ bytes.length + 4096 ≤ 2 ^ 32 ∧ 0 ∈ bytes
  | .blob => ∃ bytes, env.value x = .memory bytes ∧ bytes.length + 4096 ≤ 2 ^ 32 ∧
      (env.size x).toNat ≤ bytes.length
  | .void => True

/-- An argument in the request. -/
def argBytes (env : Env) (arg : RPCArgument) : List Byte :=
  let x := arg.name
  let sized (n : Word) := leBytes 4 n ++ (env.value x).bytes.take n.toNat
  if arg.type.modifier ≠ .out then
    match arg.type.type with
    | .int => charByte 'i' :: leBytes 4 (env.value x).asInt
    | .string => charByte 's' :: sized ((SizeExpr.add (.strlen x) (.const 1)).eval env)
    | .long => charByte 'l' :: leBytes 8 (env.value x).asLong
    | .blob => charByte 'b' :: sized (env.size x)
    | .void => []
  else
    match arg.type.type with
    | .string => charByte 'S' :: leBytes 4 (env.size x)
    | .blob => charByte 'B' :: leBytes 4 (env.size x)
    | .int | .long | .void => []

/-- What the server is to get for it. -/
def argData (env : Env) (arg : RPCArgument) : List (String × Datum) :=
  let x := arg.name
  if arg.type.modifier ≠ .out then
    match arg.type.type with
    | .int => [(x, .int (env.value x).asInt)]
    | .string => [(x, .string (cString (env.value x).bytes))]
    | .long => [(x, .long (env.value x).asLong)]
    | .blob => [(x, .blob ((env.value x).bytes.take (env.size x).toNat))]
    | .void => []
  else
    match arg.type.type with
    | .string | .blob => [(x, .capacity (env.size x))]
    | .int | .long | .void => []

/-! ## One argument -/

section Argument

variable {env senv : Env} {arg : RPCArgument}

/-- `strlen(x) + 1` of an argument. -/
theorem ArgSet.string (h : ArgSet env arg) (htype : arg.type.type = .string) :
    let n := ((SizeExpr.add (.strlen arg.name) (.const 1)).eval env).toNat
    n = (cString (env.value arg.name).bytes).length + 1 ∧
      n ≤ (env.value arg.name).bytes.length ∧ n + 4 < 2 ^ 32 ∧
      ∀ tail, cString ((env.value arg.name).bytes.take n ++ tail) =
        cString (env.value arg.name).bytes := by
  simp only [ArgSet, htype] at h
  obtain ⟨bytes, hval, hlen, hzero⟩ := h
  have hmem : 0 ∈ (env.value arg.name).bytes := by rwa [hval]
  have hbytes : (env.value arg.name).bytes.length = bytes.length := by rw [hval, Value.bytes]
  have hn := eval_strlen_add_one hmem (by omega)
  have hlt := cString_length_lt hmem
  refine ⟨hn, by omega, by omega, fun tail => ?_⟩
  rw [hn]
  exact cString_take_append hmem tail

theorem ArgSet.blob (h : ArgSet env arg) (htype : arg.type.type = .blob) :
    (env.size arg.name).toNat ≤ (env.value arg.name).bytes.length ∧
      (env.size arg.name).toNat + 4 < 2 ^ 32 := by
  simp only [ArgSet, htype] at h
  obtain ⟨bytes, hval, hlen, hsize⟩ := h
  rw [hval, Value.bytes]
  exact ⟨hsize, by omega⟩

theorem serializeArg_writes (hvoid : arg.type.type ≠ .void)
    (hset : arg.type.modifier ≠ .out → ArgSet env arg) :
    ∃ code, serializeArg arg = .ok code ∧ Writes (execWrite env code) (argBytes env arg) := by
  by_cases hout : arg.type.modifier = .out
  · cases htype : arg.type.type <;>
      simp only [serializeArg, argBytes, hout, htype, ne_eq, not_true, if_false]
    case int | long => exact ⟨_, rfl, writes_nil⟩
    case string | blob =>
      exact ⟨_, rfl, writes_append (writes_putTypecode _)
        (writes_putField rfl (by simp [SizeExpr.eval]))⟩
    case void => exact absurd htype hvoid
  · have hset := hset hout
    cases htype : arg.type.type <;>
      simp only [serializeArg, argBytes, hout, htype, ne_eq, not_false_eq_true, if_true]
    case int | long =>
      exact ⟨_, rfl, writes_append (writes_putTypecode _)
        (writes_putField rfl (by simp [SizeExpr.eval]))⟩
    case string =>
      obtain ⟨-, hle, hlt, -⟩ := hset.string htype
      exact ⟨_, rfl, writes_append (writes_putTypecode _) (writes_putSized hle hlt)⟩
    case blob =>
      obtain ⟨hle, hlt⟩ := hset.blob htype
      exact ⟨_, rfl, writes_append (writes_putTypecode _) (writes_putSized hle hlt)⟩
    case void => exact absurd htype hvoid

theorem deserializeArg_reads (hvoid : arg.type.type ≠ .void)
    (honeway : arg.type.modifier ≠ .oneWay)
    (hset : arg.type.modifier ≠ .out → ArgSet env arg) :
    ∃ code, deserializeArg arg = .ok code ∧
      Reads (execRead senv code) (argBytes env arg) (argData env arg) := by
  cases hmod : arg.type.modifier
  case oneWay => exact absurd hmod honeway
  case out =>
    cases htype : arg.type.type <;>
      simp only [deserializeArg, argBytes, argData, hmod, htype, ne_eq, not_true, if_false,
        reduceCtorEq]
    case int | long => exact ⟨_, rfl, reads_nil⟩
    case string | blob => exact ⟨_, rfl, reads_append (reads_getTypecode _) (reads_capacity _ _)⟩
    case void => exact absurd htype hvoid
  case null =>
    have hset := hset (by rw [hmod]; exact nofun)
    cases htype : arg.type.type <;>
      simp only [deserializeArg, argBytes, argData, hmod, htype, ne_eq, not_false_eq_true, if_true,
        reduceCtorEq]
    case int => exact ⟨_, rfl, reads_append (reads_getTypecode _) (reads_int _ _)⟩
    case long => exact ⟨_, rfl, reads_append (reads_getTypecode _) (reads_long _ _)⟩
    case string =>
      obtain ⟨-, hle, -, hstr⟩ := hset.string htype
      refine ⟨_, rfl, reads_append (reads_getTypecode _) (reads_pointString _ ?_ ?_ hstr)⟩
      · rw [List.length_take, Nat.min_eq_left hle]
      · exact execRead_assertSize
    case blob =>
      obtain ⟨hle, -⟩ := hset.blob htype
      refine ⟨_, rfl, reads_append (reads_getTypecode _) (reads_blob _ ?_ ?_)⟩
      · rw [List.length_take, Nat.min_eq_left hle]
      · exact execRead_assertSize
    case void => exact absurd htype hvoid

theorem argSizes_eval (hvoid : arg.type.type ≠ .void)
    (hset : arg.type.modifier ≠ .out → ArgSet env arg) :
    ∃ sizes, argSizes arg = .ok sizes ∧ ∀ start, evalSizes env sizes start =
      start + BitVec.ofNat 32 (argBytes env arg).length := by
  by_cases hout : arg.type.modifier = .out
  · cases htype : arg.type.type <;>
      simp only [argSizes, argBytes, hout, htype, ne_eq, not_true, if_false]
    case int | long => exact ⟨_, rfl, fun start => by simp [evalSizes]⟩
    case string | blob =>
      refine ⟨_, rfl, fun start => ?_⟩
      simp [evalSizes, SizeExpr.eval, BitVec.add_assoc]
    case void => exact absurd htype hvoid
  · have hset := hset hout
    cases htype : arg.type.type <;>
      simp only [argSizes, argBytes, hout, htype, ne_eq, not_false_eq_true, if_true]
    case int | long =>
      refine ⟨_, rfl, fun start => ?_⟩
      simp [evalSizes, SizeExpr.eval, BitVec.add_assoc]
    case string =>
      obtain ⟨hn, hle, -, -⟩ := hset.string htype
      refine ⟨_, rfl, fun start => ?_⟩
      rw [evalSizes_sized, List.length_cons, List.length_append, length_leBytes, List.length_take,
        Nat.min_eq_left hle]
    case blob =>
      obtain ⟨hle, -⟩ := hset.blob htype
      refine ⟨_, rfl, fun start => ?_⟩
      rw [evalSizes_sized, List.length_cons, List.length_append, length_leBytes, List.length_take,
        Nat.min_eq_left hle]
      rfl
    case void => exact absurd htype hvoid

end Argument

/-! ## The whole request -/

section Request

variable {fn : RPCFunction} {env senv : Env} {tail : List Byte}

/-- The data of the request. -/
def requestBytes (env : Env) (fn : RPCFunction) : List Byte := fn.args.flatMap (argBytes env)

/-- The request survives the trip: the client's buffer, of the computed size, is filled to the last
byte with no failed assertion, and the server takes all of it apart, whatever stands behind it in
its own buffer, with no failed assertion, and gets the arguments and the capacities. -/
def RequestRoundTrip (fn : RPCFunction) (env senv : Env) (tail : List Byte) : Prop :=
  ∃ sizes code reader, generateSendSizes fn = .ok sizes ∧ generateArgSerializer fn = .ok code ∧
    generateArgDeserializer fn = .ok reader ∧
    let sndbufSize := evalSizes env sizes (BitVec.ofNat 32 headerSize)
    let len := sndbufSize - BitVec.ofNat 32 headerSize
    ∀ data : List Byte, data.length = sndbufSize.toNat - headerSize →
      ∃ s r, execWrite env code ⟨[], data, len⟩ = .ok s ∧ s.rest = [] ∧ s.room = 0 ∧
        execRead senv reader ⟨s.before ++ tail, len, 0, []⟩ = .ok r ∧ r.rest = tail ∧ r.rem = 0 ∧
        r.log = fn.args.flatMap (argData env)

/-- The size that the client computes, and the code on both sides. -/
theorem request_code (hfn : fn.Takes)
    (hargs : ∀ arg ∈ fn.args, arg.type.modifier ≠ .out → ArgSet env arg) (senv : Env) :
    ∃ sizes code reader, generateSendSizes fn = .ok sizes ∧ generateArgSerializer fn = .ok code ∧
      generateArgDeserializer fn = .ok reader ∧
      evalSizes env sizes (BitVec.ofNat 32 headerSize) =
        BitVec.ofNat 32 (headerSize + (requestBytes env fn).length) ∧
      Writes (execWrite env code) (requestBytes env fn) ∧
      Reads (execRead senv reader) (requestBytes env fn) (fn.args.flatMap (argData env)) := by
  have hsizes : ∃ sizes, emitAll argSizes fn.args = .ok sizes ∧ ∀ start,
      evalSizes env sizes start = start + BitVec.ofNat 32 (requestBytes env fn).length := by
    rw [requestBytes, List.length_flatMap]
    exact emitAll_sizes fun arg harg => argSizes_eval (hfn arg harg).1 (hargs arg harg)
  have hwrites : ∃ code, emitAll serializeArg fn.args = .ok code ∧
      Writes (execWrite env code) (requestBytes env fn) :=
    emitAll_writes fun arg harg => serializeArg_writes (hfn arg harg).1 (hargs arg harg)
  have hreads : ∃ code, emitAll deserializeArg fn.args = .ok code ∧
      Reads (execRead senv code) (requestBytes env fn) (fn.args.flatMap (argData env)) :=
    emitAll_reads fun arg harg =>
      deserializeArg_reads (hfn arg harg).1 (hfn arg harg).2 (hargs arg harg)
  obtain ⟨sizes, hgen, heval⟩ := hsizes
  obtain ⟨code, hcode, hw⟩ := hwrites
  obtain ⟨reader, hreader, hr⟩ := hreads
  exact ⟨sizes, code, reader, hgen, hcode, hreader, by rw [heval, BitVec.ofNat_add], hw, hr⟩

/-- A request that is filled without a failed assertion fits in its buffer. -/
theorem RequestRoundTrip.fits (hfn : fn.Takes)
    (hargs : ∀ arg ∈ fn.args, arg.type.modifier ≠ .out → ArgSet env arg)
    (h : RequestRoundTrip fn env senv tail) :
    headerSize + (requestBytes env fn).length < 2 ^ 32 := by
  obtain ⟨sizes, code, -, hgen, hcode, -, -, hw, -⟩ := request_code hfn hargs senv
  obtain ⟨sizes', code', reader, hgen', hcode', -, hdata⟩ := h
  cases hgen.symm.trans hgen'
  cases hcode.symm.trans hcode'
  obtain ⟨s, r, hrun, -⟩ := hdata (List.replicate _ 0) List.length_replicate
  obtain ⟨hle, -⟩ := hw.sound _ _ hrun
  rw [List.length_replicate] at hle
  have := (evalSizes env sizes (BitVec.ofNat 32 headerSize)).isLt
  unfold headerSize at *
  omega

/-- **The request round trip.** For every signature and all arguments, the request survives the trip
if and only if it is smaller than `2 ^ 32` bytes with its header. -/
theorem request_roundTrip_iff (hfn : fn.Takes)
    (hargs : ∀ arg ∈ fn.args, arg.type.modifier ≠ .out → ArgSet env arg) (senv : Env)
    (tail : List Byte) :
    RequestRoundTrip fn env senv tail ↔ headerSize + (requestBytes env fn).length < 2 ^ 32 := by
  refine ⟨fun h => h.fits hfn hargs, fun hfit => ?_⟩
  obtain ⟨sizes, code, reader, hgen, hcode, hreader, hsize, hw, hr⟩ := request_code hfn hargs senv
  have hnat : (evalSizes env sizes (BitVec.ofNat 32 headerSize)).toNat =
      headerSize + (requestBytes env fn).length := by
    rw [hsize, BitVec.toNat_ofNat, Nat.mod_eq_of_lt hfit]
  have hlen : evalSizes env sizes (BitVec.ofNat 32 headerSize) - BitVec.ofNat 32 headerSize =
      BitVec.ofNat 32 (requestBytes env fn).length := by
    rw [hsize, BitVec.ofNat_add, add_sub_cancel_left]
  have hlenNat : (BitVec.ofNat 32 (requestBytes env fn).length).toNat =
      (requestBytes env fn).length := by
    rw [BitVec.toNat_ofNat, Nat.mod_eq_of_lt (by omega)]
  refine ⟨sizes, code, reader, hgen, hcode, hreader, fun data hdata => ?_⟩
  rw [hnat] at hdata
  have hdata' : (requestBytes env fn).length = data.length := by omega
  obtain ⟨size, hread⟩ := hr ⟨requestBytes env fn ++ tail,
    BitVec.ofNat 32 (requestBytes env fn).length, 0, []⟩ tail rfl hlenNat.ge
  rw [hlen]
  refine ⟨_, _, hw.total _ hdata'.le hlenNat.ge, ?_, sub_self _, hread, rfl, sub_self _, rfl⟩
  rw [Writer.put, hdata', List.drop_length]

end Request

/-- An `int`, a string and an offered buffer of 64 bytes. -/
theorem request_roundTrip_open : ∃ fn env senv, fn.args.length = 3 ∧
    RequestRoundTrip fn env senv [] := by
  let fn : RPCFunction :=
    ⟨"open", ⟨.int, .null⟩, [⟨"mode", .int, .null⟩, ⟨"path", .string, .null⟩, ⟨"buf", .blob, .out⟩]⟩
  let env : Env :=
    ⟨fun x => if x = "mode" then .int 2 else .memory [47, 116, 109, 112, 0], fun _ => 64⟩
  refine ⟨fn, env, env, rfl, (request_roundTrip_iff ?_ ?_ env []).mpr (by decide)⟩
  · simp [RPCFunction.Takes, fn]
  · intro arg harg hout
    simp only [fn, List.mem_cons, List.not_mem_nil, or_false] at harg
    rcases harg with rfl | rfl | rfl
    · exact ⟨2, rfl⟩
    · exact ⟨[47, 116, 109, 112, 0], rfl, by decide, by decide⟩
    · exact absurd rfl hout

/-- Two blobs of `2 ^ 31` bytes (they may be the same memory) are too much for one request. -/
theorem request_not_roundTrip : ¬ ∀ (fn : RPCFunction) (env senv : Env) (tail : List Byte),
    fn.Takes → (∀ arg ∈ fn.args, arg.type.modifier ≠ .out → ArgSet env arg) →
    RequestRoundTrip fn env senv tail := by
  intro hall
  obtain ⟨bytes, hbytes⟩ : ∃ bytes : List Byte, bytes.length = 2147483648 :=
    ⟨List.replicate _ 0, List.length_replicate⟩
  let fn : RPCFunction := ⟨"put", ⟨.void, .null⟩, [⟨"a", .blob, .null⟩, ⟨"b", .blob, .null⟩]⟩
  let env : Env := ⟨fun _ => .memory bytes, fun _ => 0x80000000⟩
  have hfn : fn.Takes := by simp [RPCFunction.Takes, fn]
  have hargs : ∀ arg ∈ fn.args, arg.type.modifier ≠ .out → ArgSet env arg := by
    intro arg harg _
    simp only [fn, List.mem_cons, List.not_mem_nil, or_false] at harg
    rcases harg with rfl | rfl <;> exact ⟨bytes, rfl, by omega, hbytes.ge⟩
  have hfits := (hall fn env env [] hfn hargs).fits hfn hargs
  simp [requestBytes, fn, env, argBytes, Value.bytes, headerSize, hbytes] at hfits

end Rastapopoulos.Rpc
