import Rastapopoulos.Rpc.Code

/-!
# Replies

The code that `generate_result_serializer` (`gen_server.c`) emits to put the result of a handler and
its out parameters into the reply, and the code that
`generate_client_marshaller_resultdeserializer` (`gen_client.c`) emits to take them out again.

The two agree, but for the result of a function that returns `long`: the server stores it through an
`int*` and moves on by eight bytes, so that the upper half of what the client reads is what stood in
the reply buffer before (`reply_roundTrip_iff`).
-/

namespace Rastapopoulos.Rpc

open Cursor

/-! ## The server side -/

/-- The variable `out_x`. -/
def outName (x : String) : String := "out_" ++ x

/-- How a marshaller ends. -/
inductive ResultCode
  /-- Serialize, and return the number of bytes. -/
  | serialized (code : List WriteStmt)
  /-- `return 0` -/
  | zero
  /-- `return -1` -/
  | minusOne
  deriving DecidableEq

/-- `generate_result_serializer` on the return type. -/
def serializeResult : TypeName → Except GenFault (List WriteStmt)
  | .void => .ok []
  | .int => .ok (putTypecode 'I' ++ putField (.const 4) (.int "fn_result"))
  -- the store is through an `int*`, as for an `int`
  | .long => .ok (putTypecode 'L' ++ putField (.const 8) (.int "fn_result"))
  | .string | .blob => .error .abort

/-- `generate_result_serializer` on an argument. -/
def serializeOut (arg : RPCArgument) : Except GenFault (List WriteStmt) :=
  let x := outName arg.name
  if arg.type.modifier = .out then
    match arg.type.type with
    | .int => .ok (putTypecode 'I' ++ putField (.const 4) (.int x))
    | .string =>
      -- what `out_x_size` is set to first
      let n := SizeExpr.add (.strlen x) (.const 1)
      .ok (putTypecode 'S' ++ (putField (.const 4) (.size n) ++ putField n (.memory x n)))
    | .long => .ok (putTypecode 'L' ++ putField (.const 8) (.long x))
    | .blob =>
      let n := SizeExpr.size x
      .ok (putTypecode 'B' ++ (putField (.const 4) (.size n) ++ putField n (.memory x n)))
    | .void => .error .abort
  else .ok []

def generateResultSerializer (fn : RPCFunction) : Except GenFault ResultCode :=
  if fn.returnType.type ≠ .void ∨ ∃ arg ∈ fn.args, arg.type.modifier = .out then do
    let result ← serializeResult fn.returnType.type
    let outs ← emitAll serializeOut fn.args
    return .serialized (result ++ outs)
  else if fn.returnType.modifier = .oneWay then .ok .minusOne
  else .ok .zero

/-- The end of a marshaller, with the variables as the handler left them and some contents of the
reply buffer: the data of the reply, if there is to be one. -/
def ResultCode.run (env : Env) (resbuf : List Byte) : ResultCode → Except Fault (Option (List Byte))
  | .serialized code => do
    let resbufSize := BitVec.ofNat 32 resbuf.length
    let s ← execWrite env code ⟨[], resbuf, resbufSize⟩
    let result := resbufSize - s.room
    return some ((s.before ++ s.rest).take result.toNat)
  | .zero => .ok (some [])
  | .minusOne => .ok none

/-- `snd_buf_size` in `rpc_dispatch`. -/
def replyRoom : ℕ := 4096 - 28

/-! ## The client side -/

/-- `generate_client_marshaller_resultdeserializer` on the return type. -/
def deserializeResult : TypeName → Except GenFault (List ReadStmt)
  | .void => .ok []
  | .int => .ok (getTypecode 'I' ++ getField 4 (.int "rpc_result"))
  | .long => .ok (getTypecode 'L' ++ getField 8 (.long "rpc_result"))
  | .string | .blob => .error .abort

/-- `generate_client_marshaller_resultdeserializer` on an argument. -/
def deserializeOut (arg : RPCArgument) : Except GenFault (List ReadStmt) :=
  let x := arg.name
  if arg.type.modifier = .out then
    match arg.type.type with
    | .int => .ok (getTypecode 'I' ++ getField 4 (.int x))
    | .string => .ok (getTypecode 'S' ++ getSized [.assertCapacity x, .assertSize] (.copyString x))
    | .long => .ok (getTypecode 'L' ++ getField 8 (.long x))
    | .blob => .ok (getTypecode 'B' ++ getSized [.assertSize, .assertCapacity x] (.blob x))
    | .void => .error .abort
  else .ok []

/-- The code after the reply has been received. -/
def generateResultDeserializer (fn : RPCFunction) : Except GenFault (List ReadStmt) := do
  let result ← deserializeResult fn.returnType.type
  let outs ← emitAll deserializeOut fn.args
  return result ++ outs

/-! ## What is agreed on -/

/-- The signatures in question: a result of type `void`, `int` or `long`, arguments of the other
types with no modifier or `out`, and not `oneway`. -/
structure RPCFunction.Answers (fn : RPCFunction) : Prop where
  result : fn.returnType.type = .void ∨ fn.returnType.type = .int ∨ fn.returnType.type = .long
  modifier : fn.returnType.modifier ≠ .oneWay
  args : ∀ arg ∈ fn.args, arg.type.type ≠ .void ∧ arg.type.modifier ≠ .oneWay

/-- The handler has set an out parameter that the client offered `capacity` bytes for. Its memory
has at most so many bytes; a string is terminated within them, and a blob does not exceed them. -/
def OutSet (env : Env) (capacity : Word) (arg : RPCArgument) : Prop :=
  let x := outName arg.name
  match arg.type.type with
  | .int => ∃ v, env.value x = .int v
  | .long => ∃ v, env.value x = .long v
  | .string => ∃ bytes, env.value x = .memory bytes ∧ bytes.length ≤ capacity.toNat ∧ 0 ∈ bytes
  | .blob => ∃ bytes, env.value x = .memory bytes ∧ bytes.length ≤ capacity.toNat ∧
      (env.size x).toNat ≤ bytes.length
  | .void => True

/-- The handler has returned. -/
def ResultSet (env : Env) : TypeName → Prop
  | .int => ∃ v, env.value "fn_result" = .int v
  | .long => ∃ v, env.value "fn_result" = .long v
  | .void | .string | .blob => True

/-- An out parameter in the reply. -/
def outBytes (env : Env) (arg : RPCArgument) : List Byte :=
  let x := outName arg.name
  let sized (n : Word) := leBytes 4 n ++ (env.value x).bytes.take n.toNat
  if arg.type.modifier = .out then
    match arg.type.type with
    | .int => charByte 'I' :: leBytes 4 (env.value x).asInt
    | .string => charByte 'S' :: sized ((SizeExpr.add (.strlen x) (.const 1)).eval env)
    | .long => charByte 'L' :: leBytes 8 (env.value x).asLong
    | .blob => charByte 'B' :: sized (env.size x)
    | .void => []
  else []

/-- What the client is to get for it. -/
def outData (env : Env) (arg : RPCArgument) : List (String × Datum) :=
  let x := outName arg.name
  if arg.type.modifier = .out then
    match arg.type.type with
    | .int => [(arg.name, .int (env.value x).asInt)]
    | .string => [(arg.name, .string (cString (env.value x).bytes))]
    | .long => [(arg.name, .long (env.value x).asLong)]
    | .blob => [(arg.name, .blob ((env.value x).bytes.take (env.size x).toNat))]
    | .void => []
  else []

/-- What the client is to get for the result. -/
def resultData (env : Env) : TypeName → List (String × Datum)
  | .int => [("rpc_result", .int (env.value "fn_result").asInt)]
  | .long => [("rpc_result", .long (env.value "fn_result").asLong)]
  | .void | .string | .blob => []

/-! ## Strings -/

theorem cString_cons_zero (bytes : List Byte) : cString (0 :: bytes) = [] := rfl

theorem cString_cons_of_ne {b : Byte} (hb : b ≠ 0) (bytes : List Byte) :
    cString (b :: bytes) = b :: cString bytes :=
  List.takeWhile_cons_of_pos (decide_eq_true hb)

theorem cString_length_lt {bytes : List Byte} (h : 0 ∈ bytes) :
    (cString bytes).length < bytes.length := by
  induction bytes with
  | nil => exact nomatch h
  | cons b bytes ih =>
    by_cases hb : b = 0
    · rw [hb]
      exact Nat.succ_pos _
    · have hmem : 0 ∈ bytes := (List.mem_cons.mp h).resolve_left fun h0 => hb h0.symm
      rw [cString_cons_of_ne hb]
      exact Nat.succ_lt_succ (ih hmem)

/-- A string is what stands before the first zero, whatever comes after. -/
theorem cString_take_append {bytes : List Byte} (h : 0 ∈ bytes) (tail : List Byte) :
    cString (bytes.take ((cString bytes).length + 1) ++ tail) = cString bytes := by
  induction bytes with
  | nil => exact nomatch h
  | cons b bytes ih =>
    by_cases hb : b = 0
    · rw [hb]
      rfl
    · have hmem : 0 ∈ bytes := (List.mem_cons.mp h).resolve_left fun h0 => hb h0.symm
      rw [cString_cons_of_ne hb, List.length_cons, List.take_succ_cons, List.cons_append,
        cString_cons_of_ne hb, ih hmem]

/-- `strlen(x) + 1`, for a string in memory that a `size_t` can measure. -/
theorem eval_strlen_add_one {env : Env} {x : String} (h : 0 ∈ (env.value x).bytes)
    (hlt : (env.value x).bytes.length < 2 ^ 32) :
    ((SizeExpr.add (.strlen x) (.const 1)).eval env).toNat =
      (cString (env.value x).bytes).length + 1 := by
  have := cString_length_lt h
  rw [SizeExpr.eval, SizeExpr.eval, SizeExpr.eval, ← BitVec.ofNat_add, BitVec.toNat_ofNat,
    Nat.mod_eq_of_lt (by omega)]

/-! ## One argument -/

section Argument

variable {env cenv : Env} {arg : RPCArgument}

/-- A size and that many bytes, each under its own assertion. -/
theorem writes_sized_fields {x : String} {n : SizeExpr}
    (h : (n.eval env).toNat ≤ (env.value x).bytes.length) :
    Writes (execWrite env (putField (.const 4) (.size n) ++ putField n (.memory x n)))
      (leBytes 4 (n.eval env) ++ (env.value x).bytes.take (n.eval env).toNat) := by
  refine writes_append (writes_putField (eval_size n) (by simp [SizeExpr.eval]))
    (writes_putField (eval_memory h) ?_)
  rw [List.length_take, Nat.min_eq_left h]

/-- `strlen(out_x) + 1`, for a string that the handler has set. -/
theorem OutSet.string {capacity : Word} (h : OutSet env capacity arg)
    (htype : arg.type.type = .string) :
    let n := ((SizeExpr.add (.strlen (outName arg.name)) (.const 1)).eval env).toNat
    n = (cString (env.value (outName arg.name)).bytes).length + 1 ∧
      n ≤ (env.value (outName arg.name)).bytes.length ∧ n ≤ capacity.toNat ∧
      cString ((env.value (outName arg.name)).bytes.take n) =
        cString (env.value (outName arg.name)).bytes := by
  simp only [OutSet, htype] at h
  obtain ⟨bytes, hval, hlen, hzero⟩ := h
  have hbytes : (env.value (outName arg.name)).bytes = bytes := by rw [hval, Value.bytes]
  rw [← hbytes] at hlen hzero
  have hn := eval_strlen_add_one hzero (by omega)
  have hlt := cString_length_lt hzero
  have hstr := cString_take_append hzero []
  rw [List.append_nil, ← hn] at hstr
  exact ⟨hn, by omega, by omega, hstr⟩

theorem serializeOut_writes (hvoid : arg.type.type ≠ .void)
    (hset : arg.type.modifier = .out → OutSet env (cenv.size arg.name) arg) :
    ∃ code, serializeOut arg = .ok code ∧ Writes (execWrite env code) (outBytes env arg) := by
  by_cases hout : arg.type.modifier = .out
  · have hset := hset hout
    cases htype : arg.type.type <;> simp only [serializeOut, outBytes, hout, htype]
    case int | long =>
      exact ⟨_, rfl, writes_append (writes_putTypecode _)
        (writes_putField rfl (by simp [SizeExpr.eval]))⟩
    case string =>
      exact ⟨_, rfl, writes_append (writes_putTypecode _)
        (writes_sized_fields (hset.string htype).2.1)⟩
    case blob =>
      simp only [OutSet, htype] at hset
      obtain ⟨bytes, hval, -, hle⟩ := hset
      refine ⟨_, rfl, writes_append (writes_putTypecode _) (writes_sized_fields ?_)⟩
      rw [hval]
      exact hle
    case void => exact absurd htype hvoid
  · exact ⟨[], by simp [serializeOut, hout], by simpa [outBytes, hout] using writes_nil⟩

theorem deserializeOut_reads (hvoid : arg.type.type ≠ .void)
    (hset : arg.type.modifier = .out → OutSet env (cenv.size arg.name) arg) :
    ∃ code, deserializeOut arg = .ok code ∧
      Reads (execRead cenv code) (outBytes env arg) (outData env arg) := by
  by_cases hout : arg.type.modifier = .out
  · have hset := hset hout
    cases htype : arg.type.type <;>
      simp only [deserializeOut, outBytes, outData, hout, htype]
    case int => exact ⟨_, rfl, reads_append (reads_getTypecode _) (reads_int _ _)⟩
    case long => exact ⟨_, rfl, reads_append (reads_getTypecode _) (reads_long _ _)⟩
    case string =>
      obtain ⟨-, hle, hcap, hstr⟩ := hset.string htype
      refine ⟨_, rfl, reads_append (reads_getTypecode _) ?_⟩
      rw [← hstr]
      refine reads_copyString _ ?_ fun s hs hrem => (execRead_assertions hcap s hs hrem).2
      rw [List.length_take, Nat.min_eq_left hle]
    case blob =>
      simp only [OutSet, htype] at hset
      obtain ⟨bytes, hval, hlen, hle⟩ := hset
      have hcap : env.size (outName arg.name) ≤ cenv.size arg.name := hle.trans hlen
      refine ⟨_, rfl, reads_append (reads_getTypecode _) ?_⟩
      refine reads_blob _ ?_ fun s hs hrem => (execRead_assertions hcap s hs hrem).1
      rw [List.length_take, Nat.min_eq_left]
      rw [hval]
      exact hle
    case void => exact absurd htype hvoid
  · exact ⟨[], by simp [deserializeOut, hout], by simpa [outBytes, outData, hout] using reads_nil⟩

end Argument

/-! ## The result -/

section Result

variable {env cenv : Env} {type : TypeName} {old : List Byte}

/-- The bytes that the result takes up. -/
def resultSize : TypeName → ℕ
  | .int => 5
  | .long => 9
  | .void | .string | .blob => 0

/-- The result in the reply, over the old contents of the buffer. -/
def resultBytes (env : Env) (old : List Byte) : TypeName → List Byte
  | .int => charByte 'I' :: leBytes 4 (env.value "fn_result").asInt
  | .long => charByte 'L' :: (leBytes 4 (env.value "fn_result").asInt ++ (old.drop 5).take 4)
  | .void | .string | .blob => []

/-- What the client gets from it. -/
def resultGot (env : Env) (old : List Byte) : TypeName → List (String × Datum)
  | .int => [("rpc_result", .int (env.value "fn_result").asInt)]
  | .long => [("rpc_result", .long (ofLeBytes 64
      (leBytes 4 (env.value "fn_result").asInt ++ (old.drop 5).take 4)))]
  | .void | .string | .blob => []

theorem length_resultBytes (h : resultSize type ≤ old.length) :
    (resultBytes env old type).length = resultSize type := by
  cases type <;> simp [resultBytes, resultSize] at h ⊢
  omega

/-- A result is stored exactly when there is room for it. Of a `long` four bytes are stored, and the
pointer moves on by eight. -/
theorem serializeResult_iff (env : Env) (htype : type = .void ∨ type = .int ∨ type = .long) :
    ∃ code, serializeResult type = .ok code ∧ ∀ {s s' : Writer 32}, s.room.toNat = s.rest.length →
      (execWrite env code s = .ok s' ↔
        resultSize type ≤ s.rest.length ∧ s' = s.put (resultBytes env s.rest type)) := by
  rcases htype with rfl | rfl | rfl
  · exact ⟨[], rfl, writes_nil.iff⟩
  · have hint : Writes (execWrite env (putField (.const 4) (.int "fn_result")))
        (leBytes 4 (env.value "fn_result").asInt) := writes_putField rfl (by simp [SizeExpr.eval])
    refine ⟨_, rfl, fun hroom => ?_⟩
    rw [(writes_append (writes_putTypecode 'I') hint).iff hroom]
    simp [resultSize, resultBytes]
  · refine ⟨_, rfl, fun {s s'} hroom => ?_⟩
    have htag : ∀ s₁, execWrite env (putTypecode 'L') s = .ok s₁ ↔ _ := fun _ =>
      (writes_putTypecode 'L').iff hroom
    have hfield : ∀ s₁, execWrite env (putField (.const 8) (.int "fn_result")) s₁ = _ := fun s₁ =>
      execWrite_putField s₁ rfl
    simp only [execWrite_append, bind_eq_ok, htag]
    by_cases hone : [charByte 'L'].length ≤ s.rest.length
    · simp only [hone, true_and, exists_eq_left]
      rw [hfield, Writer.field_iff (by simp [SizeExpr.eval]) (Writer.room_put hroom hone), Writer.put_put,
        length_leBytes]
      show 8 ≤ (s.rest.drop 1).length ∧ s' = s.put (charByte 'L' :: (_ ++
        ((s.rest.drop 1).take 8).drop 4)) ↔ _
      rw [List.length_drop, List.drop_take, List.drop_drop]
      exact and_congr (by simp only [resultSize]; omega) Iff.rfl
    · simp only [List.length_singleton] at hone
      simp only [List.length_singleton, resultSize]
      omega

theorem deserializeResult_reads (htype : type = .void ∨ type = .int ∨ type = .long)
    (hold : resultSize type ≤ old.length) :
    ∃ code, deserializeResult type = .ok code ∧
      Reads (execRead cenv code) (resultBytes env old type) (resultGot env old type) := by
  rcases htype with rfl | rfl | rfl
  · exact ⟨[], rfl, reads_nil⟩
  · exact ⟨_, rfl, reads_append (reads_getTypecode 'I') (reads_int _ _)⟩
  · refine ⟨_, rfl, reads_append (reads_getTypecode 'L') (reads_long_bytes _ ?_)⟩
    simp only [resultSize] at hold
    simp
    omega

end Result

/-! ## The whole reply -/

section Reply

variable {fn : RPCFunction} {env cenv : Env} {resbuf : List Byte}

/-- The bytes that a reply takes up. -/
def replySize (env : Env) (fn : RPCFunction) : ℕ :=
  resultSize fn.returnType.type + (fn.args.flatMap (outBytes env)).length

/-- The reply that the server sends. -/
def replyBytes (env : Env) (resbuf : List Byte) (fn : RPCFunction) : List Byte :=
  resultBytes env resbuf fn.returnType.type ++ fn.args.flatMap (outBytes env)

/-- Without `out` arguments there is nothing to add to the result. -/
theorem flatMap_outBytes_eq_nil (env : Env)
    (h : ∀ arg, ¬ (arg ∈ fn.args ∧ arg.type.modifier = .out)) :
    fn.args.flatMap (outBytes env) = [] :=
  List.flatMap_eq_nil_iff.mpr fun arg harg => by
    rw [outBytes, if_neg fun hout => h arg ⟨harg, hout⟩]

theorem length_replyBytes (hfit : replySize env fn ≤ resbuf.length) :
    (replyBytes env resbuf fn).length = replySize env fn := by
  rw [replyBytes, List.length_append, length_resultBytes ((Nat.le_add_right _ _).trans hfit)]
  rfl

/-- The server's end: the reply is put together without a failed assertion exactly when it fits in
the buffer. -/
theorem resultSerializer_iff
    (hresult : fn.returnType.type = .void ∨ fn.returnType.type = .int ∨ fn.returnType.type = .long)
    (hvoid : ∀ arg ∈ fn.args, arg.type.type ≠ .void)
    (houts : ∀ arg ∈ fn.args, arg.type.modifier = .out → OutSet env (cenv.size arg.name) arg)
    (hlen : resbuf.length < 2 ^ 32) :
    ∃ code answer, generateResultSerializer fn = .ok code ∧
      (fn.returnType.modifier ≠ .oneWay → answer = some (replyBytes env resbuf fn)) ∧
      ∀ reply, code.run env resbuf = .ok reply ↔
        replySize env fn ≤ resbuf.length ∧ reply = answer := by
  by_cases hres : fn.returnType.type ≠ .void ∨ ∃ arg ∈ fn.args, arg.type.modifier = .out
  · obtain ⟨code₁, hcode₁, hrun₁⟩ := serializeResult_iff env hresult
    have hemit : ∃ code, emitAll serializeOut fn.args = .ok code ∧
        Writes (execWrite env code) (fn.args.flatMap (outBytes env)) :=
      emitAll_writes fun arg harg => serializeOut_writes (hvoid arg harg) (houts arg harg)
    obtain ⟨code₂, hcode₂, hw₂⟩ := hemit
    have hroom : (BitVec.ofNat 32 resbuf.length).toNat = resbuf.length := by
      rw [BitVec.toNat_ofNat, Nat.mod_eq_of_lt hlen]
    have hrun : ∀ {s s' : Writer 32}, s.room.toNat = s.rest.length →
        (execWrite env (code₁ ++ code₂) s = .ok s' ↔
          replySize env fn ≤ s.rest.length ∧ s' = s.put (replyBytes env s.rest fn)) := by
      intro s s' hroom
      simp only [execWrite_append, bind_eq_ok, hrun₁ hroom]
      by_cases hfit : resultSize fn.returnType.type ≤ s.rest.length
      · have hlen₁ : (resultBytes env s.rest fn.returnType.type).length = _ :=
          length_resultBytes hfit
        simp only [hfit, true_and, exists_eq_left]
        rw [hw₂.iff (Writer.room_put hroom (hlen₁.le.trans hfit)), Writer.put_put]
        refine and_congr ?_ Iff.rfl
        simp only [Writer.put, List.length_drop, replySize]
        omega
      · simp only [hfit, false_and, exists_false, false_iff]
        exact fun h => hfit ((Nat.le_add_right ..).trans h.1)
    refine ⟨.serialized (code₁ ++ code₂), some (replyBytes env resbuf fn), ?_, fun _ => rfl,
      fun reply => ?_⟩
    · rw [generateResultSerializer, if_pos hres, hcode₁, hcode₂]
      rfl
    · simp only [ResultCode.run, bind_eq_ok, hrun (s := ⟨[], resbuf, BitVec.ofNat 32 resbuf.length⟩)
        hroom, pure_inj, and_assoc, exists_and_left, exists_eq_left]
      refine and_congr_right fun hfit => ?_
      simp only [Writer.put, List.nil_append]
      rw [@eq_comm _ _ reply, sub_sub_cancel, BitVec.toNat_ofNat, length_replyBytes hfit,
        Nat.mod_eq_of_lt (by omega), List.take_left' (length_replyBytes hfit)]
  · refine ⟨if fn.returnType.modifier = .oneWay then .minusOne else .zero,
      if fn.returnType.modifier = .oneWay then none else some [], ?_, fun hmod => ?_, fun reply => ?_⟩
    · rw [generateResultSerializer, if_neg hres]
      split <;> rfl
    all_goals
      rw [not_or, not_not, not_exists] at hres
      have hnil := flatMap_outBytes_eq_nil env hres.2
    · rw [if_neg hmod, replyBytes, hnil, hres.1]
      rfl
    · simp only [replySize, hnil, hres.1, resultSize]
      split <;> simp [ResultCode.run, eq_comm]

/-- The client's end: the reply is taken apart without a failed assertion. -/
theorem resultDeserializer_reads (hfn : fn.Answers)
    (houts : ∀ arg ∈ fn.args, arg.type.modifier = .out → OutSet env (cenv.size arg.name) arg)
    (hfit : replySize env fn ≤ resbuf.length) :
    ∃ code, generateResultDeserializer fn = .ok code ∧
      Reads (execRead cenv code) (replyBytes env resbuf fn)
        (resultGot env resbuf fn.returnType.type ++ fn.args.flatMap (outData env)) := by
  have hold : resultSize fn.returnType.type ≤ resbuf.length :=
    (Nat.le_add_right _ _).trans hfit
  have hresult : ∃ code, deserializeResult fn.returnType.type = .ok code ∧
      Reads (execRead cenv code) (resultBytes env resbuf fn.returnType.type)
        (resultGot env resbuf fn.returnType.type) := deserializeResult_reads hfn.result hold
  have hargs : ∃ code, emitAll deserializeOut fn.args = .ok code ∧
      Reads (execRead cenv code) (fn.args.flatMap (outBytes env))
        (fn.args.flatMap (outData env)) :=
    emitAll_reads fun arg harg => deserializeOut_reads (hfn.args arg harg).1 (houts arg harg)
  obtain ⟨code₁, hcode₁, hr₁⟩ := hresult
  obtain ⟨code₂, hcode₂, hr₂⟩ := hargs
  refine ⟨code₁ ++ code₂, ?_, reads_append hr₁ hr₂⟩
  rw [generateResultDeserializer, hcode₁, hcode₂]
  rfl

/-- The reply survives the trip: the server puts it together, the client takes all of it apart, with
no failed assertion and whatever stands behind it in the client's buffer, and gets what the handler
left. -/
def ReplyRoundTrip (fn : RPCFunction) (env cenv : Env) (resbuf tail : List Byte) : Prop :=
  ∃ code reader reply s, generateResultSerializer fn = .ok code ∧
    generateResultDeserializer fn = .ok reader ∧
    code.run env resbuf = .ok (some reply) ∧
    execRead cenv reader ⟨reply ++ tail, BitVec.ofNat 32 reply.length, 0, []⟩ = .ok s ∧
    s.rest = tail ∧ s.rem = 0 ∧
    s.log = resultData env fn.returnType.type ++ fn.args.flatMap (outData env)

/-- The reply survives exactly when the result does. -/
theorem replyRoundTrip_iff_result (hfn : fn.Answers)
    (houts : ∀ arg ∈ fn.args, arg.type.modifier = .out → OutSet env (cenv.size arg.name) arg)
    (hlen : resbuf.length < 2 ^ 32) (hfit : replySize env fn ≤ resbuf.length) (tail : List Byte) :
    ReplyRoundTrip fn env cenv resbuf tail ↔
      resultGot env resbuf fn.returnType.type = resultData env fn.returnType.type := by
  obtain ⟨code, answer, hcode, hanswer, hrun⟩ :=
    resultSerializer_iff hfn.result (fun arg harg => (hfn.args arg harg).1) houts hlen
  obtain rfl := hanswer hfn.modifier
  replace hrun := (hrun _).mpr ⟨hfit, rfl⟩
  obtain ⟨reader, hreader, hreads⟩ := resultDeserializer_reads hfn houts hfit
  have hlt : (replyBytes env resbuf fn).length < 2 ^ 32 := by
    rw [length_replyBytes hfit]
    omega
  obtain ⟨size, hread⟩ := hreads ⟨replyBytes env resbuf fn ++ tail,
    BitVec.ofNat 32 (replyBytes env resbuf fn).length, 0, []⟩ tail rfl (by
      rw [BitVec.toNat_ofNat, Nat.mod_eq_of_lt hlt])
  constructor
  · rintro ⟨code', reader', reply, s, hcode', hreader', hrun', hread', -, -, hlog⟩
    cases hcode.symm.trans hcode'
    cases hreader.symm.trans hreader'
    cases hrun.symm.trans hrun'
    cases hread.symm.trans hread'
    exact List.append_cancel_right hlog
  · intro hres
    refine ⟨code, reader, _, _, hcode, hreader, hrun, hread, rfl, sub_self _, ?_⟩
    rw [← hres]
    rfl

/-- **The reply round trip.** For every signature, every result and out values within the capacities
offered, and every prior content of the server's reply buffer, the reply survives the trip if and
only if the function does not return `long`, or the four bytes that the server leaves alone hold the
upper half of the result. -/
theorem reply_roundTrip_iff (hfn : fn.Answers) (hresult : ResultSet env fn.returnType.type)
    (houts : ∀ arg ∈ fn.args, arg.type.modifier = .out → OutSet env (cenv.size arg.name) arg)
    (hlen : resbuf.length = replyRoom) (hfit : replySize env fn ≤ replyRoom) (tail : List Byte) :
    ReplyRoundTrip fn env cenv resbuf tail ↔
      (fn.returnType.type = .long → (resbuf.drop 5).take 4 =
        (leBytes 8 (env.value "fn_result").asLong).drop 4) := by
  have hlt : resbuf.length < 2 ^ 32 := by
    rw [hlen]
    decide
  rw [replyRoundTrip_iff_result hfn houts hlt (hlen ▸ hfit)]
  rcases hfn.result with htype | htype | htype <;> rw [htype] at hresult ⊢
  · simp [resultGot, resultData]
  · simp [resultGot, resultData]
  · obtain ⟨v, hv⟩ := hresult
    have hold : ((resbuf.drop 5).take 4).length = 4 := by
      rw [List.length_take, List.length_drop, hlen]
      rfl
    simp only [resultGot, resultData, hv, Value.asInt, Value.asLong, List.cons.injEq, and_true,
      Prod.mk.injEq, true_and, Datum.long.injEq, forall_const,
      leBytes_setWidth v (show 8 * 4 ≤ 32 by decide)]
    exact ofLeBytes_leBytes_append rfl (by rw [hold])

end Reply

/-- A function that returns `long` and sets a string, with a result that fits in an `int` and a
buffer that was zero. -/
theorem reply_roundTrip_small_long : ∃ fn env cenv resbuf, fn.returnType.type = .long ∧
    resbuf.length = replyRoom ∧ ReplyRoundTrip fn env cenv resbuf [] := by
  let fn : RPCFunction := ⟨"get", ⟨.long, .null⟩, [⟨"name", .string, .out⟩]⟩
  let env : Env := ⟨fun x => if x = "fn_result" then .long 7 else .memory [104, 105, 0, 0], fun _ => 0⟩
  let cenv : Env := ⟨fun _ => .int 0, fun _ => 4⟩
  have hfn : fn.Answers := ⟨.inr (.inr rfl), by decide, by simp [fn]⟩
  have houts : ∀ arg ∈ fn.args, arg.type.modifier = .out → OutSet env (cenv.size arg.name) arg := by
    intro arg harg _
    rw [List.mem_singleton.mp harg]
    exact ⟨[104, 105, 0, 0], rfl, le_rfl, by decide⟩
  have hresult : ResultSet env fn.returnType.type := ⟨7, rfl⟩
  refine ⟨fn, env, cenv, List.replicate replyRoom 0, rfl, List.length_replicate, ?_⟩
  refine (reply_roundTrip_iff hfn hresult houts List.length_replicate (by decide) []).mpr
    fun _ => ?_
  rw [List.drop_replicate, List.take_replicate]
  decide

/-- A result that does not fit in an `int` arrives without its upper half. -/
theorem reply_not_roundTrip : ¬ ∀ (fn : RPCFunction) (env cenv : Env) (resbuf tail : List Byte),
    fn.Answers → ResultSet env fn.returnType.type →
    (∀ arg ∈ fn.args, arg.type.modifier = .out → OutSet env (cenv.size arg.name) arg) →
    resbuf.length = replyRoom → replySize env fn ≤ replyRoom →
    ReplyRoundTrip fn env cenv resbuf tail := by
  intro hall
  let fn : RPCFunction := ⟨"ret_long", ⟨.long, .null⟩, []⟩
  let env : Env := ⟨fun _ => .long 0x100000000, fun _ => 0⟩
  have hfn : fn.Answers := ⟨.inr (.inr rfl), by decide, by simp [fn]⟩
  have hrt := hall fn env env (List.replicate replyRoom 0) [] hfn ⟨_, rfl⟩ (by simp [fn])
    List.length_replicate (by decide)
  rw [replyRoundTrip_iff_result hfn (by simp [fn]) (by rw [List.length_replicate]; decide)
    (by rw [List.length_replicate]; decide)] at hrt
  revert hrt
  simp only [fn, resultGot, List.drop_replicate, List.take_replicate]
  decide

end Rastapopoulos.Rpc
