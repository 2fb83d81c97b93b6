import Rastapopoulos.Foundations.Cursor
import Rastapopoulos.Rpc.Types

/-!
# The code that rpcgen emits

`rpcgen` writes C: for each function of an interface a client stub and a server marshaller. What
they do with messages is made of a few kinds of statements, written down here with the variables
they mention, together with their meaning on the 32-bit target: an `int` and a `size_t` have four
bytes, a `long long` has eight.

Statements that write go through `snd_ptr` and `snd_rem` in the client, `result_ptr` and `avail` in
the server; statements that read through `rcvbuf_ptr` and `rcvbuf_rem`, or `in_ptr` and `in_size`.
-/

namespace Rastapopoulos.Rpc

open Cursor

/-- An `unsigned char`. -/
abbrev Byte := BitVec 8

/-- An `int`, an `unsigned` or a `size_t`. -/
abbrev Word := BitVec 32

/-- What a variable holds; for a pointer, the memory it points to. -/
inductive Value
  | int (v : Word)
  | long (v : BitVec 64)
  | memory (bytes : List Byte)
  deriving DecidableEq

namespace Value

/-- The value converted to an `int`. -/
def asInt : Value → Word
  | .int v => v
  | .long v => v.setWidth 32
  | .memory _ => 0

/-- The value converted to a `long long`. -/
def asLong : Value → BitVec 64
  | .int v => v.signExtend 64
  | .long v => v
  | .memory _ => 0

/-- The memory behind a pointer. -/
def bytes : Value → List Byte
  | .memory bytes => bytes
  | .int _ | .long _ => []

end Value

/-- The variables in scope: `x`, and the `x_size` that goes with it. -/
structure Env where
  value : String → Value
  size : String → Word

/-- The string that a `char*` points to. -/
def cString (bytes : List Byte) : List Byte := bytes.takeWhile (· ≠ 0)

/-! ## Sizes -/

/-- An expression of type `size_t`. -/
inductive SizeExpr
  | const (n : ℕ)
  | strlen (x : String)
  | size (x : String)
  | add (a b : SizeExpr)
  deriving DecidableEq

def SizeExpr.eval (env : Env) : SizeExpr → Word
  | .const n => BitVec.ofNat 32 n
  | .strlen x => BitVec.ofNat 32 (cString (env.value x).bytes).length
  | .size x => env.size x
  | .add a b => a.eval env + b.eval env

/-- A buffer size, computed by one addition after another. -/
def evalSizes (env : Env) (sizes : List SizeExpr) (start : Word) : Word :=
  sizes.foldl (fun total e => total + e.eval env) start

/-! ## Writing -/

/-- What is stored. -/
inductive Source
  /-- `*((char*)p) = c` -/
  | char (c : Char)
  /-- `*((int*)p) = x` -/
  | int (x : String)
  /-- `*((long long*)p) = x` -/
  | long (x : String)
  /-- `*((size_t*)p) = e` -/
  | size (e : SizeExpr)
  /-- `memcpy(p, x, n)` -/
  | memory (x : String) (n : SizeExpr)
  deriving DecidableEq

/-- A `char` as a byte. -/
def charByte (c : Char) : Byte := BitVec.ofNat 8 c.toNat

def Source.eval (env : Env) : Source → Except Fault (List Byte)
  | .char c => .ok [charByte c]
  | .int x => .ok (leBytes 4 (env.value x).asInt)
  | .long x => .ok (leBytes 8 (env.value x).asLong)
  | .size e => .ok (leBytes 4 (e.eval env))
  | .memory x n => do
    check ((n.eval env).toNat ≤ (env.value x).bytes.length) .overrun
    return (env.value x).bytes.take (n.eval env).toNat

/-- A statement that writes. -/
inductive WriteStmt
  /-- `assert(rem >= n)` -/
  | assertRoom (n : SizeExpr)
  /-- A store at an offset from the pointer. -/
  | store (offset : ℕ) (source : Source)
  /-- `p += n; rem -= n` -/
  | advance (n : SizeExpr)
  deriving DecidableEq

def WriteStmt.exec (env : Env) (s : Writer 32) : WriteStmt → Except Fault (Writer 32)
  | .assertRoom n => s.assertRoom (n.eval env)
  | .store offset source => do
    let bytes ← source.eval env
    s.store offset bytes
  | .advance n => s.advance (n.eval env)

/-- A sequence of statements that write. -/
def execWrite (env : Env) (code : List WriteStmt) (s : Writer 32) : Except Fault (Writer 32) :=
  code.foldlM (WriteStmt.exec env) s

/-! ## Reading -/

/-- What a variable gets from a message. -/
inductive Datum
  | int (v : Word)
  | long (v : BitVec 64)
  | string (s : List Byte)
  | blob (b : List Byte)
  /-- The size of a buffer that the other side offers. -/
  | capacity (n : Word)
  deriving DecidableEq

/-- A statement that reads. -/
inductive ReadStmt
  /-- `assert(rem >= n)` -/
  | assertRem (n : ℕ)
  /-- `assert(rem >= size)`, for the size read last. -/
  | assertSize
  /-- `assert(x_size >= size)`, for the size read last. -/
  | assertCapacity (x : String)
  /-- `typecode = *((const char*)p); assert(typecode == c)` -/
  | typecode (c : Char)
  /-- `size_t size = *((const size_t*)p)` -/
  | loadSize
  /-- `x = *((const int*)p)` -/
  | int (x : String)
  /-- `x = *((const long long*)p)` -/
  | long (x : String)
  /-- `size_t x_size = *((const size_t*)p)`, the size of a buffer. -/
  | capacity (x : String)
  /-- `x = (const char*)p` -/
  | pointString (x : String)
  /-- `memcpy(x, p, size)`, into a buffer for a string. -/
  | copyString (x : String)
  /-- `x = p` with its size, or `memcpy(x, p, size)`. -/
  | blob (x : String)
  /-- `p += n; rem -= n` -/
  | advance (n : ℕ)
  /-- `p += size; rem -= size` -/
  | advanceSize
  deriving DecidableEq

/-- What the code that reads has done: the variables set, in order. -/
abbrev Reader := Cursor.Reader 32 (String × Datum)

def ReadStmt.exec (env : Env) (s : Reader) : ReadStmt → Except Fault Reader
  | .assertRem n => s.assertRem (BitVec.ofNat 32 n)
  | .assertSize => s.assertSize
  | .assertCapacity x => s.assertCapacity (env.size x)
  | .typecode c => s.expect (charByte c)
  | .loadSize => s.loadSize 4
  | .int x => s.record 4 fun rest => (x, .int (ofLeBytes 32 (rest.take 4)))
  | .long x => s.record 8 fun rest => (x, .long (ofLeBytes 64 (rest.take 8)))
  | .capacity x => s.record 4 fun rest => (x, .capacity (ofLeBytes 32 (rest.take 4)))
  | .pointString x => s.recordSized fun _ rest => (x, .string (cString rest))
  | .copyString x => s.recordSized fun n rest => (x, .string (cString (rest.take n)))
  | .blob x => s.recordSized fun n rest => (x, .blob (rest.take n))
  | .advance n => s.advance (BitVec.ofNat 32 n)
  | .advanceSize => s.advanceSize

/-- A sequence of statements that read. -/
def execRead (env : Env) (code : List ReadStmt) (s : Reader) : Except Fault Reader :=
  code.foldlM (ReadStmt.exec env) s

/-! ## Fields

The stretches of code that the generators put together, with what they write and read. -/

/-- `assert(rem >= n)`, a store, `p += n; rem -= n`. -/
def putField (n : SizeExpr) (source : Source) : List WriteStmt :=
  [.assertRoom n, .store 0 source, .advance n]

/-- A typecode. -/
def putTypecode (c : Char) : List WriteStmt := putField (.const 1) (.char c)

/-- A size and the bytes at `x`, under one assertion. -/
def putSized (n : SizeExpr) (x : String) : List WriteStmt :=
  [.assertRoom (.add (.const 4) n), .store 0 (.size n), .store 4 (.memory x n),
    .advance (.add (.const 4) n)]

/-- `assert(rem >= n)`, a load, `p += n; rem -= n`. -/
def getField (n : ℕ) (load : ReadStmt) : List ReadStmt := [.assertRem n, load, .advance n]

/-- A typecode. -/
def getTypecode (c : Char) : List ReadStmt := getField 1 (.typecode c)

/-- A size, assertions about it, and what to do with that many bytes. -/
def getSized (assertions : List ReadStmt) (load : ReadStmt) : List ReadStmt :=
  [.assertRem 4, .loadSize, .advance 4] ++ assertions ++ [load, .advanceSize]

variable {env : Env}

theorem writes_nil : Writes (execWrite env []) [] := .nil

theorem execWrite_append (a b : List WriteStmt) (s : Writer 32) :
    execWrite env (a ++ b) s = execWrite env a s >>= execWrite env b := List.foldlM_append

theorem writes_append {a b : List WriteStmt} {x y : List Byte} (ha : Writes (execWrite env a) x)
    (hb : Writes (execWrite env b) y) : Writes (execWrite env (a ++ b)) (x ++ y) := by
  rw [funext (execWrite_append a b)]
  exact ha.bind hb

variable {bytes payload : List Byte} {x : String} {assertions : List ReadStmt} {n : Word}

theorem execWrite_putField {n : SizeExpr} {source : Source} (s : Writer 32)
    (hs : source.eval env = .ok bytes) :
    execWrite env (putField n source) s =
      (s.assertRoom (n.eval env) >>= Writer.store 0 bytes >>= Writer.advance (n.eval env)) := by
  simp only [execWrite, putField, List.foldlM_cons, List.foldlM_nil, WriteStmt.exec, hs, ok_bind,
    bind_assoc, bind_pure]

theorem writes_putField {n : SizeExpr} {source : Source}
    (hs : source.eval env = .ok bytes) (hn : (n.eval env).toNat = bytes.length) :
    Writes (execWrite env (putField n source)) bytes := by
  have : execWrite env (putField n source) = fun s =>
      s.assertRoom (n.eval env) >>= Writer.store 0 bytes >>= Writer.advance (n.eval env) :=
    funext fun s => execWrite_putField s hs
  rw [this]
  exact writes_field hn

theorem writes_putTypecode (c : Char) : Writes (execWrite env (putTypecode c)) [charByte c] :=
  writes_putField rfl rfl

theorem eval_size (e : SizeExpr) :
    (Source.size e).eval env = .ok (leBytes 4 (e.eval env)) := rfl

theorem eval_memory {n : SizeExpr} (h : (n.eval env).toNat ≤ (env.value x).bytes.length) :
    (Source.memory x n).eval env = .ok ((env.value x).bytes.take (n.eval env).toNat) := by
  simp only [Source.eval, check_of _ h, ok_bind, pure_eq_ok]

theorem writes_putSized {n : SizeExpr} (h : (n.eval env).toNat ≤ (env.value x).bytes.length)
    (hfit : (n.eval env).toNat + 4 < 2 ^ 32) :
    Writes (execWrite env (putSized n x))
      (leBytes 4 (n.eval env) ++ (env.value x).bytes.take (n.eval env).toNat) := by
  have hlen : ((SizeExpr.add (.const 4) n).eval env).toNat =
      (leBytes 4 (n.eval env) ++ (env.value x).bytes.take (n.eval env).toNat).length := by
    rw [SizeExpr.eval, SizeExpr.eval, BitVec.toNat_add, List.length_append, length_leBytes,
      List.length_take, Nat.min_eq_left h]
    show (4 + (n.eval env).toNat) % 2 ^ 32 = _
    omega
  have : execWrite env (putSized n x) = fun s =>
      s.assertRoom ((SizeExpr.add (.const 4) n).eval env) >>=
        Writer.store 0 (leBytes 4 (n.eval env)) >>=
        Writer.store (leBytes 4 (n.eval env)).length
          ((env.value x).bytes.take (n.eval env).toNat) >>=
        Writer.advance ((SizeExpr.add (.const 4) n).eval env) := by
    funext s
    simp only [execWrite, putSized, List.foldlM_cons, List.foldlM_nil, WriteStmt.exec,
      eval_memory h, eval_size, ok_bind, bind_assoc, bind_pure, length_leBytes]
  rw [this]
  exact writes_sized_field hlen

theorem reads_nil : Reads (execRead env []) [] [] := .nil

theorem reads_append {a b : List ReadStmt} {x y : List Byte} {l m : List (String × Datum)}
    (ha : Reads (execRead env a) x l) (hb : Reads (execRead env b) y m) :
    Reads (execRead env (a ++ b)) (x ++ y) (l ++ m) := by
  have : execRead env (a ++ b) = fun s => execRead env a s >>= execRead env b := by
    funext s
    exact List.foldlM_append
  rw [this]
  exact ha.bind hb

theorem reads_getTypecode (c : Char) : Reads (execRead env (getTypecode c)) [charByte c] [] := by
  have : execRead env (getTypecode c) = fun s =>
      s.assertRem (1 : Word) >>= Reader.expect (charByte c) >>= Reader.advance (1 : Word) := by
    funext s
    simp only [execRead, getTypecode, getField, List.foldlM_cons, List.foldlM_nil, ReadStmt.exec,
      bind_assoc, bind_pure]
    rfl
  rw [this]
  exact reads_tag _ (by decide)

/-- A field that is recorded by a function of its bytes alone. -/
theorem reads_getField {n : ℕ} {load : ReadStmt}
    {f : List Byte → Datum} (hn : n < 2 ^ 32) (hlen : bytes.length = n)
    (hload : ∀ s, load.exec env s = s.record n fun rest => (x, f (rest.take n))) :
    Reads (execRead env (getField n load)) bytes [(x, f bytes)] := by
  have hn' : (BitVec.ofNat 32 n).toNat = n := by
    rw [BitVec.toNat_ofNat, Nat.mod_eq_of_lt hn]
  have : execRead env (getField n load) = fun s =>
      s.assertRem (BitVec.ofNat 32 n) >>=
        Reader.record (BitVec.ofNat 32 n).toNat (fun rest => (x, f (rest.take n))) >>=
        Reader.advance (BitVec.ofNat 32 n) := by
    funext s
    simp only [execRead, getField, List.foldlM_cons, List.foldlM_nil, hn', bind_assoc, bind_pure,
      hload]
    rfl
  rw [this]
  exact reads_field (by rw [hn', hlen]) fun tail => by rw [List.take_left' hlen]

theorem reads_getSized {load : ReadStmt}
    {f : ℕ → List Byte → String × Datum} {entry : String × Datum} (hn : n.toNat = payload.length)
    (hassert : ∀ s, s.size = n → n ≤ s.rem → execRead env assertions s = .ok s)
    (hload : ∀ s, load.exec env s = s.recordSized f)
    (hf : ∀ tail, f payload.length (payload ++ tail) = entry) :
    Reads (execRead env (getSized assertions load)) (leBytes 4 n ++ payload) [entry] := by
  have : execRead env (getSized assertions load) = fun s =>
      s.assertRem (4 : Word) >>= Reader.loadSize (4 : Word).toNat >>= Reader.advance (4 : Word) >>=
        execRead env assertions >>= Reader.recordSized f >>= Reader.advanceSize := by
    funext s
    simp only [execRead, getSized, List.foldlM_append, List.foldlM_cons, List.foldlM_nil,
      bind_assoc, bind_pure, hload]
    rfl
  rw [this]
  exact reads_sized (by decide) hn hassert hf

theorem reads_int (x : String) (v : Word) :
    Reads (execRead env (getField 4 (.int x))) (leBytes 4 v) [(x, .int v)] := by
  have h := reads_getField (f := fun b => .int (ofLeBytes 32 b)) (by decide) (length_leBytes 4 v)
    (fun s => (rfl : (ReadStmt.int x).exec env s = _))
  rwa [ofLeBytes_leBytes v (by decide)] at h

theorem reads_capacity (x : String) (n : Word) :
    Reads (execRead env (getField 4 (.capacity x))) (leBytes 4 n) [(x, .capacity n)] := by
  have h := reads_getField (f := fun b => .capacity (ofLeBytes 32 b)) (by decide)
    (length_leBytes 4 n) (fun s => (rfl : (ReadStmt.capacity x).exec env s = _))
  rwa [ofLeBytes_leBytes n (by decide)] at h

/-- Whatever eight bytes there are. -/
theorem reads_long_bytes (x : String) (h : bytes.length = 8) :
    Reads (execRead env (getField 8 (.long x))) bytes [(x, .long (ofLeBytes 64 bytes))] :=
  reads_getField (f := fun b => .long (ofLeBytes 64 b)) (by decide) h fun _ => rfl

theorem reads_long (x : String) (v : BitVec 64) :
    Reads (execRead env (getField 8 (.long x))) (leBytes 8 v) [(x, .long v)] := by
  rw [← ofLeBytes_leBytes v (show 64 ≤ 8 * 8 by decide)]
  simpa only [ofLeBytes_leBytes v (show 64 ≤ 8 * 8 by decide)] using
    reads_long_bytes x (length_leBytes 8 v)

section Sized

variable {assertions : List ReadStmt} {payload : List Byte} {n : Word}

theorem reads_blob (x : String) (hn : n.toNat = payload.length)
    (hassert : ∀ s, s.size = n → n ≤ s.rem → execRead env assertions s = .ok s) :
    Reads (execRead env (getSized assertions (.blob x))) (leBytes 4 n ++ payload)
      [(x, .blob payload)] :=
  reads_getSized (f := fun n rest => (x, .blob (rest.take n))) hn hassert (fun _ => rfl)
    fun _ => by rw [List.take_left' rfl]

theorem reads_copyString (x : String) (hn : n.toNat = payload.length)
    (hassert : ∀ s, s.size = n → n ≤ s.rem → execRead env assertions s = .ok s) :
    Reads (execRead env (getSized assertions (.copyString x))) (leBytes 4 n ++ payload)
      [(x, .string (cString payload))] :=
  reads_getSized (f := fun n rest => (x, .string (cString (rest.take n)))) hn hassert
    (fun _ => rfl) fun _ => by rw [List.take_left' rfl]

theorem reads_pointString (x : String) {str : List Byte} (hn : n.toNat = payload.length)
    (hassert : ∀ s, s.size = n → n ≤ s.rem → execRead env assertions s = .ok s)
    (hstr : ∀ tail, cString (payload ++ tail) = str) :
    Reads (execRead env (getSized assertions (.pointString x))) (leBytes 4 n ++ payload)
      [(x, .string str)] :=
  reads_getSized (f := fun _ rest => (x, .string (cString rest))) hn hassert (fun _ => rfl)
    fun tail => by rw [hstr tail]

theorem execRead_assertSize (s : Reader) (hs : s.size = n) (hn : n ≤ s.rem) :
    execRead env [.assertSize] s = .ok s := by
  subst hs
  simp [execRead, ReadStmt.exec, Cursor.Reader.assertSize, check_of _ hn]

theorem execRead_assertions (hx : n ≤ env.size x) (s : Reader) (hs : s.size = n) (hn : n ≤ s.rem) :
    execRead env [.assertSize, .assertCapacity x] s = .ok s ∧
      execRead env [.assertCapacity x, .assertSize] s = .ok s := by
  subst hs
  simp [execRead, ReadStmt.exec, Cursor.Reader.assertSize, Cursor.Reader.assertCapacity,
    check_of _ hn, check_of _ hx]

end Sized

/-! ## Code for a list of arguments -/

/-- A typecode, a size and that many bytes. -/
theorem evalSizes_sized (e : SizeExpr) (start : Word) :
    evalSizes env [.const 1, .const 4, e] start =
      start + BitVec.ofNat 32 (4 + (e.eval env).toNat + 1) := by
  show start + BitVec.ofNat 32 1 + BitVec.ofNat 32 4 + e.eval env = _
  rw [BitVec.ofNat_add, BitVec.ofNat_add, BitVec.ofNat_toNat, BitVec.setWidth_eq]
  ac_rfl

/-- A loop of a generator over the arguments of a function. -/
def emitAll {α : Type} (emit : RPCArgument → Except GenFault (List α)) :
    List RPCArgument → Except GenFault (List α)
  | [] => .ok []
  | arg :: args => do
    let code ← emit arg
    let rest ← emitAll emit args
    return code ++ rest

variable {bytes : RPCArgument → List Byte} {args : List RPCArgument}

theorem emitAll_writes {emit : RPCArgument → Except GenFault (List WriteStmt)}
        (h : ∀ arg ∈ args, ∃ code, emit arg = .ok code ∧ Writes (execWrite env code) (bytes arg)) :
    ∃ code, emitAll emit args = .ok code ∧ Writes (execWrite env code) (args.flatMap bytes) := by
  induction args with
  | nil => exact ⟨[], rfl, writes_nil⟩
  | cons arg args ih =>
    obtain ⟨code, hcode, hw⟩ := h arg (.head _)
    obtain ⟨rest, hrest, hws⟩ := ih fun a ha => h a (.tail _ ha)
    refine ⟨code ++ rest, ?_, writes_append hw hws⟩
    simp only [emitAll, hcode, hrest, ok_bind, pure_eq_ok]

theorem emitAll_reads {emit : RPCArgument → Except GenFault (List ReadStmt)}
    {data : RPCArgument → List (String × Datum)} (h : ∀ arg ∈ args, ∃ code, emit arg = .ok code ∧
      Reads (execRead env code) (bytes arg) (data arg)) :
    ∃ code, emitAll emit args = .ok code ∧
      Reads (execRead env code) (args.flatMap bytes) (args.flatMap data) := by
  induction args with
  | nil => exact ⟨[], rfl, reads_nil⟩
  | cons arg args ih =>
    obtain ⟨code, hcode, hr⟩ := h arg (.head _)
    obtain ⟨rest, hrest, hrs⟩ := ih fun a ha => h a (.tail _ ha)
    refine ⟨code ++ rest, ?_, reads_append hr hrs⟩
    simp only [emitAll, hcode, hrest, ok_bind, pure_eq_ok]

theorem emitAll_sizes {emit : RPCArgument → Except GenFault (List SizeExpr)} {len : RPCArgument → ℕ}
    (h : ∀ arg ∈ args, ∃ sizes, emit arg = .ok sizes ∧
      ∀ start, evalSizes env sizes start = start + BitVec.ofNat 32 (len arg)) :
    ∃ sizes, emitAll emit args = .ok sizes ∧
      ∀ start, evalSizes env sizes start = start + BitVec.ofNat 32 (args.map len).sum := by
  induction args with
  | nil => exact ⟨[], rfl, fun start => by simp [evalSizes]⟩
  | cons arg args ih =>
    obtain ⟨sizes, hsizes, heval⟩ := h arg (.head _)
    obtain ⟨rest, hrest, hevals⟩ := ih fun a ha => h a (.tail _ ha)
    refine ⟨sizes ++ rest, by simp only [emitAll, hsizes, hrest, ok_bind, pure_eq_ok],
      fun start => ?_⟩
    have happ : evalSizes env (sizes ++ rest) start =
      evalSizes env rest (evalSizes env sizes start) := List.foldl_append
    rw [happ, hevals, heval, List.map_cons, List.sum_cons, BitVec.ofNat_add, BitVec.add_assoc]

end Rastapopoulos.Rpc
