import Rastapopoulos.Foundations.Fallible
import Rastapopoulos.Foundations.Word

/-!
# Formatted output

The formatting functions of `common/string.c`, on arrays of characters that fault when they are
accessed outside. A string argument is the list of its characters, without the NUL behind them; the
arguments are a list from which `va_arg` takes the next one, and faults if it is of another type.
Counts of type `int` wrap around at `2 ^ 32`, and so does an address computed from one.
-/

namespace Rastapopoulos.Strings

abbrev Byte := BitVec 8

/-- How a call goes wrong. -/
inductive Fault
  /-- An access outside an array, or behind the NUL of a string. -/
  | overrun
  /-- `va_arg` for a type other than that of the next argument. -/
  | argument
  deriving DecidableEq, Repr

/-- The character as a byte. -/
def ch (c : Char) : Byte := BitVec.ofNat 8 c.toNat

/-- A string: its characters up to the NUL. -/
structure CString where
  chars : List Byte
  nonzero : 0 ∉ chars

/-! ## Arrays of characters -/

/-- `array[i] = c`. -/
def store (array : List Byte) (i : ℕ) (c : Byte) : Except Fault (List Byte) := do
  check (i < array.length) .overrun
  return array.set i c

/-- `array[i]`. -/
def load (array : List Byte) (i : ℕ) : Except Fault Byte :=
  match array[i]? with
  | some c => .ok c
  | none => .error .overrun

/-- The characters in front of the first NUL. -/
def chars : List Byte → Except Fault (List Byte)
  | [] => .error .overrun
  | c :: s => if c = 0 then .ok [] else do return c :: (← chars s)

/-- `strlen(array + str)`. -/
def strlen (array : List Byte) (str : ℕ) : Except Fault ℕ := do
  return (← chars (array.drop str)).length

/-- `strlcpy(array + dst, src, siz)`. -/
def strlcpy (array : List Byte) (dst : ℕ) : List Byte → ℕ → Except Fault (List Byte)
  | [], _ => store array dst 0
  | c :: src, siz =>
    if 1 < siz then do strlcpy (← store array dst c) (dst + 1) src (siz - 1)
    else store array dst 0

/-- `strcmp(s0, s1)`. The test for the end of a string is made of `s0`, twice. -/
def strcmp : List Byte → List Byte → Except Fault ℤ
  | c0 :: s0, c1 :: s1 =>
    if c0 = 0 ∨ c0 = 0 then .ok (c1.toInt - c0.toInt)
    else if c0 ≠ c1 then .ok (c1.toInt - c0.toInt)
    else strcmp s0 s1
  | _, _ => .error .overrun

/-- The loop of `strreverse`, for at most `fuel` turns. -/
def strreverseLoop (buffer : ℕ) : ℕ → List Byte → ℕ → ℕ → Except Fault (List Byte)
  | 0, array, _, _ => .ok array
  | fuel + 1, array, start, stop =>
    if start < stop then do
      let tmp ← load array (buffer + start)
      let array ← store array (buffer + start) (← load array (buffer + stop))
      let array ← store array (buffer + stop) tmp
      strreverseLoop buffer fuel array (start + 1) (stop - 1)
    else .ok array

/-- `strreverse(array + buffer, -1)`, the only way it is called. -/
def strreverse (array : List Byte) (buffer : ℕ) : Except Fault (List Byte) := do
  let size ← strlen array buffer
  strreverseLoop buffer size array 0 (size - 1)

/-! ## Numbers -/

/-- The character for a digit. -/
def digit (d : ℕ) : Byte :=
  if d < 10 then ch '0' + BitVec.ofNat 8 d else ch 'A' + BitVec.ofNat 8 (d - 10)

/-- The state of the loop of `format_int`. -/
structure IntLoop where
  array : List Byte
  size : ℕ
  out : ℕ
  n : ℕ
  ret : ℕ

/-- One turn. -/
def formatIntTurn (base : ℕ) (s : IntLoop) : Except Fault IntLoop := do
  if s.size ≠ 0 then
    let array ← store s.array s.out (digit (s.n % base))
    return ⟨array, s.size - 1, s.out + 1, s.n / base, s.ret + 1⟩
  else
    return { s with n := s.n / base, ret := s.ret + 1 }

/-- `while((!ret) || n)`, for at most `fuel` turns. -/
def formatIntLoop (base : ℕ) : ℕ → IntLoop → Except Fault IntLoop
  | 0, s => .ok s
  | fuel + 1, s => if s.ret = 0 ∨ s.n ≠ 0 then do formatIntLoop base fuel (← formatIntTurn base s)
    else .ok s

/-- `format_int(array + buffer, size, n, base)`. A number of 64 bits takes at most 64 turns. -/
def formatInt (array : List Byte) (buffer size n base : ℕ) : Except Fault (List Byte × ℕ) := do
  let array ← if size ≠ 0 then store array buffer 0 else pure array
  let s ← formatIntLoop base 64 ⟨array, size, buffer, n, 0⟩
  if s.size ≠ 0 then
    let array ← store s.array s.out 0
    return (← strreverse array buffer, s.ret + 1)
  else
    return (s.array, s.ret + 1)

/-! ## Formats -/

/-- An argument, by the type that `va_arg` takes it at: `unsigned`, `unsigned long long`,
`char*`. -/
inductive Arg
  | word (n : BitVec 32)
  | quad (n : BitVec 64)
  | str (s : CString)

/-- What has been read of a conversion. -/
structure Conversion where
  l : ℕ := 0
  width : ℕ := 0
  leadingZero : ℕ := 0

/-- The number to convert, and the arguments that are left. -/
def nextNumber (cv : Conversion) (args : List Arg) : Except Fault (ℕ × List Arg) :=
  if cv.l < 2 then
    match args with
    | .word n :: args => .ok (n.toNat, args)
    | _ => .error .argument
  else
    match args with
    | .quad n :: args => .ok (n.toNat, args)
    | _ => .error .argument

def nextString : List Arg → Except Fault (List Byte × List Arg)
  | .str s :: args => .ok (s.chars, args)
  | _ => .error .argument

/-- `num_buffer`, which is not initialised: no byte of it is a NUL. -/
def numBuffer : List Byte := List.replicate 64 0xCC

section Formatv

variable {σ : Type} (callback : σ → Byte → Except Fault σ)

/-- `callback(ch, callback_params); ret++`, for some characters. -/
def emit (st : σ × ℕ) (s : List Byte) : Except Fault (σ × ℕ) :=
  s.foldlM (fun st c => do return (← callback st.1 c, addW st.2 1)) st

/-- A number, padded with zeros: the cases `d`, `u`, `X` and `x`. -/
def emitNumber (cv : Conversion) (st : σ × ℕ) (n base : ℕ) : Except Fault (σ × ℕ) := do
  let (buffer, _) ← formatInt numBuffer 0 64 n base
  let len ← strlen buffer 0
  let st ←
    if cv.leadingZero ≠ 0 ∧ len < cv.width then
      emit callback st (List.replicate (cv.width - len) (ch '0'))
    else pure st
  emit callback st (← chars buffer)

/-- An address: the cases `p` and `P`. -/
def emitPointer (st : σ × ℕ) (n : ℕ) : Except Fault (σ × ℕ) := do
  let buffer ← strlcpy numBuffer 0 [ch '0', ch 'x'] 64
  let (buffer, _) ← formatInt buffer 2 62 n 16
  emit callback st (← chars buffer)

/-- A digit of the width. A zero in front of it is a flag. -/
def Conversion.readDigit (cv : Conversion) (c : Byte) : Conversion :=
  if c = ch '0' ∧ cv.width = 0 then { cv with leadingZero := cv.leadingZero + 1 }
  else if cv.width = 0 then { cv with width := (c - ch '0').toNat }
  else { cv with width := addW (cv.width * 10) (c - ch '0').toNat }

/-- The loops of `formatv`: over the format, and from a `%` on over the conversion. A character that
belongs to no conversion is put out and does not end it; so the inner loop goes on behind the NUL
when the format ends in the middle of a conversion. -/
def formatvLoop : Option Conversion → List Byte → List Arg → σ × ℕ → Except Fault (σ × ℕ)
  | none, [], _, st => .ok st
  | none, c :: fmt, args, st =>
    if c = ch '%' then formatvLoop (some {}) fmt args st
    else do formatvLoop none fmt args (← emit callback st [c])
  | some _, [], _, _ => .error .overrun
  | some cv, c :: fmt, args, st =>
    if c = ch 'd' ∨ c = ch 'u' then do
      let (n, args) ← nextNumber cv args
      formatvLoop none fmt args (← emitNumber callback cv st n 10)
    else if c = ch 's' then do
      let (s, args) ← nextString args
      formatvLoop none fmt args (← emit callback st s)
    else if c = ch 'X' ∨ c = ch 'x' then do
      let (n, args) ← nextNumber cv args
      formatvLoop none fmt args (← emitNumber callback cv st n 16)
    else if c = ch 'p' ∨ c = ch 'P' then do
      let (n, args) ← nextNumber cv args
      formatvLoop none fmt args (← emitPointer callback st n)
    else if c = ch 'l' then formatvLoop (some { cv with l := cv.l + 1 }) fmt args st
    else if ch '0' ≤ c ∧ c ≤ ch '9' then formatvLoop (some (cv.readDigit c)) fmt args st
    else do formatvLoop (some cv) fmt args (← emit callback st [c])

def formatv (params : σ) (fmt : CString) (args : List Arg) : Except Fault (σ × ℕ) :=
  formatvLoop callback none fmt.chars args (params, 0)

end Formatv

/-! ## Formatting into an array -/

/-- `snprintf_t`, with the array that `buf` points into. -/
structure SnprintfT where
  array : List Byte
  buf : ℕ
  siz : ℕ

def snprintfCallback (s : SnprintfT) (c : Byte) : Except Fault SnprintfT := do
  if s.siz ≠ 0 then
    let array ← store s.array s.buf c
    return ⟨array, s.buf + 1, s.siz - 1⟩
  else
    return s

/-- `vsnprintf`, on an array `buffer` of `size` characters. -/
def vsnprintf (buffer : List Byte) (size : ℕ) (fmt : CString) (args : List Arg) :
    Except Fault (List Byte × ℕ) := do
  let (buf, ret) ← formatv snprintfCallback ⟨buffer, 0, subW size 1⟩ fmt args
  let buffer ← store buf.array ret 0
  return (buffer, addW ret 1)

end Rastapopoulos.Strings
