import Rastapopoulos.Strings.Numerals

/-!
# What a format means

A format is a sequence of pieces: characters that stand for themselves, and conversions
`%[0][width][l|ll](d|u|x|X|p|P|s)`. A `Piece` comes with the argument that it converts, so that a
list of them gives a format, the arguments that go with it and the output. `formatv` passes that
output to its callback, one character after another (`formatv_eq`).
-/

namespace Rastapopoulos.Strings

/-! ## Pieces -/

/-- The flag `0` and the width. -/
structure Flags where
  zero : Bool
  width : ℕ
  width_lt : width < 2 ^ 31

/-- The width, written in front of the conversion if it is not 0. -/
def widthText (width : ℕ) : List Byte := ((Nat.digits 10 width).map digit).reverse

def Flags.text (flags : Flags) : List Byte :=
  (if flags.zero then [ch '0'] else []) ++ widthText flags.width

/-- The conversions of a number. -/
inductive NumberConversion
  | d | u | x | X | p | P
  deriving DecidableEq, Repr

def NumberConversion.char : NumberConversion → Byte
  | .d => ch 'd'
  | .u => ch 'u'
  | .x => ch 'x'
  | .X => ch 'X'
  | .p => ch 'p'
  | .P => ch 'P'

/-- A number, by the number of `l`s that announce it. -/
inductive Number
  | plain (n : BitVec 32)
  | long (n : BitVec 32)
  | longLong (n : BitVec 64)

namespace Number

def ls : Number → ℕ
  | plain _ => 0
  | long _ => 1
  | longLong _ => 2

def toNat : Number → ℕ
  | plain n => n.toNat
  | long n => n.toNat
  | longLong n => n.toNat

def arg : Number → Arg
  | plain n => .word n
  | long n => .word n
  | longLong n => .quad n

end Number

/-- A piece of a format, with its argument. -/
inductive Piece
  | literal (c : Byte) (nonzero : c ≠ 0) (percent : c ≠ ch '%')
  | number (flags : Flags) (conversion : NumberConversion) (value : Number)
  | string (flags : Flags) (ls : Fin 3) (s : CString)

/-- The numeral, filled up with zeros. -/
def padded (flags : Flags) (s : List Byte) : List Byte :=
  (if flags.zero then List.replicate (flags.width - s.length) (ch '0') else []) ++ s

def NumberConversion.output (flags : Flags) (n : ℕ) : NumberConversion → List Byte
  | .d | .u => padded flags (numeral 10 n)
  | .x | .X => padded flags (numeral 16 n)
  | .p | .P => [ch '0', ch 'x'] ++ numeral 16 n

namespace Piece

def text : Piece → List Byte
  | literal c _ _ => [c]
  | number flags conversion value =>
    ch '%' :: (flags.text ++ (List.replicate value.ls (ch 'l') ++ [conversion.char]))
  | string flags ls _ => ch '%' :: (flags.text ++ (List.replicate ls (ch 'l') ++ [ch 's']))

def args : Piece → List Arg
  | literal _ _ _ => []
  | number _ _ value => [value.arg]
  | string _ _ s => [.str s]

def output : Piece → List Byte
  | literal c _ _ => [c]
  | number flags conversion value => conversion.output flags value.toNat
  | string _ _ s => s.chars

end Piece

/-! ## The characters of a conversion -/

/-- The letters that end a conversion. -/
def Closing (c : Byte) : Prop :=
  (c = ch 'd' ∨ c = ch 'u') ∨ c = ch 's' ∨ (c = ch 'X' ∨ c = ch 'x') ∨ c = ch 'p' ∨ c = ch 'P'

instance (c : Byte) : Decidable (Closing c) := inferInstanceAs (Decidable (_ ∨ _))

/-- An `l`, or a digit of the width. -/
def IsFlag (c : Byte) : Prop := c = ch 'l' ∨ ch '0' ≤ c ∧ c ≤ ch '9'

instance (c : Byte) : Decidable (IsFlag c) := inferInstanceAs (Decidable (_ ∨ _))

theorem IsFlag.not_closing : ∀ c, IsFlag c → ¬ Closing c := by decide +kernel

def Conversion.read (cv : Conversion) (c : Byte) : Conversion :=
  if c = ch 'l' then { cv with l := cv.l + 1 } else cv.readDigit c

/-- The zeros in front of a numeral. -/
def Conversion.pad (cv : Conversion) (s : List Byte) : List Byte :=
  (if cv.leadingZero ≠ 0 then List.replicate (cv.width - s.length) (ch '0') else []) ++ s

/-- The output of a conversion that ends with the letter `c`, and the arguments that are left. -/
def convert (cv : Conversion) (c : Byte) (args : List Arg) : Except Fault (List Byte × List Arg) :=
  if c = ch 's' then nextString args
  else do
    let (n, args) ← nextNumber cv args
    return (if c = ch 'd' ∨ c = ch 'u' then cv.pad (numeral 10 n)
      else if c = ch 'X' ∨ c = ch 'x' then cv.pad (numeral 16 n)
      else [ch '0', ch 'x'] ++ numeral 16 n, args)

variable {σ : Type} {callback : σ → Byte → Except Fault σ} {st : σ × ℕ} {cv : Conversion} {c : Byte}
  {fmt : List Byte} {args args' : List Arg} {flags : Flags} {n base l width zeros d : ℕ}

theorem nextNumber_lt (h : nextNumber cv args = .ok (n, args')) : n < 2 ^ 64 := by
  unfold nextNumber at h
  split at h
  · split at h
    · rename_i v _
      cases h
      exact v.isLt.trans (by decide)
    · cases h
  · split at h
    · rename_i v _
      cases h
      exact v.isLt
    · cases h

theorem emit_append (a b : List Byte) :
    emit callback st (a ++ b) = emit callback st a >>= fun st => emit callback st b :=
  List.foldlM_append

theorem length_numeral_le (hbase : 10 ≤ base) (hn : n < 2 ^ 64) : (numeral base n).length ≤ 20 := by
  have hpow : n < base ^ (19 + 1) :=
    calc n < 2 ^ 64 := hn
      _ ≤ 10 ^ 20 := by decide
      _ ≤ base ^ (19 + 1) := Nat.pow_le_pow_left hbase 20
  rw [numeral, List.length_reverse]
  exact length_lowDigits_le (by omega) hpow

theorem zero_notMem_numeral (hbase : 1 < base) (hle : base ≤ 16) : 0 ∉ numeral base n := by
  rw [numeral, List.mem_reverse]
  exact zero_notMem_lowDigits hbase hle

/-- The numeral in `num_buffer`. -/
theorem formatInt_numBuffer (hbase : 10 ≤ base) (hle : base ≤ 16) (hn : n < 2 ^ 64) :
    ∃ rest, formatInt numBuffer 0 64 n base =
      .ok (numeral base n ++ 0 :: rest, (numeral base n).length + 1) := by
  have hlen := length_numeral_le hbase hn
  have hsize : 64 ≤ numBuffer.length := by rw [numBuffer, List.length_replicate]
  have heq : formatInt ([] ++ numBuffer) 0 64 n base = _ :=
    formatInt_eq (by omega) hle hn (by omega) hsize
  exact ⟨_, heq⟩

theorem emitNumber_pad (hbase : 10 ≤ base) (hle : base ≤ 16) (hn : n < 2 ^ 64) :
    emitNumber callback cv st n base = emit callback st (cv.pad (numeral base n)) := by
  have hzero : 0 ∉ numeral base n := zero_notMem_numeral (by omega) hle
  obtain ⟨rest, hint⟩ := formatInt_numBuffer hbase hle hn
  have hstrlen : strlen ([] ++ (numeral base n ++ 0 :: rest)) 0 = .ok (numeral base n).length :=
    strlen_append hzero
  rw [List.nil_append] at hstrlen
  simp only [emitNumber, hint, ok_bind, hstrlen, chars_append hzero, Conversion.pad, emit_append]
  by_cases hlead : cv.leadingZero = 0
  · simp [hlead, emit]
  · by_cases hlt : (numeral base n).length < cv.width
    · simp [hlead, hlt]
    · simp [hlead, hlt, Nat.sub_eq_zero_of_le (Nat.le_of_not_lt hlt), emit]

theorem emitPointer_eq (hn : n < 2 ^ 64) :
    emitPointer callback st n = emit callback st ([ch '0', ch 'x'] ++ numeral 16 n) := by
  have hlen := length_numeral_le (by decide : 10 ≤ 16) hn
  have hzero : 0 ∉ [ch '0', ch 'x'] ++ numeral 16 n := by
    rw [List.mem_append, not_or]
    exact ⟨by decide, zero_notMem_numeral (by decide) (by decide)⟩
  have hcopy : strlcpy numBuffer 0 [ch '0', ch 'x'] 64 =
      .ok ([ch '0', ch 'x'] ++ 0 :: List.replicate 61 0xCC) := rfl
  have hint : formatInt ([ch '0', ch 'x'] ++ 0 :: List.replicate 61 0xCC) 2 62 n 16 = _ :=
    formatInt_eq (by decide) (by decide) hn (by omega)
      (by rw [List.length_cons, List.length_replicate])
  rw [emitPointer, hcopy, ok_bind, hint, ok_bind]
  dsimp only
  rw [← List.append_assoc, chars_append hzero, ok_bind]

/-- A letter: the output of the conversion is put out. -/
theorem formatvLoop_closing (hc : Closing c) :
    formatvLoop callback (some cv) (c :: fmt) args st =
      convert cv c args >>= fun r => emit callback st r.1 >>= formatvLoop callback none fmt r.2 := by
  have hnumber : ∀ base, 10 ≤ base → base ≤ 16 →
      (nextNumber cv args >>= fun r => emitNumber callback cv st r.1 base >>=
        formatvLoop callback none fmt r.2) =
      nextNumber cv args >>= fun r => emit callback st (cv.pad (numeral base r.1)) >>=
        formatvLoop callback none fmt r.2 := by
    intro base hbase hle
    cases h : nextNumber cv args with
    | error e => rfl
    | ok r => simp only [ok_bind, emitNumber_pad hbase hle (nextNumber_lt h)]
  have hpointer : (nextNumber cv args >>= fun r => emitPointer callback st r.1 >>=
        formatvLoop callback none fmt r.2) =
      nextNumber cv args >>= fun r => emit callback st ([ch '0', ch 'x'] ++ numeral 16 r.1) >>=
        formatvLoop callback none fmt r.2 := by
    cases h : nextNumber cv args with
    | error e => rfl
    | ok r => simp only [ok_bind, emitPointer_eq (nextNumber_lt h)]
  rcases hc with (rfl | rfl) | rfl | (rfl | rfl) | rfl | rfl
  · simpa [formatvLoop, convert, ch] using hnumber 10 (by decide) (by decide)
  · simpa [formatvLoop, convert, ch] using hnumber 10 (by decide) (by decide)
  · simp [formatvLoop, convert, ch]
  · simpa [formatvLoop, convert, ch] using hnumber 16 (by decide) (by decide)
  · simpa [formatvLoop, convert, ch] using hnumber 16 (by decide) (by decide)
  · simpa [formatvLoop, convert, ch] using hpointer
  · simpa [formatvLoop, convert, ch] using hpointer

theorem formatvLoop_flag (hc : IsFlag c) :
    formatvLoop callback (some cv) (c :: fmt) args st =
      formatvLoop callback (some (cv.read c)) fmt args st := by
  have hclosing := IsFlag.not_closing c hc
  simp only [Closing, not_or] at hclosing
  obtain ⟨hd, hs, hx, hp⟩ := hclosing
  rw [formatvLoop, if_neg (not_or.mpr hd), if_neg hs, if_neg (not_or.mpr hx),
    if_neg (not_or.mpr hp), Conversion.read]
  by_cases hl : c = ch 'l'
  · rw [if_pos hl, if_pos hl]
  · rw [if_neg hl, if_neg hl, if_pos (hc.resolve_left hl)]

theorem formatvLoop_other (hclosing : ¬ Closing c) (hflag : ¬ IsFlag c) :
    formatvLoop callback (some cv) (c :: fmt) args st =
      emit callback st [c] >>= formatvLoop callback (some cv) fmt args := by
  simp only [Closing, IsFlag, not_or] at hclosing hflag
  obtain ⟨hd, hs, hx, hp⟩ := hclosing
  rw [formatvLoop, if_neg (not_or.mpr hd), if_neg hs, if_neg (not_or.mpr hx), if_neg (not_or.mpr hp),
    if_neg hflag.1, if_neg hflag.2]

/-! ## Reading a conversion -/

theorem digit_cases : ∀ d < 10, IsFlag (digit d) ∧ digit d ≠ ch 'l' ∧
    (digit d - ch '0').toNat = d ∧ (digit d = ch '0' ↔ d = 0) := by decide

theorem Conversion.read_digit (hd : d < 10) (hne : width * 10 + d ≠ 0)
    (hlt : width * 10 + d < wordMod) :
    Conversion.read ⟨l, width, zeros⟩ (digit d) = ⟨l, width * 10 + d, zeros⟩ := by
  obtain ⟨-, hl, hval, hzero⟩ := digit_cases d hd
  have hfirst : ¬ (digit d = ch '0' ∧ width = 0) := by
    rw [hzero]
    omega
  rw [Conversion.read, if_neg hl, Conversion.readDigit, if_neg hfirst, hval]
  split
  · rename_i hw
    rw [show width = 0 from hw, Nat.zero_mul, Nat.zero_add]
  · rw [addW_of_lt hlt]

theorem widthText_eq (hpos : 0 < width) :
    widthText width = widthText (width / 10) ++ [digit (width % 10)] := by
  rw [widthText, Nat.digits_def' (by decide) hpos, List.map_cons, List.reverse_cons, widthText]

/-- **The width** is read digit by digit. -/
theorem formatvLoop_width (hwidth : width < wordMod) :
    formatvLoop callback (some ⟨l, 0, zeros⟩) (widthText width ++ fmt) args st =
      formatvLoop callback (some ⟨l, width, zeros⟩) fmt args st := by
  induction width using Nat.strongRecOn generalizing fmt with
  | ind width ih =>
    rcases Nat.eq_zero_or_pos width with rfl | hpos
    · simp [widthText]
    · have hdiv : width / 10 < width := Nat.div_lt_self hpos (by decide)
      have hdigit : width % 10 < 10 := Nat.mod_lt _ (by decide)
      have hval : width / 10 * 10 + width % 10 = width := Nat.div_add_mod' width 10
      rw [widthText_eq hpos, List.append_assoc, List.singleton_append,
        ih _ hdiv (hdiv.trans hwidth), formatvLoop_flag (digit_cases _ hdigit).1,
        Conversion.read_digit hdigit (by omega) (by rwa [hval]), hval]

theorem formatvLoop_flags :
    formatvLoop callback (some {}) (flags.text ++ fmt) args st =
      formatvLoop callback (some ⟨0, flags.width, if flags.zero then 1 else 0⟩) fmt args st := by
  have hwidth : flags.width < wordMod := flags.width_lt.trans (by decide)
  rw [Flags.text, List.append_assoc]
  split
  · rw [List.singleton_append, formatvLoop_flag (by decide),
      show Conversion.read {} (ch '0') = ⟨0, 0, 1⟩ from rfl, formatvLoop_width hwidth]
  · rw [List.nil_append, formatvLoop_width hwidth]

theorem formatvLoop_ls (k : ℕ) :
    formatvLoop callback (some ⟨l, width, zeros⟩) (List.replicate k (ch 'l') ++ fmt) args st =
      formatvLoop callback (some ⟨l + k, width, zeros⟩) fmt args st := by
  induction k generalizing l with
  | zero => rfl
  | succ k ih =>
    rw [List.replicate_succ, List.cons_append, formatvLoop_flag (.inl rfl), Conversion.read,
      if_pos rfl, ih, Nat.add_assoc, Nat.add_comm 1 k]

/-! ## The output -/

theorem nextNumber_eq (value : Number) :
    nextNumber ⟨value.ls, width, zeros⟩ (value.arg :: args) = .ok (value.toNat, args) := by
  cases value <;> rfl

theorem pad_flags (s : List Byte) :
    Conversion.pad ⟨l, flags.width, if flags.zero then 1 else 0⟩ s = padded flags s := by
  rw [Conversion.pad, padded]
  cases flags.zero <;> rfl

theorem formatvLoop_number (conversion : NumberConversion) (value : Number) :
    formatvLoop callback (some ⟨value.ls, flags.width, if flags.zero then 1 else 0⟩)
        (conversion.char :: fmt) (value.arg :: args) st =
      emit callback st (conversion.output flags value.toNat) >>= formatvLoop callback none fmt args := by
  rw [formatvLoop_closing (by cases conversion <;> decide)]
  cases conversion <;>
    simp [convert, NumberConversion.char, NumberConversion.output, nextNumber_eq, pad_flags, ch]

/-- One piece. -/
theorem formatvLoop_piece (piece : Piece) :
    formatvLoop callback none (piece.text ++ fmt) (piece.args ++ args) st =
      emit callback st piece.output >>= formatvLoop callback none fmt args := by
  cases piece with
  | literal c nonzero percent =>
    rw [Piece.text, List.singleton_append, formatvLoop, if_neg percent]
    rfl
  | number flags conversion value =>
    rw [Piece.text, List.cons_append, formatvLoop, if_pos rfl, List.append_assoc, formatvLoop_flags,
      List.append_assoc, formatvLoop_ls, Nat.zero_add, List.singleton_append]
    exact formatvLoop_number conversion value
  | string flags ls s =>
    rw [Piece.text, List.cons_append, formatvLoop, if_pos rfl, List.append_assoc, formatvLoop_flags,
      List.append_assoc, formatvLoop_ls, List.singleton_append, formatvLoop_closing (by decide)]
    rfl

theorem formatvLoop_pieces (pieces : List Piece) :
    formatvLoop callback none (pieces.flatMap Piece.text) (pieces.flatMap Piece.args) st =
      emit callback st (pieces.flatMap Piece.output) := by
  induction pieces generalizing st with
  | nil => rfl
  | cons piece pieces ih =>
    rw [List.flatMap_cons, List.flatMap_cons, List.flatMap_cons, formatvLoop_piece, emit_append]
    exact bind_congr fun st => ih

theorem zero_notMem_widthText : 0 ∉ widthText width := by
  intro hmem
  obtain ⟨d, hd, heq⟩ := List.mem_map.mp (List.mem_reverse.mp hmem)
  have hlt : d < 10 := Nat.digits_lt_base (by decide) hd
  exact digit_ne_zero d (by omega) heq

theorem Piece.zero_notMem_text (piece : Piece) : 0 ∉ piece.text := by
  have hflags : ∀ flags : Flags, 0 ∉ flags.text := by
    intro flags
    rw [Flags.text, List.mem_append, not_or]
    refine ⟨?_, zero_notMem_widthText⟩
    split <;> decide
  have hls : ∀ k, 0 ∉ List.replicate k (ch 'l') := fun k hmem =>
    absurd (List.eq_of_mem_replicate hmem) (by decide)
  cases piece with
  | literal c nonzero percent => simpa [Piece.text] using nonzero.symm
  | number flags conversion value =>
    have hchar : 0 ≠ conversion.char := by cases conversion <;> decide
    simp only [Piece.text, List.mem_cons, List.mem_append, List.not_mem_nil, hflags, hls, hchar,
      or_false, or_self]
    decide
  | string flags ls s =>
    simp only [Piece.text, List.mem_cons, List.mem_append, List.not_mem_nil, hflags, hls,
      or_false, false_or]
    decide

theorem Piece.zero_notMem_output (piece : Piece) : 0 ∉ piece.output := by
  have hpadded : ∀ flags s, 0 ∉ s → 0 ∉ padded flags s := by
    intro flags s hs hmem
    rcases List.mem_append.mp hmem with hmem | hmem
    · split at hmem
      · exact absurd (List.eq_of_mem_replicate hmem) (by decide)
      · exact absurd hmem List.not_mem_nil
    · exact hs hmem
  have hdec : ∀ n, 0 ∉ numeral 10 n := fun n => zero_notMem_numeral (by decide) (by decide)
  have hhex : ∀ n, 0 ∉ numeral 16 n := fun n => zero_notMem_numeral (by decide) (by decide)
  cases piece with
  | literal c nonzero percent => simpa [Piece.output] using nonzero.symm
  | string flags ls s => exact s.nonzero
  | number flags conversion value =>
    cases conversion with
    | d => exact hpadded _ _ (hdec _)
    | u => exact hpadded _ _ (hdec _)
    | x => exact hpadded _ _ (hhex _)
    | X => exact hpadded _ _ (hhex _)
    | p => exact fun hmem => (List.mem_append.mp hmem).elim (by decide) (hhex _)
    | P => exact fun hmem => (List.mem_append.mp hmem).elim (by decide) (hhex _)

/-- The format that the pieces make up. -/
def formatOf (pieces : List Piece) : CString where
  chars := pieces.flatMap Piece.text
  nonzero hmem := by
    obtain ⟨piece, -, hpiece⟩ := List.mem_flatMap.mp hmem
    exact piece.zero_notMem_text hpiece

/-- Their arguments. -/
def argsOf (pieces : List Piece) : List Arg := pieces.flatMap Piece.args

/-- Their output. -/
def outputOf (pieces : List Piece) : List Byte := pieces.flatMap Piece.output

theorem zero_notMem_outputOf (pieces : List Piece) : 0 ∉ outputOf pieces := by
  intro hmem
  obtain ⟨piece, -, hpiece⟩ := List.mem_flatMap.mp hmem
  exact piece.zero_notMem_output hpiece

/-- **The output of a format**: `formatv` passes it to the callback. -/
theorem formatv_eq (params : σ) (pieces : List Piece) :
    formatv callback params (formatOf pieces) (argsOf pieces) =
      emit callback (params, 0) (outputOf pieces) := formatvLoop_pieces pieces

end Rastapopoulos.Strings
