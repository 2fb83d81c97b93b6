import Mathlib.Data.List.Chain
import Rastapopoulos.Rpc.Code
import Rastapopoulos.Rpc.Parser
import Rastapopoulos.Strings.Basic

/-!
# The lexer of `rpcgen`

`next_token` of `tools/rpcgen/rpcgen.c` and the loop of `main` that calls it, on the text from the
current position on. A source text is a sequence of items: white space, comments, punctuation and
words; its tokens are the last two. The lexer finds them if each comment is followed by white space
(`lexes_iff`): the loop over white space takes one more character behind a comment, whatever it is.
Besides, it takes the opening of a comment for its end too if the comment goes on with a slash, and
it cuts words that do not fit into a token.
-/

namespace Rastapopoulos.Rpc

open Strings (ch)

/-! ## The program -/

/-- `peek_char`, on the text from `pos` on. There is a NUL behind the text. -/
def peekChar (s : List Byte) : Byte := s.headD 0

/-- `next_char`: the text behind the character. -/
def nextChar (s : List Byte) : List Byte := if peekChar s ≠ 0 then s.tail else s

/-- The loop to the end of a comment, and the `next_char` for its slash. -/
def skipComment : List Byte → List Byte
  | [] => []
  | c :: s =>
    if c = 0 then c :: s
    else if c = ch '*' ∧ peekChar s = ch '/' then nextChar s
    else skipComment s

/-- `skip_whitespace`, for at most `fuel` turns. A `char` is signed. -/
def skipLoop : ℕ → List Byte → List Byte
  | 0, s => s
  | fuel + 1, s =>
    if peekChar s = ch '/' then
      if peekChar (nextChar s) = ch '*' then skipLoop fuel (nextChar (skipComment (nextChar s)))
      else s
    else if (ch ' ').toInt < (peekChar s).toInt then s
    else if peekChar s = 0 then s
    else skipLoop fuel (nextChar s)

/-- Each turn but the last takes a character. -/
def skipWhitespace (s : List Byte) : List Byte := skipLoop (s.length + 1) s

/-- Letters, digits and underscores. -/
def IsWordChar (c : Byte) : Prop :=
  ch '0' ≤ c ∧ c ≤ ch '9' ∨ ch 'a' ≤ c ∧ c ≤ ch 'z' ∨ ch 'A' ≤ c ∧ c ≤ ch 'Z' ∨ c = ch '_'

instance (c : Byte) : Decidable (IsWordChar c) := inferInstanceAs (Decidable (_ ∨ _))

/-- The loop of `next_word`: the characters that it stores, with `size` bytes of the buffer left,
and the text behind them. -/
def wordLoop : ℕ → List Byte → List Byte × List Byte
  | _, [] => ([], [])
  | size, c :: s =>
    if 1 < size ∧ IsWordChar c then
      let r := wordLoop (size - 1) s
      (c :: r.1, r.2)
    else ([], c :: s)

theorem length_wordLoop_lt {size : ℕ} (hpos : 0 < size) (s : List Byte) :
    (wordLoop size s).1.length < size := by
  induction s generalizing size with
  | nil => simpa [wordLoop] using hpos
  | cons c s ih =>
    rw [wordLoop]
    split
    · rename_i h
      have := ih (Nat.sub_pos_of_lt h.1)
      simp only [List.length_cons]
      omega
    · exact hpos

/-- The size of the text of a token. -/
def tokenSize : ℕ := 64

/-- The characters that are tokens. -/
def punctuation : List Byte := [ch '(', ch ')', ch '\x7b', ch '\x7d', ch ';', ch ',']

/-- `next_word` behind white space: the word and the text behind it. -/
def readWord (s : List Byte) : Option ({w : List Byte // w.length < tokenSize} × List Byte) :=
  let c := peekChar s
  if c ∈ punctuation then some (⟨[c], by simp [tokenSize]⟩, nextChar s)
  else if c = 0 then none
  else
    let r := wordLoop (tokenSize - 1) (nextChar s)
    some (⟨c :: r.1, Nat.succ_lt_succ (length_wordLoop_lt (by decide) _)⟩, r.2)

def nextWord (s : List Byte) : Option ({w : List Byte // w.length < tokenSize} × List Byte) :=
  readWord (skipWhitespace s)

/-- The text of a token. -/
def textOf (w : List Byte) : String := String.ofList (w.map fun c => Char.ofNat c.toNat)

/-- The kind of a token, by its text. -/
def kindOf (text : String) : TokenKind :=
  if text = "(" then .lBrace
  else if text = ")" then .rBrace
  else if text = "\x7b" then .lBracket
  else if text = "\x7d" then .rBracket
  else if text = ";" then .semicolon
  else if text = "," then .colon
  else if text = "oneway" then .modifier .oneWay (by decide)
  else if text = "out" then .modifier .out (by decide)
  else if text = "void" then .typename .void
  else if text = "int" then .typename .int
  else if text = "string" then .typename .string
  else if text = "long" then .typename .long
  else if text = "blob" then .typename .blob
  else .identifier

/-- The token that a word makes. -/
def tokenOf (w : {w : List Byte // w.length < tokenSize}) : Token where
  kind := kindOf (textOf w.1)
  text := textOf w.1
  text_le := by
    rw [textOf, String.length_ofList, List.length_map]
    exact Nat.le_of_lt_succ w.2

def nextToken (s : List Byte) : Option (Token × List Byte) :=
  (nextWord s).map fun r => (tokenOf r.1, r.2)

/-- The loop of `main` that reads all tokens, for at most `fuel` turns. -/
def tokenLoop : ℕ → List Byte → List Token
  | 0, _ => []
  | fuel + 1, s =>
    match nextToken s with
    | none => []
    | some (token, s) => token :: tokenLoop fuel s

/-- Each turn but the last takes a character. -/
def tokens (s : List Byte) : List Token := tokenLoop (s.length + 1) s

/-! ## The turns are enough -/

section Turns

variable {s s' : List Byte} {c : Byte} {fuel fuel' : ℕ}

theorem nextChar_cons (hc : c ≠ 0) (s : List Byte) : nextChar (c :: s) = s := if_pos hc

theorem length_nextChar_le (s : List Byte) : (nextChar s).length ≤ s.length := by
  unfold nextChar
  split
  · rw [List.length_tail]
    exact Nat.sub_le _ _
  · exact le_rfl

theorem length_nextChar_lt (h : peekChar s ≠ 0) : (nextChar s).length < s.length := by
  cases s with
  | nil => exact absurd rfl h
  | cons c s =>
    rw [nextChar_cons (show c ≠ 0 from h)]
    exact Nat.lt_succ_self _

theorem length_skipComment_le (s : List Byte) : (skipComment s).length ≤ s.length := by
  induction s with
  | nil => exact le_rfl
  | cons c s ih =>
    rw [skipComment]
    split
    · exact le_rfl
    · split
      · exact (length_nextChar_le s).trans (Nat.le_succ _)
      · exact ih.trans (Nat.le_succ _)

/-- A comment takes a character at least. -/
theorem length_comment_lt (h : peekChar s ≠ 0) :
    (nextChar (skipComment (nextChar s))).length < s.length :=
  ((length_nextChar_le _).trans (length_skipComment_le _)).trans_lt (length_nextChar_lt h)

theorem skipLoop_fuel (h : s.length < fuel) (h' : s.length < fuel') :
    skipLoop fuel s = skipLoop fuel' s := by
  induction fuel generalizing s fuel' with
  | zero => exact absurd h (Nat.not_lt_zero _)
  | succ fuel ih =>
    cases fuel' with
    | zero => exact absurd h' (Nat.not_lt_zero _)
    | succ fuel' =>
      have hnext : ∀ t : List Byte, t.length < s.length → skipLoop fuel t = skipLoop fuel' t :=
        fun t ht => ih (by omega) (by omega)
      rw [skipLoop, skipLoop]
      by_cases hslash : peekChar s = ch '/'
      · rw [if_pos hslash, if_pos hslash,
          hnext _ (length_comment_lt (by rw [hslash]; decide))]
      · rw [if_neg hslash, if_neg hslash]
        by_cases hzero : peekChar s = 0
        · rw [if_pos hzero, if_pos hzero]
        · rw [if_neg hzero, if_neg hzero, hnext _ (length_nextChar_lt hzero)]

theorem length_skipLoop_le (fuel : ℕ) (s : List Byte) : (skipLoop fuel s).length ≤ s.length := by
  induction fuel generalizing s with
  | zero => exact le_rfl
  | succ fuel ih =>
    rw [skipLoop]
    split
    · split
      · rename_i hslash _
        exact (ih _).trans (length_comment_lt (by rw [hslash]; decide)).le
      · exact le_rfl
    · split
      · exact le_rfl
      · split
        · exact le_rfl
        · exact (ih _).trans (length_nextChar_le s)

theorem length_wordLoop_le (size : ℕ) (s : List Byte) : (wordLoop size s).2.length ≤ s.length := by
  induction s generalizing size with
  | nil => exact le_rfl
  | cons c s ih =>
    rw [wordLoop]
    split
    · exact (ih _).trans (Nat.le_succ _)
    · exact le_rfl

theorem nextToken_lt {token : Token} (h : nextToken s = some (token, s')) :
    s'.length < s.length := by
  obtain ⟨r, hr, heq⟩ := Option.map_eq_some_iff.mp h
  cases heq
  have hskip : (skipWhitespace s).length ≤ s.length := length_skipLoop_le _ s
  unfold nextWord readWord at hr
  dsimp only at hr
  split at hr
  · rename_i hmem
    cases hr
    refine (length_nextChar_lt ?_).trans_le hskip
    intro hzero
    rw [hzero] at hmem
    exact absurd hmem (by decide)
  · split at hr
    · cases hr
    · rename_i hzero
      cases hr
      exact ((length_wordLoop_le _ _).trans_lt (length_nextChar_lt hzero)).trans_le hskip

theorem tokenLoop_fuel (h : s.length < fuel) (h' : s.length < fuel') :
    tokenLoop fuel s = tokenLoop fuel' s := by
  induction fuel generalizing s fuel' with
  | zero => exact absurd h (Nat.not_lt_zero _)
  | succ fuel ih =>
    cases fuel' with
    | zero => exact absurd h' (Nat.not_lt_zero _)
    | succ fuel' =>
      rw [tokenLoop, tokenLoop]
      cases hnext : nextToken s with
      | none => rfl
      | some r =>
        have hlt := nextToken_lt hnext
        exact congrArg (r.1 :: ·) (ih (by omega) (by omega))

/-- The next token and those behind it. -/
theorem tokens_eq (s : List Byte) :
    tokens s = match nextToken s with
      | none => []
      | some r => r.1 :: tokens r.2 := by
  rw [tokens, tokenLoop]
  cases hnext : nextToken s with
  | none => rfl
  | some r =>
    have hlt := nextToken_lt hnext
    exact congrArg (r.1 :: ·) (tokenLoop_fuel (by omega) (Nat.lt_succ_self _))

/-- White space does not matter to what follows. -/
theorem tokens_congr (h : skipWhitespace s = skipWhitespace s') : tokens s = tokens s' := by
  have hnext : nextToken s = nextToken s' := by
    rw [nextToken, nextToken, nextWord, nextWord, h]
  rw [tokens_eq, tokens_eq s', hnext]

end Turns

/-! ## Source texts -/

/-- White space and control characters. -/
def IsBlank (c : Byte) : Prop := c ≠ 0 ∧ c ≤ ch ' '

/-- Letters and underscores. -/
def IsWordStart (c : Byte) : Prop :=
  ch 'a' ≤ c ∧ c ≤ ch 'z' ∨ ch 'A' ≤ c ∧ c ≤ ch 'Z' ∨ c = ch '_'

instance (c : Byte) : Decidable (IsBlank c) := inferInstanceAs (Decidable (_ ∧ _))

instance (c : Byte) : Decidable (IsWordStart c) := inferInstanceAs (Decidable (_ ∨ _))

/-- What a source text is made of. -/
inductive Item
  | blank (c : Byte) (isBlank : IsBlank c)
  /-- A comment, closed by the first asterisk and slash behind its opening. -/
  | comment (body : List Byte) (nonzero : 0 ∉ body) (closed : ¬ [ch '*', ch '/'] <:+: body)
  | punctuation (c : Byte) (mem : c ∈ punctuation)
  | word (first : Byte) (rest : List Byte) (start : IsWordStart first)
      (chars : ∀ c ∈ rest, IsWordChar c)

namespace Item

def text : Item → List Byte
  | blank c _ => [c]
  | comment body _ _ => ch '/' :: ch '*' :: (body ++ [ch '*', ch '/'])
  | punctuation c _ => [c]
  | word first rest _ _ => first :: rest

def IsWhite : Item → Prop
  | blank _ _ => True
  | _ => False

def IsComment : Item → Prop
  | comment _ _ _ => True
  | _ => False

def IsWord : Item → Prop
  | word _ _ _ _ => True
  | _ => False

/-- Punctuation and words. -/
def isToken : Item → Bool
  | punctuation _ _ | word _ _ _ _ => true
  | _ => false

/-- The token is that of the item: it has the kind of the text, and the text if this fits. -/
def Matches (item : Item) (token : Token) : Prop :=
  token.kind = kindOf (textOf item.text) ∧
    (item.text.length < tokenSize → token.text = textOf item.text)

/-- The text of the item fits into a token. -/
def Fits (item : Item) : Prop := item.isToken → item.text.length < tokenSize

/-- A comment does not go on with a slash. -/
def Plain : Item → Prop
  | comment body _ _ => body.head? ≠ some (ch '/')
  | _ => True

end Item

/-- A source text: no two words stand next to each other. -/
structure SourceText where
  items : List Item
  apart : items.IsChain fun a b => ¬ (a.IsWord ∧ b.IsWord)

namespace SourceText

def text (source : SourceText) : List Byte := source.items.flatMap Item.text

/-- The lexer finds the tokens of the text, in their order. -/
def Lexes (source : SourceText) : Prop :=
  List.Forall₂ Item.Matches (source.items.filter Item.isToken) (tokens source.text)

/-- Behind each comment, there is white space or the end of the text. -/
def Separated (source : SourceText) : Prop :=
  source.items.IsChain fun a b => a.IsComment → b.IsWhite

end SourceText

/-! ## Item by item -/

section Items

variable {s body w : List Byte} {c : Byte}

theorem blank_cases : ∀ c, IsBlank c → c ≠ ch '/' ∧ ¬ (ch ' ').toInt < c.toInt := by
  decide +kernel

theorem punctuation_cases : ∀ c ∈ punctuation, c ≠ 0 ∧ c ≠ ch '/' ∧ (ch ' ').toInt < c.toInt ∧
    ¬ IsWordChar c := by decide

theorem wordChar_cases : ∀ c, IsWordChar c → c ≠ 0 ∧ c ≠ ch '/' ∧ (ch ' ').toInt < c.toInt ∧
    c ∉ punctuation := by decide +kernel

theorem IsWordStart.isWordChar : ∀ c, IsWordStart c → IsWordChar c := by decide +kernel

theorem tokens_nil : tokens [] = [] := by decide

theorem tokens_blank (hc : IsBlank c) (s : List Byte) : tokens (c :: s) = tokens s := by
  obtain ⟨hslash, hspace⟩ := blank_cases c hc
  refine tokens_congr ?_
  have hpeek : peekChar (c :: s) = c := rfl
  rw [skipWhitespace, skipLoop, hpeek, if_neg hslash, if_neg hspace, if_neg hc.1, nextChar_cons hc.1]
  exact skipLoop_fuel (Nat.lt_succ_self _) (Nat.lt_succ_self _)

theorem skipWhitespace_stop (hslash : c ≠ ch '/') (hspace : (ch ' ').toInt < c.toInt)
    (s : List Byte) : skipWhitespace (c :: s) = c :: s := by
  have hpeek : peekChar (c :: s) = c := rfl
  rw [skipWhitespace, skipLoop, hpeek, if_neg hslash, if_pos hspace]

theorem skipComment_body (hnonzero : 0 ∉ body) (hclosed : ¬ [ch '*', ch '/'] <:+: body) :
    skipComment (body ++ ch '*' :: ch '/' :: s) = s := by
  induction body with
  | nil =>
    rw [List.nil_append, skipComment, if_neg (by decide), if_pos ⟨rfl, rfl⟩]
    exact nextChar_cons (by decide) s
  | cons c body ih =>
    have hc : c ≠ 0 := fun h => hnonzero (h ▸ List.mem_cons_self)
    have hopen : ¬ (c = ch '*' ∧ peekChar (body ++ ch '*' :: ch '/' :: s) = ch '/') := by
      rintro ⟨rfl, hpeek⟩
      cases body with
      | nil => exact absurd (show ch '*' = ch '/' from hpeek) (by decide)
      | cons c' body =>
        subst hpeek
        exact hclosed ⟨[], body, rfl⟩
    rw [List.cons_append, skipComment, if_neg hc, if_neg hopen]
    refine ih (fun h => hnonzero (.tail _ h)) fun hinfix => hclosed ?_
    exact hinfix.trans (List.infix_cons (List.infix_refl _))

/-- The character behind a comment is taken with it. -/
theorem tokens_comment (hnonzero : 0 ∉ body) (hclosed : ¬ [ch '*', ch '/'] <:+: body)
    (hplain : body.head? ≠ some (ch '/')) (s : List Byte) :
    tokens (ch '/' :: ch '*' :: (body ++ ch '*' :: ch '/' :: s)) = tokens (nextChar s) := by
  have hskip : skipComment (ch '*' :: body ++ ch '*' :: ch '/' :: s) = s := by
    refine skipComment_body (by simpa [ch] using hnonzero) ?_
    rintro ⟨before, after, heq⟩
    cases before with
    | nil =>
      have htail : ch '/' :: after = body := (List.cons.inj heq).2
      exact hplain (by rw [← htail]; rfl)
    | cons c before => exact hclosed ⟨before, after, (List.cons.inj heq).2⟩
  refine tokens_congr ?_
  have hnext : nextChar (ch '/' :: ch '*' :: (body ++ ch '*' :: ch '/' :: s)) =
      ch '*' :: body ++ ch '*' :: ch '/' :: s := nextChar_cons (by decide) _
  rw [skipWhitespace, skipLoop, hnext, hskip]
  refine skipLoop_fuel ?_ (Nat.lt_succ_self _)
  have hle := length_nextChar_le s
  simp only [List.length_cons, List.length_append]
  omega

/-- A word, from its first character on. -/
theorem tokens_word (hslash : c ≠ ch '/') (hspace : (ch ' ').toInt < c.toInt)
    (hpunctuation : c ∉ punctuation) (hzero : c ≠ 0) (s : List Byte) :
    tokens (c :: s) = tokenOf ⟨c :: (wordLoop (tokenSize - 1) s).1,
      Nat.succ_lt_succ (length_wordLoop_lt (by decide) _)⟩ ::
        tokens (wordLoop (tokenSize - 1) s).2 := by
  have hnext : nextToken (c :: s) = some (tokenOf ⟨c :: (wordLoop (tokenSize - 1) s).1,
      Nat.succ_lt_succ (length_wordLoop_lt (by decide) _)⟩, (wordLoop (tokenSize - 1) s).2) := by
    rw [nextToken, nextWord, skipWhitespace_stop hslash hspace]
    have hread : readWord (c :: s) = some (⟨c :: (wordLoop (tokenSize - 1) (nextChar (c :: s))).1,
        Nat.succ_lt_succ (length_wordLoop_lt (by decide) _)⟩,
          (wordLoop (tokenSize - 1) (nextChar (c :: s))).2) :=
      (if_neg hpunctuation).trans (if_neg hzero)
    simp only [hread, nextChar_cons hzero, Option.map_some]
  rw [tokens_eq, hnext]

theorem tokens_punctuation (hc : c ∈ punctuation) (s : List Byte) :
    tokens (c :: s) = tokenOf ⟨[c], Nat.lt_of_sub_eq_succ rfl⟩ :: tokens s := by
  obtain ⟨hzero, hslash, hspace, -⟩ := punctuation_cases c hc
  have hnext : nextToken (c :: s) = some (tokenOf ⟨[c], Nat.lt_of_sub_eq_succ rfl⟩, s) := by
    rw [nextToken, nextWord, skipWhitespace_stop hslash hspace]
    simp [readWord, peekChar, hc, nextChar_cons hzero]
  rw [tokens_eq, hnext]

theorem wordLoop_append {size : ℕ} (hw : ∀ c ∈ w, IsWordChar c) (hlt : w.length < size)
    (hs : ¬ IsWordChar (peekChar s)) : wordLoop size (w ++ s) = (w, s) := by
  induction w generalizing size with
  | nil =>
    cases s with
    | nil => rfl
    | cons c s => exact if_neg fun h => hs h.2
  | cons c w ih =>
    obtain ⟨hc, hw⟩ := List.forall_mem_cons.mp hw
    rw [List.length_cons] at hlt
    rw [List.cons_append, wordLoop, if_pos ⟨by omega, hc⟩, ih hw (by omega)]

theorem wordLoop_cut {size : ℕ} (hw : ∀ c ∈ w, IsWordChar c) (hpos : 0 < size)
    (hle : size ≤ w.length + 1) (s : List Byte) :
    wordLoop size (w ++ s) = (w.take (size - 1), w.drop (size - 1) ++ s) := by
  induction w generalizing size with
  | nil =>
    obtain rfl : size = 1 := le_antisymm hle hpos
    cases s with
    | nil => rfl
    | cons c s => exact if_neg fun h => absurd h.1 (lt_irrefl 1)
  | cons c w ih =>
    obtain ⟨hc, hw⟩ := List.forall_mem_cons.mp hw
    rw [List.cons_append, wordLoop]
    obtain rfl | hlt : size = 1 ∨ 1 < size := by omega
    · rfl
    · obtain ⟨size, rfl⟩ : ∃ n, size = n + 2 := ⟨size - 2, by omega⟩
      have hrest := ih hw (Nat.succ_pos size) (Nat.le_of_succ_le_succ hle)
      rw [if_pos ⟨hlt, hc⟩]
      simp only [Nat.add_one_sub_one, hrest]
      rfl

/-- A word that fits, even if a digit is its first character. -/
theorem tokens_chars (hc : IsWordChar c) (hw : ∀ c ∈ w, IsWordChar c)
    (hlt : (c :: w).length < tokenSize) (hs : ¬ IsWordChar (peekChar s)) :
    tokens (c :: (w ++ s)) = tokenOf ⟨c :: w, hlt⟩ :: tokens s := by
  obtain ⟨hzero, hslash, hspace, hpunctuation⟩ := wordChar_cases c hc
  have hloop : wordLoop (tokenSize - 1) (w ++ s) = (w, s) :=
    wordLoop_append hw (Nat.lt_pred_iff.mpr hlt) hs
  rw [tokens_word hslash hspace hpunctuation hzero]
  simp only [hloop]

/-- A word makes at least one token, and more of them if it does not fit. -/
theorem length_tokens_chars (hw : ∀ c ∈ w, IsWordChar c) (hne : w ≠ [])
    (hs : ¬ IsWordChar (peekChar s)) :
    (tokens s).length < (tokens (w ++ s)).length ∧
      (tokenSize ≤ w.length → (tokens s).length + 1 < (tokens (w ++ s)).length) := by
  induction hlen : w.length using Nat.strong_induction_on generalizing w with
  | _ n ih =>
    cases w with
    | nil => exact absurd rfl hne
    | cons c w =>
      obtain ⟨hc, hw⟩ := List.forall_mem_cons.mp hw
      rcases Nat.lt_or_ge (c :: w).length tokenSize with hlt | hge
      · rw [List.cons_append, tokens_chars hc hw hlt hs]
        exact ⟨Nat.lt_succ_self _, fun hle => by omega⟩
      · -- the first piece, and what is left of the word
        obtain ⟨hzero, hslash, hspace, hpunctuation⟩ := wordChar_cases c hc
        have hlength : tokenSize - 1 ≤ w.length := Nat.sub_le_of_le_add hge
        have hloop := wordLoop_cut hw (by decide) (Nat.le_succ_of_le hlength) s
        have hleft : (w.drop (tokenSize - 1 - 1)).length = w.length - (tokenSize - 1 - 1) :=
          List.length_drop
        have hsize : tokenSize = 64 := rfl
        have hrest : (tokens s).length < (tokens (w.drop (tokenSize - 1 - 1) ++ s)).length := by
          refine (ih _ ?_ (fun c hmem => hw c (List.mem_of_mem_drop hmem)) ?_ rfl).1
          · rw [← hlen, List.length_cons]
            omega
          · refine List.ne_nil_of_length_pos ?_
            omega
        rw [List.cons_append, tokens_word hslash hspace hpunctuation hzero, List.length_cons]
        simp only [hloop]
        omega

/-- No item but a word begins with a letter. -/
theorem not_isWordChar_items {items : List Item} (h : ∀ item ∈ items.head?, ¬ item.IsWord) :
    ¬ IsWordChar (peekChar (items.flatMap Item.text)) := by
  cases items with
  | nil =>
    decide
  | cons item items =>
    cases item with
    | blank c hc => exact fun hword => (blank_cases c hc).2 (wordChar_cases c hword).2.2.1
    | comment body _ _ =>
      show ¬ IsWordChar (ch '/')
      decide
    | punctuation c hc => exact (punctuation_cases c hc).2.2.2
    | word first rest _ _ => exact absurd trivial (h _ rfl)

end Items

/-! ## Whole texts -/

section Texts

variable {item : Item} {items : List Item}

theorem matches_tokenOf (item : Item) (h : item.text.length < tokenSize) :
    item.Matches (tokenOf ⟨item.text, h⟩) :=
  ⟨rfl, fun _ => rfl⟩

/-- The texts in question: no comment goes on with a slash. -/
structure Regular (items : List Item) : Prop where
  apart : items.IsChain fun a b => ¬ (a.IsWord ∧ b.IsWord)
  plain : ∀ item ∈ items, item.Plain

namespace Regular

theorem tail (h : Regular (item :: items)) : Regular items :=
  ⟨(List.isChain_cons.mp h.apart).2, (List.forall_mem_cons.mp h.plain).2⟩

/-- A word is followed by something else. -/
theorem not_isWordChar (h : Regular (item :: items)) (hitem : item.IsWord) :
    ¬ IsWordChar (peekChar (items.flatMap Item.text)) :=
  not_isWordChar_items fun next hnext hword =>
    (List.isChain_cons.mp h.apart).1 next hnext ⟨hitem, hword⟩

/-- A token that fits stands for itself. -/
theorem tokens_cons (h : Regular (item :: items)) (hitem : item.isToken)
    (hfits : item.text.length < tokenSize) :
    tokens ((item :: items).flatMap Item.text) =
      tokenOf ⟨item.text, hfits⟩ :: tokens (items.flatMap Item.text) := by
  cases item with
  | blank | comment => cases hitem
  | punctuation c hc => exact tokens_punctuation hc _
  | word first rest hstart hchars =>
    exact tokens_chars (IsWordStart.isWordChar first hstart) hchars _ (h.not_isWordChar trivial)

/-- A comment takes the next character. -/
theorem tokens_comment_cons {body : List Byte} {hnonzero : 0 ∉ body}
    {hclosed : ¬ [ch '*', ch '/'] <:+: body}
    (h : Regular (.comment body hnonzero hclosed :: items)) :
    tokens ((.comment body hnonzero hclosed :: items).flatMap Item.text) =
      tokens (nextChar (items.flatMap Item.text)) := by
  have htext : ((.comment body hnonzero hclosed :: items).flatMap Item.text) =
      ch '/' :: ch '*' :: (body ++ ch '*' :: ch '/' :: items.flatMap Item.text) := by
    simp [Item.text]
  rw [htext]
  exact tokens_comment hnonzero hclosed (h.plain _ List.mem_cons_self) _

/-- **Texts in which comments are set apart**: what neither blanks nor comments change, and tokens
keep, holds of the whole text. -/
theorem rule {P : List Item → List Token → Prop} (hnil : P [] [])
    (hskip : ∀ {item items found}, ¬ item.isToken → P items found → P (item :: items) found)
    (htoken : ∀ {item items}, Regular (item :: items) → item.isToken →
      P items (tokens (items.flatMap Item.text)) →
        P (item :: items) (tokens ((item :: items).flatMap Item.text)))
    (h : Regular items) (hseparated : items.IsChain fun a b => a.IsComment → b.IsWhite) :
    P items (tokens (items.flatMap Item.text)) := by
  induction hlen : items.length using Nat.strong_induction_on generalizing items with
  | _ n ih =>
    cases items with
    | nil => exact tokens_nil ▸ hnil
    | cons item items =>
      have hrest : items.length < n := hlen ▸ Nat.lt_succ_self _
      have hseparated' := (List.isChain_cons.mp hseparated).2
      by_cases hitem : item.isToken = true
      · exact htoken h hitem (ih _ hrest h.tail hseparated' rfl)
      · cases item with
        | punctuation | word => exact absurd rfl hitem
        | blank c hc =>
          have htokens : tokens ((.blank c hc :: items).flatMap Item.text) =
              tokens (items.flatMap Item.text) := tokens_blank hc _
          rw [htokens]
          exact hskip hitem (ih _ hrest h.tail hseparated' rfl)
        | comment body hnonzero hclosed =>
          rw [h.tokens_comment_cons]
          -- the character behind the comment, if there is one, is white space
          cases items with
          | nil => exact tokens_nil ▸ hskip hitem hnil
          | cons next items =>
            have hwhite : next.IsWhite := (List.isChain_cons.mp hseparated).1 next rfl trivial
            cases next with
            | comment | punctuation | word => cases hwhite
            | blank c hc =>
              have htext : nextChar ((.blank c hc :: items).flatMap Item.text) =
                  items.flatMap Item.text := nextChar_cons hc.1 _
              rw [htext]
              refine hskip hitem (hskip (by simp [Item.isToken]) (ih _ (Nat.lt_of_succ_lt hrest)
                h.tail.tail (List.isChain_cons.mp hseparated').2 rfl))

end Regular

theorem forall₂_tokens (h : Regular items)
    (hseparated : items.IsChain fun a b => a.IsComment → b.IsWhite)
    (hfits : ∀ item ∈ items, item.Fits) :
    List.Forall₂ Item.Matches (items.filter Item.isToken) (tokens (items.flatMap Item.text)) := by
  refine h.rule (P := fun items found => (∀ item ∈ items, item.Fits) →
    List.Forall₂ Item.Matches (items.filter Item.isToken) found) (fun _ => .nil) ?_ ?_
    hseparated hfits
  · intro item items found hitem ih hfits
    rw [List.filter_cons_of_neg hitem]
    exact ih (List.forall_mem_cons.mp hfits).2
  · intro item items h hitem ih hfits
    obtain ⟨hfit, hfits⟩ := List.forall_mem_cons.mp hfits
    rw [List.filter_cons_of_pos hitem, h.tokens_cons hitem (hfit hitem)]
    exact .cons (matches_tokenOf item _) (ih hfits)

/-- There are at least as many tokens as there should be, and more of them if a word does not
fit. -/
theorem length_tokens (h : Regular items)
    (hseparated : items.IsChain fun a b => a.IsComment → b.IsWhite) :
    (items.filter Item.isToken).length ≤ (tokens (items.flatMap Item.text)).length ∧
      ((items.filter Item.isToken).length = (tokens (items.flatMap Item.text)).length →
        ∀ item ∈ items, item.Fits) := by
  refine h.rule (P := fun items found => (items.filter Item.isToken).length ≤ found.length ∧
    ((items.filter Item.isToken).length = found.length → ∀ item ∈ items, item.Fits))
    ⟨le_rfl, fun _ _ hmem => by cases hmem⟩ ?_ ?_ hseparated
  · intro item items found hitem ih
    rw [List.filter_cons_of_neg hitem]
    exact ⟨ih.1, fun heq => List.forall_mem_cons.mpr ⟨fun htoken => absurd htoken hitem, ih.2 heq⟩⟩
  · intro item items h hitem ih
    rw [List.filter_cons_of_pos hitem, List.length_cons]
    have hgrows : (tokens (items.flatMap Item.text)).length <
        (tokens ((item :: items).flatMap Item.text)).length ∧
          (tokenSize ≤ item.text.length → (tokens (items.flatMap Item.text)).length + 1 <
            (tokens ((item :: items).flatMap Item.text)).length) := by
      cases item with
      | blank | comment => cases hitem
      | punctuation c hc =>
        rw [h.tokens_cons hitem (Nat.lt_of_sub_eq_succ rfl)]
        exact ⟨Nat.lt_succ_self _, fun hle => absurd hle (by show ¬ tokenSize ≤ 1; decide)⟩
      | word first rest hstart hchars =>
        refine length_tokens_chars ?_ (List.cons_ne_nil first rest) (h.not_isWordChar trivial)
        exact List.forall_mem_cons.mpr ⟨IsWordStart.isWordChar first hstart, hchars⟩
    refine ⟨by omega, fun heq => List.forall_mem_cons.mpr ⟨fun _ => ?_, ih.2 (by omega)⟩⟩
    omega

/-- The characters of all tokens. -/
def charCount (found : List Token) : ℕ := (found.map fun token => token.text.length).sum

/-- The characters that the tokens of a text should have. -/
def itemCount (items : List Item) : ℕ :=
  ((items.filter Item.isToken).map fun item => item.text.length).sum

/-- A token that begins with an asterisk. -/
def Starred (token : Token) : Prop := token.text.toList.head? = some '*'

theorem length_tokenOf (w : {w : List Byte // w.length < tokenSize}) :
    (tokenOf w).text.length = w.1.length := by
  show (textOf w.1).length = _
  rw [textOf, String.length_ofList, List.length_map]

theorem starred_asterisk (s : List Byte) : ∃ token ∈ tokens (ch '*' :: s), Starred token := by
  refine ⟨_, List.mem_cons_self, ?_⟩
  show (textOf (ch '*' :: _)).toList.head? = _
  rw [textOf, String.toList_ofList]
  rfl

theorem itemCount_cons_of_isToken (hitem : item.isToken) (items : List Item) :
    itemCount (item :: items) = item.text.length + itemCount items := by
  rw [itemCount, List.filter_cons_of_pos hitem]
  rfl

theorem itemCount_cons_of_not_isToken (hitem : ¬ item.isToken) (items : List Item) :
    itemCount (item :: items) = itemCount items := by
  rw [itemCount, List.filter_cons_of_neg hitem]
  rfl

/-- The tokens found are at most so many characters long, and shorter unless the property holds; or
one of them begins with an asterisk. -/
def Accounts (found : List Token) (count : ℕ) (P : Prop) : Prop :=
  (∃ token ∈ found, Starred token) ∨ charCount found ≤ count ∧ (charCount found = count → P)

namespace Accounts

variable {found : List Token} {count : ℕ} {P Q : Prop}

theorem imp (h : Accounts found count P) (hPQ : P → Q) : Accounts found count Q :=
  h.imp_right fun ⟨hle, heq⟩ => ⟨hle, fun hcount => hPQ (heq hcount)⟩

theorem cons (h : Accounts found count P) (w : {w : List Byte // w.length < tokenSize}) :
    Accounts (tokenOf w :: found) (w.1.length + count) P := by
  have hcount : charCount (tokenOf w :: found) = w.1.length + charCount found := by
    rw [charCount, List.map_cons, length_tokenOf]
    rfl
  rcases h with ⟨token, hmem, hstarred⟩ | ⟨hle, heq⟩
  · exact .inl ⟨token, .tail _ hmem, hstarred⟩
  · exact .inr ⟨by omega, fun hsum => heq (by omega)⟩

/-- A character is lost. -/
theorem lost (h : Accounts found count P) {more : ℕ} (hlt : count < more) (Q : Prop) :
    Accounts found more Q :=
  h.imp_right fun ⟨hle, _⟩ => ⟨hle.trans hlt.le, fun heq => absurd heq (hle.trans_lt hlt).ne⟩

end Accounts

/-- What a comment does to a token behind it: its first character is gone. -/
theorem accounts_comment_token {next : Item} {count : ℕ} {P : Prop} (h : Regular (next :: items))
    (hnext : next.isToken) (hfits : next.Fits)
    (ih : Accounts (tokens (items.flatMap Item.text)) count P) (Q : Prop) :
    Accounts (tokens (nextChar ((next :: items).flatMap Item.text)))
      (next.text.length + count) Q := by
  cases next with
  | blank | comment => cases hnext
  | punctuation c hc =>
    have htext : nextChar ((.punctuation c hc :: items).flatMap Item.text) =
        items.flatMap Item.text := nextChar_cons (punctuation_cases c hc).1 _
    rw [htext]
    exact ih.lost (Nat.lt_add_of_pos_left Nat.one_pos) Q
  | word first rest hstart hchars =>
    have hnonzero : first ≠ 0 := (wordChar_cases first (IsWordStart.isWordChar first hstart)).1
    have htext : nextChar ((.word first rest hstart hchars :: items).flatMap Item.text) =
        rest ++ items.flatMap Item.text := nextChar_cons hnonzero _
    rw [htext]
    cases rest with
    | nil => exact ih.lost (Nat.lt_add_of_pos_left Nat.one_pos) Q
    | cons c w =>
      obtain ⟨hc, hw⟩ := List.forall_mem_cons.mp hchars
      have hlt : (c :: w).length < tokenSize := Nat.lt_of_succ_lt (hfits rfl)
      rw [List.cons_append, tokens_chars hc hw hlt (h.not_isWordChar trivial)]
      exact (ih.cons ⟨c :: w, hlt⟩).lost (Nat.add_lt_add_right (Nat.lt_succ_self _) _) Q

/-- **What the lexer makes of any such text**: a comment that is not set apart costs a character, or
shows an asterisk where another comment follows. -/
theorem accounts_tokens (h : Regular items) (hfits : ∀ item ∈ items, item.Fits) :
    Accounts (tokens (items.flatMap Item.text)) (itemCount items)
      (items.IsChain fun a b => a.IsComment → b.IsWhite) := by
  induction hlen : items.length using Nat.strong_induction_on generalizing items with
  | _ n ih =>
    cases items with
    | nil =>
      refine .inr ⟨?_, fun _ => .nil⟩
      show charCount (tokens []) ≤ 0
      rw [tokens_nil]
      exact le_rfl
    | cons item items =>
      have hrest : items.length < n := hlen ▸ Nat.lt_succ_self _
      obtain ⟨hfit, hfitrest⟩ := List.forall_mem_cons.mp hfits
      have ihrest := ih _ hrest h.tail hfitrest rfl
      by_cases hitem : item.isToken = true
      · rw [h.tokens_cons hitem (hfit hitem), itemCount_cons_of_isToken hitem]
        refine (ihrest.cons _).imp fun hchain => List.isChain_cons.mpr ⟨fun _ _ hcomment => ?_, hchain⟩
        cases item with
        | blank | comment => cases hitem
        | punctuation | word => cases hcomment
      · cases item with
        | punctuation | word => exact absurd rfl hitem
        | blank c hc =>
          have htokens : tokens ((.blank c hc :: items).flatMap Item.text) =
              tokens (items.flatMap Item.text) := tokens_blank hc _
          rw [htokens]
          exact ihrest.imp fun hchain =>
            List.isChain_cons.mpr ⟨fun _ _ hcomment => hcomment.elim, hchain⟩
        | comment body hnonzero hclosed =>
          rw [h.tokens_comment_cons]
          cases items with
          | nil => exact ihrest.imp fun _ => .singleton _
          | cons next items =>
            obtain ⟨hfitnext, hfititems⟩ := List.forall_mem_cons.mp hfitrest
            have ihnext := ih _ (Nat.lt_of_succ_lt hrest) h.tail.tail hfititems rfl
            cases next with
            | blank c hc =>
              have htext : nextChar ((.blank c hc :: items).flatMap Item.text) =
                  items.flatMap Item.text := nextChar_cons hc.1 _
              rw [htext]
              refine ihnext.imp fun hchain => List.isChain_cons_cons.mpr ⟨fun _ => trivial, ?_⟩
              exact List.isChain_cons.mpr ⟨fun _ _ hcomment => hcomment.elim, hchain⟩
            | comment body' hnonzero' hclosed' =>
              have htext : nextChar ((.comment body' hnonzero' hclosed' :: items).flatMap Item.text) =
                  ch '*' :: (body' ++ [ch '*', ch '/'] ++ items.flatMap Item.text) :=
                nextChar_cons (by decide) _
              exact .inl (starred_asterisk _)
            | punctuation c hc =>
              exact accounts_comment_token h.tail rfl hfitnext ihnext _
            | word first rest hstart hchars =>
              exact accounts_comment_token h.tail rfl hfitnext ihnext _

theorem asterisk_cases : ∀ c : Byte, IsWordStart c ∨ c ∈ punctuation →
    Char.ofNat c.toNat ≠ '*' := by decide +kernel

theorem not_starred_of_matches {token : Token} (hitem : item.isToken)
    (hfits : item.text.length < tokenSize) (h : item.Matches token) : ¬ Starred token := by
  have hhead : ∀ c s, item.text = c :: s → Char.ofNat c.toNat ≠ '*' → ¬ Starred token := by
    intro c s htext hc
    rw [Starred, h.2 hfits, textOf, String.toList_ofList, htext]
    exact fun heq => hc (Option.some.inj heq)
  cases item with
  | blank | comment => cases hitem
  | punctuation c hc => exact hhead c [] rfl (asterisk_cases c (.inr hc))
  | word first rest hstart hchars => exact hhead first rest rfl (asterisk_cases first (.inl hstart))

theorem charCount_of_forall₂ {found : List Token} {expected : List Item}
    (hexpected : ∀ item ∈ expected, item.isToken ∧ item.text.length < tokenSize)
    (h : List.Forall₂ Item.Matches expected found) :
    charCount found = (expected.map fun item => item.text.length).sum ∧
      ∀ token ∈ found, ¬ Starred token := by
  induction h with
  | nil => exact ⟨rfl, fun _ hmem => by cases hmem⟩
  | @cons item token items found hmatches _ ih =>
    obtain ⟨⟨hitem, hfits⟩, hitems⟩ := List.forall_mem_cons.mp hexpected
    obtain ⟨hcount, hstarred⟩ := ih hitems
    have hlength : token.text.length = item.text.length := by
      rw [hmatches.2 hfits, textOf, String.length_ofList, List.length_map]
    refine ⟨?_, List.forall_mem_cons.mpr ⟨not_starred_of_matches hitem hfits hmatches, hstarred⟩⟩
    have hcons : charCount (token :: found) = token.text.length + charCount found := rfl
    rw [hcons, hcount, hlength, List.map_cons, List.sum_cons]

/-- The tokens of the text are found only if comments are set apart. -/
theorem separated_of_forall₂ (h : Regular items) (hfits : ∀ item ∈ items, item.Fits)
    (hfound : List.Forall₂ Item.Matches (items.filter Item.isToken)
      (tokens (items.flatMap Item.text))) :
    items.IsChain fun a b => a.IsComment → b.IsWhite := by
  have hexpected : ∀ item ∈ items.filter Item.isToken,
      item.isToken ∧ item.text.length < tokenSize := fun item hmem =>
    ⟨List.of_mem_filter hmem, hfits item (List.mem_of_mem_filter hmem) (List.of_mem_filter hmem)⟩
  obtain ⟨hcount, hstarred⟩ := charCount_of_forall₂ hexpected hfound
  rcases accounts_tokens h hfits with ⟨token, hmem, hstar⟩ | ⟨-, hseparated⟩
  · exact absurd hstar (hstarred token hmem)
  · exact hseparated hcount

end Texts

/-- **Which texts are read right.** Where comments are set apart or all words fit, the lexer finds
the tokens of a text exactly if both hold. -/
theorem lexes_iff (source : SourceText) (hplain : ∀ item ∈ source.items, item.Plain)
    (h : source.Separated ∨ ∀ item ∈ source.items, item.Fits) :
    source.Lexes ↔ source.Separated ∧ ∀ item ∈ source.items, item.Fits := by
  have hregular : Regular source.items := ⟨source.apart, hplain⟩
  constructor
  · intro hlexes
    rcases h with hseparated | hfits
    · exact ⟨hseparated, (length_tokens hregular hseparated).2 hlexes.length_eq⟩
    · exact ⟨separated_of_forall₂ hregular hfits hlexes, hfits⟩
  · rintro ⟨hseparated, hfits⟩
    exact forall₂_tokens hregular hseparated hfits

/-- `int /* a */ f` is read right. -/
theorem lexes_comment_apart :
    let source : SourceText :=
      ⟨[.word (ch 'i') [ch 'n', ch 't'] (by decide) (by decide), .blank (ch ' ') (by decide),
        .comment [ch ' ', ch 'a', ch ' '] (by decide) (by decide), .blank (ch ' ') (by decide),
        .word (ch 'f') [] (by decide) (by decide)], by simp [Item.IsWord]⟩
    (∀ item ∈ source.items, item.Plain) ∧ source.Separated ∧ source.Lexes := by
  intro source
  have hplain : ∀ item ∈ source.items, item.Plain := by
    simp [source, Item.Plain, ch]
  have hseparated : source.Separated := by
    simp [source, SourceText.Separated, Item.IsComment, Item.IsWhite]
  have hfits : ∀ item ∈ source.items, item.Fits := by
    simp [source, Item.Fits, Item.text, tokenSize]
  exact ⟨hplain, hseparated, (lexes_iff source hplain (.inl hseparated)).mpr ⟨hseparated, hfits⟩⟩

/-- Of `int/**/f` only the first token is found. -/
theorem not_lexes_comment_word : ¬ ∀ source : SourceText, source.Lexes := by
  intro h
  let source : SourceText :=
    ⟨[.word (ch 'i') [ch 'n', ch 't'] (by decide) (by decide),
      .comment [] (by decide) (by decide), .word (ch 'f') [] (by decide) (by decide)],
      by simp [Item.IsWord]⟩
  have hlength : 2 = (tokens source.text).length := (h source).length_eq
  exact absurd hlength (by decide)

end Rastapopoulos.Rpc
