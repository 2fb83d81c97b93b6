import Mathlib.Data.List.Basic
import Rastapopoulos.Foundations.Fallible
import Rastapopoulos.Rpc.Types

/-!
# The parser of `rpcgen`

`read_statements` of `tools/rpcgen/rpcgen.c` and the functions it calls, on the list of tokens from
`token_ptr` on, and the grammar of `Grammar.txt` as a derivation relation between token lists and
syntax trees. The parser reads names and modifiers of a type in any order and leaves its loop over
the parameters at a comma with no parameter behind it; nevertheless it accepts exactly the token
lists of the grammar, and builds the tree of their derivation (`readStatements_eq_ok_iff`).
-/

namespace Rastapopoulos.Rpc

/-! ## Tokens -/

/-- `enum TokenType`, with the type name or the modifier that a token of that kind carries. -/
inductive TokenKind
  | null
  | typename (name : TypeName)
  | modifier (modifier : Modifier) (ne_null : modifier ≠ .null)
  | identifier
  | number
  | lBrace
  | rBrace
  | lBracket
  | rBracket
  | semicolon
  | colon
  deriving DecidableEq

/-- `struct token`. -/
structure Token where
  kind : TokenKind
  text : String
  /-- The text fits into 64 characters, with its NUL. -/
  text_le : text.length ≤ 63

/-- Why the parser stops. -/
inductive ParseFault
  | assertion
  /-- The error of `read_type` in front of its assertion, with the tokens that it prints. -/
  | invalidType (texts : List String)
  /-- The error of `read_function_param` in front of its `abort`, with the token that it prints. -/
  | expectedIdentifier (token : Token)
  | nullDereference

/-- `strlcpy` into an array of 64 characters. -/
def copyName (text : String) : String := String.ofList (text.toList.take 63)

/-! ## The parser -/

/-- `is_type`. -/
def isType (token : Token) : Bool :=
  match token.kind with
  | .typename _ | .modifier _ _ => true
  | _ => false

/-- The loop of `read_type`, with `result` so far and the texts of `read_tokens`. -/
def readTypeLoop : Option TypeName → Modifier → List String → List Token →
    Except ParseFault (Option TypeName × Modifier × List String × List Token)
  | _, _, _, [] => .error .assertion
  | type, modifier, texts, token :: tokens =>
    match token.kind with
    | .typename name => do
      check (type = none) .assertion
      readTypeLoop (some name) modifier (texts ++ [token.text]) tokens
    | .modifier m _ => do
      check (modifier = .null) .assertion
      readTypeLoop type m (texts ++ [token.text]) tokens
    | _ => .ok (type, modifier, texts ++ [token.text], token :: tokens)

def readType (tokens : List Token) : Except ParseFault (RPCType × List Token) := do
  let (type, modifier, texts, tokens) ← readTypeLoop none .null [] tokens
  match type with
  | none => .error (.invalidType texts)
  | some name => .ok (⟨name, modifier⟩, tokens)

/-- The next token, of the kind that is asserted. -/
def expect (kind : TokenKind) : List Token → Except ParseFault (Token × List Token)
  | [] => .error .assertion
  | token :: tokens => do
    check (token.kind = kind) .assertion
    return (token, tokens)

def readFunctionParam (tokens : List Token) : Except ParseFault (RPCArgument × List Token) := do
  let (type, tokens) ← readType tokens
  match tokens with
  | [] => .error .assertion
  | token :: tokens =>
    check (token.kind = .identifier) (.expectedIdentifier token)
    return (⟨copyName token.text, type⟩, tokens)

/-- The loop of `read_function_param_list`. Each turn takes a token, and with no token left it stops
at its assertion: so it takes no more turns than there are tokens. -/
def readFunctionParamLoop : ℕ → List Token → Except ParseFault (List RPCArgument × List Token)
  | 0, _ | _, [] => .error .assertion
  | fuel + 1, token :: tokens =>
    if isType token then do
      let (arg, tokens) ← readFunctionParam (token :: tokens)
      match tokens with
      | [] => .error .nullDereference
      | next :: rest =>
        if next.kind ≠ .colon then return ([arg], next :: rest)
        else
          let (args, tokens) ← readFunctionParamLoop fuel rest
          return (arg :: args, tokens)
    else .ok ([], token :: tokens)

def readFunctionParamList (tokens : List Token) :
    Except ParseFault (List RPCArgument × List Token) :=
  readFunctionParamLoop tokens.length tokens

def readFunction (tokens : List Token) : Except ParseFault (RPCFunction × List Token) := do
  let (returnType, tokens) ← readType tokens
  let (name, tokens) ← expect .identifier tokens
  let (_, tokens) ← expect .lBrace tokens
  let (args, tokens) ← readFunctionParamList tokens
  let (_, tokens) ← expect .rBrace tokens
  let (_, tokens) ← expect .semicolon tokens
  return (⟨copyName name.text, returnType, args⟩, tokens)

/-- The loop of `read_statements`. Each turn takes a token, so that none is left when there have
been as many turns as there were tokens. -/
def readStatementsLoop : ℕ → List Token → Except ParseFault (List RPCFunction)
  | 0, _ | _, [] => .ok []
  | fuel + 1, token :: tokens => do
    let (fn, tokens) ← readFunction (token :: tokens)
    return fn :: (← readStatementsLoop fuel tokens)

def readStatements (tokens : List Token) : Except ParseFault (List RPCFunction) :=
  readStatementsLoop tokens.length tokens

/-! ## The grammar -/

/-- `type`. -/
inductive IsRPCType : List Token → RPCType → Prop
  | name {token : Token} {n : TypeName} (h : token.kind = .typename n) :
      IsRPCType [token] ⟨n, .null⟩
  | nameModifier {token token' : Token} {n : TypeName} {m : Modifier} {hm : m ≠ .null}
      (h : token.kind = .typename n) (h' : token'.kind = .modifier m hm) :
      IsRPCType [token, token'] ⟨n, m⟩
  | modifierName {token token' : Token} {n : TypeName} {m : Modifier} {hm : m ≠ .null}
      (h : token.kind = .modifier m hm) (h' : token'.kind = .typename n) :
      IsRPCType [token, token'] ⟨n, m⟩

/-- `function-param`. -/
inductive IsFunctionParam : List Token → RPCArgument → Prop
  | mk {tokens : List Token} {type : RPCType} {name : Token} (htype : IsRPCType tokens type)
      (hname : name.kind = .identifier) : IsFunctionParam (tokens ++ [name]) ⟨name.text, type⟩

/-- `function-param-list`. -/
inductive IsFunctionParamList : List Token → List RPCArgument → Prop
  | cons {tokens rest : List Token} {arg : RPCArgument} {args : List RPCArgument} {colon : Token}
      (harg : IsFunctionParam tokens arg) (hcolon : colon.kind = .colon)
      (hargs : IsFunctionParamList rest args) :
      IsFunctionParamList (tokens ++ colon :: rest) (arg :: args)
  | last {tokens : List Token} {arg : RPCArgument} (harg : IsFunctionParam tokens arg) :
      IsFunctionParamList tokens [arg]
  | nil : IsFunctionParamList [] []

/-- `function-declaration`. -/
inductive IsFunctionDeclaration : List Token → RPCFunction → Prop
  | mk {tokens params : List Token} {type : RPCType} {args : List RPCArgument}
      {name lBrace rBrace semicolon : Token} (htype : IsRPCType tokens type)
      (hname : name.kind = .identifier) (hlBrace : lBrace.kind = .lBrace)
      (hargs : IsFunctionParamList params args) (hrBrace : rBrace.kind = .rBrace)
      (hsemicolon : semicolon.kind = .semicolon) :
      IsFunctionDeclaration (tokens ++ name :: lBrace :: (params ++ [rBrace, semicolon]))
        ⟨name.text, type, args⟩

/-- A sequence of statements. -/
inductive AreStatements : List Token → List RPCFunction → Prop
  | nil : AreStatements [] []
  | cons {tokens rest : List Token} {fn : RPCFunction} {fns : List RPCFunction}
      (hfn : IsFunctionDeclaration tokens fn) (hfns : AreStatements rest fns) :
      AreStatements (tokens ++ rest) (fn :: fns)

/-! ## Types -/

variable {tokens rest : List Token} {token : Token} {type : RPCType} {arg : RPCArgument}
  {args : List RPCArgument} {fn : RPCFunction} {fns : List RPCFunction} {kind : TokenKind} {fuel : ℕ}

theorem copyName_text (token : Token) : copyName token.text = token.text := by
  have hlen : token.text.toList.length ≤ 63 := by
    rw [String.length_toList]
    exact token.text_le
  rw [copyName, List.take_of_length_le hlen, String.ofList_toList]

theorem expect_eq_ok : expect kind tokens = .ok (token, rest) ↔
    tokens = token :: rest ∧ token.kind = kind := by
  cases tokens with
  | nil => simp [expect]
  | cons token' tokens =>
    simp only [expect, check_bind_eq_ok, pure_inj, Prod.mk.injEq,
      List.cons.injEq]
    constructor
    · rintro ⟨hkind, rfl, rfl⟩
      exact ⟨⟨rfl, rfl⟩, hkind⟩
    · rintro ⟨⟨rfl, rfl⟩, hkind⟩
      exact ⟨hkind, rfl, rfl⟩

variable {modifier : Modifier} {texts : List String}

/-- What a turn of `read_type`'s loop can do. -/
theorem readTypeLoop_cases {type type' : Option TypeName} {modifier' : Modifier}
    {texts' : List String}
    (h : readTypeLoop type modifier texts tokens = .ok (type', modifier', texts', rest)) :
    ∃ token tokens', tokens = token :: tokens' ∧
      ((isType token = false ∧ type' = type ∧ modifier' = modifier ∧ rest = tokens) ∨
        (∃ name texts'', token.kind = .typename name ∧ type = none ∧
          readTypeLoop (some name) modifier texts'' tokens' = .ok (type', modifier', texts', rest)) ∨
        ∃ m hm texts'', token.kind = .modifier m hm ∧ modifier = .null ∧
          readTypeLoop type m texts'' tokens' = .ok (type', modifier', texts', rest)) := by
  cases tokens with
  | nil => exact nomatch h
  | cons token tokens =>
    refine ⟨token, tokens, rfl, ?_⟩
    rw [readTypeLoop] at h
    cases hkind : token.kind <;> simp only [hkind] at h
    case typename name =>
      obtain ⟨hnone, h⟩ := check_bind_eq_ok.mp h
      exact .inr (.inl ⟨name, _, rfl, hnone, h⟩)
    case modifier m hm =>
      obtain ⟨hnull, h⟩ := check_bind_eq_ok.mp h
      exact .inr (.inr ⟨m, hm, _, rfl, hnull, h⟩)
    all_goals
      cases h
      exact .inl ⟨by rw [isType, hkind], rfl, rfl, rfl⟩

theorem readType_sound (h : readType tokens = .ok (type, rest)) :
    ∃ used, tokens = used ++ rest ∧ IsRPCType used type := by
  simp only [readType, bind_eq_ok, Prod.exists] at h
  obtain ⟨name, modifier, texts, rest', hloop, h⟩ := h
  cases name with
  | none => exact nomatch h
  | some name =>
    cases h
    obtain ⟨token₁, tokens₁, rfl, hloop⟩ := readTypeLoop_cases hloop
    rcases hloop with ⟨-, h, -⟩ | ⟨name₁, _, h₁, -, hloop⟩ | ⟨m₁, hm₁, _, h₁, -, hloop⟩
    · exact nomatch h
    · -- a name first
      obtain ⟨token₂, tokens₂, rfl, hloop⟩ := readTypeLoop_cases hloop
      rcases hloop with ⟨-, h, rfl, rfl⟩ | ⟨_, _, -, h, -⟩ | ⟨m₂, hm₂, _, h₂, -, hloop⟩
      · cases h
        exact ⟨[token₁], rfl, .name h₁⟩
      · exact nomatch h
      · obtain ⟨token₃, tokens₃, rfl, hloop⟩ := readTypeLoop_cases hloop
        rcases hloop with ⟨-, h, rfl, rfl⟩ | ⟨_, _, -, h, -⟩ | ⟨_, _, _, -, h, -⟩
        · cases h
          exact ⟨[token₁, token₂], rfl, .nameModifier h₁ h₂⟩
        · exact nomatch h
        · exact absurd h hm₂
    · -- a modifier first
      obtain ⟨token₂, tokens₂, rfl, hloop⟩ := readTypeLoop_cases hloop
      rcases hloop with ⟨-, h, -⟩ | ⟨name₂, _, h₂, -, hloop⟩ | ⟨_, _, _, -, h, -⟩
      · exact nomatch h
      · obtain ⟨token₃, tokens₃, rfl, hloop⟩ := readTypeLoop_cases hloop
        rcases hloop with ⟨-, h, rfl, rfl⟩ | ⟨_, _, -, h, -⟩ | ⟨_, _, _, -, h, -⟩
        · cases h
          exact ⟨[token₁, token₂], rfl, .modifierName h₁ h₂⟩
        · exact nomatch h
        · exact absurd h hm₁
      · exact absurd h hm₁

theorem readTypeLoop_stop {type : Option TypeName}
    (h : isType token = false) : readTypeLoop type modifier texts (token :: tokens) =
      .ok (type, modifier, texts ++ [token.text], token :: tokens) := by
  rw [readTypeLoop]
  unfold isType at h
  cases hkind : token.kind <;> simp_all

theorem readTypeLoop_typename {name : TypeName}
    (h : token.kind = .typename name) : readTypeLoop none modifier texts (token :: tokens) =
      readTypeLoop (some name) modifier (texts ++ [token.text]) tokens := by
  rw [readTypeLoop]
  simp only [h, check_of _ trivial, ok_bind]

theorem readTypeLoop_modifier {type : Option TypeName} {m : Modifier} {hm : m ≠ .null}
    (h : token.kind = .modifier m hm) :
    readTypeLoop type .null texts (token :: tokens) =
      readTypeLoop type m (texts ++ [token.text]) tokens := by
  rw [readTypeLoop]
  simp only [h, check_of _ trivial, ok_bind]

theorem readType_complete (htype : IsRPCType tokens type) (h : isType token = false)
    (rest : List Token) : readType (tokens ++ token :: rest) = .ok (type, token :: rest) := by
  cases htype with
  | name h₁ =>
    rw [List.singleton_append, readType, readTypeLoop_typename h₁, readTypeLoop_stop h]
    rfl
  | nameModifier h₁ h₂ =>
    rw [List.cons_append, List.singleton_append, readType, readTypeLoop_typename h₁,
      readTypeLoop_modifier h₂, readTypeLoop_stop h]
    rfl
  | modifierName h₁ h₂ =>
    rw [List.cons_append, List.singleton_append, readType, readTypeLoop_modifier h₁,
      readTypeLoop_typename h₂, readTypeLoop_stop h]
    rfl

/-! ## Parameters -/

theorem isType_identifier (h : token.kind = .identifier) : isType token = false := by
  rw [isType, h]

theorem readFunctionParam_sound (h : readFunctionParam tokens = .ok (arg, rest)) :
    ∃ used, tokens = used ++ rest ∧ IsFunctionParam used arg := by
  simp only [readFunctionParam, bind_eq_ok, Prod.exists] at h
  obtain ⟨type, tokens', htype, h⟩ := h
  obtain ⟨used, rfl, hused⟩ := readType_sound htype
  cases tokens' with
  | nil => exact nomatch h
  | cons name tokens' =>
    obtain ⟨hname, h⟩ := check_bind_eq_ok.mp h
    cases h
    refine ⟨used ++ [name], by simp, ?_⟩
    rw [copyName_text]
    exact .mk hused hname

theorem readFunctionParam_complete (harg : IsFunctionParam tokens arg) (rest : List Token) :
    readFunctionParam (tokens ++ rest) = .ok (arg, rest) := by
  cases harg with
  | mk htype hname =>
    rw [List.append_assoc, List.singleton_append, readFunctionParam,
      readType_complete htype (isType_identifier hname), ok_bind]
    simp only [hname, check_of _ trivial, ok_bind, copyName_text, pure_eq_ok]

theorem IsRPCType.exists_cons (h : IsRPCType tokens type) :
    ∃ token tokens', tokens = token :: tokens' ∧ isType token = true := by
  cases h with
  | name h₁ => exact ⟨_, _, rfl, by rw [isType, h₁]⟩
  | nameModifier h₁ h₂ => exact ⟨_, _, rfl, by rw [isType, h₁]⟩
  | modifierName h₁ h₂ => exact ⟨_, _, rfl, by rw [isType, h₁]⟩

theorem IsFunctionParam.exists_cons (h : IsFunctionParam tokens arg) :
    ∃ token tokens', tokens = token :: tokens' ∧ isType token = true := by
  cases h with
  | mk htype hname =>
    obtain ⟨token, tokens', rfl, htoken⟩ := htype.exists_cons
    exact ⟨token, _, rfl, htoken⟩

theorem readFunctionParamLoop_sound (h : readFunctionParamLoop fuel tokens = .ok (args, rest)) :
    ∃ used, tokens = used ++ rest ∧ IsFunctionParamList used args := by
  induction fuel generalizing tokens args rest with
  | zero => exact nomatch h
  | succ fuel ih =>
    cases tokens with
    | nil => exact nomatch h
    | cons token tokens =>
      rw [readFunctionParamLoop] at h
      split at h
      · simp only [bind_eq_ok, Prod.exists] at h
        obtain ⟨arg, tokens', harg, h⟩ := h
        obtain ⟨used, htokens, hused⟩ := readFunctionParam_sound harg
        cases tokens' with
        | nil => exact nomatch h
        | cons next tokens' =>
          dsimp only at h
          split at h
          · cases h
            exact ⟨used, htokens, .last hused⟩
          · rename_i hcolon
            simp only [bind_eq_ok, Prod.exists, pure_inj, Prod.mk.injEq] at h
            obtain ⟨args', rest', hargs, rfl, rfl⟩ := h
            obtain ⟨used', rfl, hused'⟩ := ih hargs
            rw [not_not] at hcolon
            exact ⟨used ++ next :: used', by rw [htokens]; simp, .cons hused hcolon hused'⟩
      · cases h
        exact ⟨[], rfl, .nil⟩

/-- A parameter list, in front of a token that is neither a type nor a comma. -/
theorem readFunctionParamLoop_complete (hargs : IsFunctionParamList tokens args)
    (htype : isType token = false) (hcolon : token.kind ≠ .colon)
    (hfuel : (tokens ++ token :: rest).length ≤ fuel) :
    readFunctionParamLoop fuel (tokens ++ token :: rest) = .ok (args, token :: rest) := by
  induction hargs generalizing fuel with
  | nil =>
    obtain ⟨fuel, rfl⟩ := Nat.exists_eq_add_of_lt (show 0 < fuel by simp at hfuel; omega)
    rw [List.nil_append, Nat.zero_add, readFunctionParamLoop, htype]
    rfl
  | last harg =>
    obtain ⟨first, tokens, rfl, hfirst⟩ := harg.exists_cons
    have hread := readFunctionParam_complete harg (token :: rest)
    obtain ⟨fuel, rfl⟩ := Nat.exists_eq_add_of_lt (show 0 < fuel by simp at hfuel; omega)
    rw [List.cons_append] at hread ⊢
    rw [Nat.zero_add, readFunctionParamLoop, if_pos hfirst, hread, ok_bind]
    dsimp only
    rw [if_pos hcolon]
    rfl
  | cons harg hcolon' hargs ih =>
    rename_i tokens rest' arg args colon
    obtain ⟨first, tokens, rfl, hfirst⟩ := harg.exists_cons
    have hread := readFunctionParam_complete harg (colon :: (rest' ++ token :: rest))
    obtain ⟨fuel, rfl⟩ := Nat.exists_eq_add_of_lt (show 0 < fuel by simp at hfuel; omega)
    have hfuel' : (rest' ++ token :: rest).length ≤ fuel := by
      simp at hfuel ⊢
      omega
    rw [List.cons_append] at hread
    rw [List.append_assoc, List.cons_append, List.cons_append, Nat.zero_add, readFunctionParamLoop,
      if_pos hfirst, hread, ok_bind]
    dsimp only
    rw [if_neg (not_not.mpr hcolon'), ih hfuel']
    rfl

/-! ## Functions and statements -/

theorem readFunction_sound (h : readFunction tokens = .ok (fn, rest)) :
    ∃ used, tokens = used ++ rest ∧ IsFunctionDeclaration used fn := by
  simp only [readFunction, bind_eq_ok, Prod.exists, expect_eq_ok, pure_inj,
    Prod.mk.injEq] at h
  obtain ⟨type, tokens₁, htype, name, tokens₂, ⟨rfl, hname⟩, lBrace, tokens₃, ⟨rfl, hlBrace⟩,
    args, tokens₄, hargs, rBrace, tokens₅, ⟨rfl, hrBrace⟩, semicolon, tokens₆, ⟨rfl, hsemicolon⟩,
    rfl, rfl⟩ := h
  obtain ⟨params, rfl, hparams⟩ := readFunctionParamLoop_sound hargs
  obtain ⟨used, rfl, hused⟩ := readType_sound htype
  refine ⟨used ++ name :: lBrace :: (params ++ [rBrace, semicolon]), by simp, ?_⟩
  rw [copyName_text]
  exact .mk hused hname hlBrace hparams hrBrace hsemicolon

theorem readFunction_complete (hfn : IsFunctionDeclaration tokens fn) (rest : List Token) :
    readFunction (tokens ++ rest) = .ok (fn, rest) := by
  cases hfn with
  | mk htype hname hlBrace hargs hrBrace hsemicolon =>
    rename_i tokens params type args name lBrace rBrace semicolon
    have hparams : readFunctionParamList (params ++ rBrace :: semicolon :: rest) =
        .ok (args, rBrace :: semicolon :: rest) := by
      refine readFunctionParamLoop_complete hargs ?_ ?_ (Nat.le_refl _)
      · rw [isType, hrBrace]
      · rw [hrBrace]
        exact fun h => nomatch h
    have htype := readType_complete htype (isType_identifier hname)
      (lBrace :: (params ++ rBrace :: semicolon :: rest))
    simp only [List.append_assoc, List.cons_append, List.nil_append, readFunction, htype, ok_bind,
      expect, hname, hlBrace, hparams, hrBrace, hsemicolon, check_of _ trivial, pure_eq_ok,
      copyName_text]

theorem IsFunctionDeclaration.length_pos (h : IsFunctionDeclaration tokens fn) :
    0 < tokens.length := by
  cases h
  rw [List.length_append, List.length_cons]
  omega

theorem readStatementsLoop_sound (hfuel : tokens.length ≤ fuel)
    (h : readStatementsLoop fuel tokens = .ok fns) : AreStatements tokens fns := by
  induction fuel generalizing tokens fns with
  | zero =>
    obtain rfl := List.length_eq_zero_iff.mp (Nat.le_zero.mp hfuel)
    cases h
    exact .nil
  | succ fuel ih =>
    cases tokens with
    | nil =>
      cases h
      exact .nil
    | cons token tokens =>
      simp only [readStatementsLoop, bind_eq_ok, Prod.exists, pure_inj] at h
      obtain ⟨fn, rest, hfn, fns, hfns, rfl⟩ := h
      obtain ⟨used, hused, hfn⟩ := readFunction_sound hfn
      have hlen := congrArg List.length hused
      have hpos := hfn.length_pos
      rw [List.length_append] at hlen
      rw [hused]
      exact .cons hfn (ih (by omega) hfns)

theorem readStatementsLoop_complete (h : AreStatements tokens fns) (hfuel : tokens.length ≤ fuel) :
    readStatementsLoop fuel tokens = .ok fns := by
  induction h generalizing fuel with
  | nil => cases fuel <;> rfl
  | cons hfn hfns ih =>
    rename_i tokens rest fn fns
    have hpos := hfn.length_pos
    have hread := readFunction_complete hfn rest
    rw [List.length_append] at hfuel
    obtain ⟨fuel, rfl⟩ := Nat.exists_eq_add_of_lt (show 0 < fuel by omega)
    obtain ⟨token, tokens, rfl⟩ := List.exists_cons_of_ne_nil (List.ne_nil_of_length_pos hpos)
    rw [List.cons_append] at hread ⊢
    rw [Nat.zero_add, readStatementsLoop, hread, ok_bind]
    dsimp only
    rw [ih (by omega)]
    rfl

/-- **The parser accepts exactly the token lists of the grammar**, and returns their tree. -/
theorem readStatements_eq_ok_iff (tokens : List Token) (fns : List RPCFunction) :
    readStatements tokens = .ok fns ↔ AreStatements tokens fns :=
  ⟨readStatementsLoop_sound (Nat.le_refl _),
    fun h => readStatementsLoop_complete h (Nat.le_refl _)⟩

end Rastapopoulos.Rpc
