import Rastapopoulos.Strings.Format

/-!
# Reading a format

What `formatv` makes of an arbitrary format, well formed or not. Its characters are read in one of
two modes, as text or as part of a conversion; a conversion ends with one of its letters, and with
nothing else (`scan`). So a format that ends within a conversion is read on behind its NUL, and what
follows `%%` is not text again: both work out exactly for the formats that leave no conversion open
and have no conversion that begins with a second percent sign (`readsToEnd_iff`).
-/

namespace Rastapopoulos.Strings

/-! ## Modes -/

/-- The mode behind a text: not in a conversion, or in one of which so much has been read. -/
def scan : Option Conversion → List Byte → Option Conversion
  | mode, [] => mode
  | none, c :: fmt => if c = ch '%' then scan (some {}) fmt else scan none fmt
  | some cv, c :: fmt =>
    if Closing c then scan none fmt
    else if IsFlag c then scan (some (cv.read c)) fmt
    else scan (some cv) fmt

/-- The output of a format, as it is read from a mode on. -/
def reading : Option Conversion → List Byte → List Arg → Except Fault (List Byte)
  | none, [], _ => .ok []
  | none, c :: fmt, args =>
    if c = ch '%' then reading (some {}) fmt args else do return c :: (← reading none fmt args)
  | some _, [], _ => .error .overrun
  | some cv, c :: fmt, args =>
    if Closing c then do
      let (s, args) ← convert cv c args
      return s ++ (← reading none fmt args)
    else if IsFlag c then reading (some (cv.read c)) fmt args
    else do return c :: (← reading (some cv) fmt args)

/-! ## The loop -/

section Total

variable {σ : Type} (callback : σ → Byte → σ) {cv : Conversion} {mode : Option Conversion}
  {fmt : List Byte} {args : List Arg} {c : Byte}

/-- A callback that always returns, called for all characters of a string. -/
theorem emit_total (st : σ) {ret : ℕ} (hret : ret < wordMod) (s : List Byte) :
    emit (fun st c => .ok (callback st c)) (st, ret) s =
      .ok (s.foldl callback st, addW ret s.length) := by
  induction s generalizing st ret with
  | nil => simp [emit, addW, Nat.mod_eq_of_lt hret]
  | cons c s ih =>
    have hstep : emit (fun st c => .ok (callback st c)) (st, ret) (c :: s) =
        emit (fun st c => .ok (callback st c)) (callback st c, addW ret 1) s := rfl
    rw [hstep, ih _ (addW_lt _ _), addW, addW, Nat.mod_add_mod, List.length_cons, Nat.add_assoc,
      Nat.add_comm 1]
    rfl

/-- **The loop** passes the output to the callback. -/
theorem formatvLoop_total (st : σ) {ret : ℕ} (hret : ret < wordMod) :
    formatvLoop (fun st c => .ok (callback st c)) mode fmt args (st, ret) =
      reading mode fmt args >>= fun s => .ok (s.foldl callback st, addW ret s.length) := by
  induction fmt generalizing mode args st ret with
  | nil =>
    cases mode with
    | none => simp [formatvLoop, reading, addW, Nat.mod_eq_of_lt hret]
    | some cv => rfl
  | cons c fmt ih =>
    have hemit : ∀ s mode args, (emit (fun st c => .ok (callback st c)) (st, ret) s >>=
        formatvLoop (fun st c => .ok (callback st c)) mode fmt args) =
        reading mode fmt args >>= fun r => .ok ((s ++ r).foldl callback st,
          addW ret (s ++ r).length) := by
      intro s mode args
      rw [emit_total callback st hret, ok_bind, ih _ (addW_lt _ _)]
      simp only [List.foldl_append, List.length_append, addW, Nat.mod_add_mod, Nat.add_assoc]
    cases mode with
    | none =>
      rw [formatvLoop, reading]
      by_cases hc : c = ch '%'
      · rw [if_pos hc, if_pos hc, ih st hret]
      · rw [if_neg hc, if_neg hc, hemit [c] none args]
        simp
    | some cv =>
      rw [reading]
      by_cases hclosing : Closing c
      · rw [if_pos hclosing, formatvLoop_closing hclosing]
        cases convert cv c args with
        | error e => rfl
        | ok r => simp [hemit]
      · rw [if_neg hclosing]
        by_cases hflag : IsFlag c
        · rw [if_pos hflag, formatvLoop_flag hflag, ih st hret]
        · rw [if_neg hflag, formatvLoop_other hclosing hflag, hemit [c] (some cv) args]
          simp

theorem formatvLoop_eq_error (st : σ) {ret : ℕ} (hret : ret < wordMod) {e : Fault} :
    formatvLoop (fun st c => .ok (callback st c)) mode fmt args (st, ret) = .error e ↔
      reading mode fmt args = .error e := by
  rw [formatvLoop_total callback st hret]
  cases reading mode fmt args <;> simp

end Total

/-! ## The number of characters -/

/-- The value of an `int`. -/
def intValue (n : ℕ) : ℤ := (BitVec.ofNat 32 n).toInt

theorem formatv_total {σ : Type} (callback : σ → Byte → σ) (params : σ) (pieces : List Piece) :
    formatv (fun st c => .ok (callback st c)) params (formatOf pieces) (argsOf pieces) =
      .ok ((outputOf pieces).foldl callback params, addW 0 (outputOf pieces).length) :=
  (formatv_eq params pieces).trans (emit_total callback params (by decide) _)

/-- **The meaning of a format**: its output is passed to the callback, character by character, and
the result is the number of characters, as an `int`. -/
theorem formatv_agrees {σ : Type} (callback : σ → Byte → σ) (params : σ) (pieces : List Piece) :
    ∃ ret, formatv (fun st c => .ok (callback st c)) params (formatOf pieces) (argsOf pieces) =
        .ok ((outputOf pieces).foldl callback params, ret) ∧
      intValue ret = ((outputOf pieces).length : ℤ).bmod (2 ^ 32) ∧
      (intValue ret = (outputOf pieces).length ↔ (outputOf pieces).length < 2 ^ 31) := by
  have hbmod : intValue (addW 0 (outputOf pieces).length) =
      ((outputOf pieces).length : ℤ).bmod (2 ^ 32) := by
    simp [intValue, BitVec.toInt_ofNat', addW, wordMod, ← Int.emod_bmod]
  refine ⟨_, formatv_total callback params pieces, hbmod, ?_⟩
  rw [hbmod, Int.bmod_def]
  split <;> omega

theorem length_padded_zero (width : ℕ) (h : width < 2 ^ 31) (s : List Byte)
    (hle : s.length ≤ width) : (padded ⟨true, width, h⟩ s).length = width := by
  simp [padded, Nat.sub_add_cancel hle]

/-- A number with as many zeros as there can be, and one character more. -/
theorem formatv_too_long : ¬ ∀ (σ : Type) (callback : σ → Byte → σ) (params : σ)
    (pieces : List Piece), ∃ ret,
      formatv (fun st c => .ok (callback st c)) params (formatOf pieces) (argsOf pieces) =
        .ok ((outputOf pieces).foldl callback params, ret) ∧
      intValue ret = (outputOf pieces).length := by
  intro h
  have hlen : ∀ width (hlt : width < 2 ^ 31), 0 < width →
      (outputOf [.number ⟨true, width, hlt⟩ .u (.plain 0),
        .literal (ch 'a') (by decide) (by decide)]).length = width + 1 := by
    intro width hlt hpos
    have hnumber : (padded ⟨true, width, hlt⟩ (numeral 10 0)).length = width :=
      length_padded_zero width hlt _ hpos
    simp [outputOf, Piece.output, NumberConversion.output, Number.toNat, hnumber]
  obtain ⟨ret, hret, hint⟩ := h Unit (fun _ _ => ()) ()
    [.number ⟨true, 2 ^ 31 - 1, by decide⟩ .u (.plain 0), .literal (ch 'a') (by decide) (by decide)]
  rw [formatv_total, Except.ok.injEq, Prod.mk.injEq] at hret
  rw [← hret.2, hlen _ _ (by decide)] at hint
  exact absurd hint (by decide)

/-! ## Where the reading ends -/

section Ends

variable {cv : Conversion} {mode : Option Conversion} {fmt : List Byte} {args args' : List Arg}
  {c : Byte} {v : ℕ} {s s' w : List Byte}

theorem nextNumber_error : (∃ r, nextNumber cv args = .ok r) ∨
    nextNumber cv args = .error .argument := by
  unfold nextNumber
  split <;> split <;> simp

theorem convert_error : (∃ r, convert cv c args = .ok r) ∨
    convert cv c args = .error .argument := by
  unfold convert
  split
  · unfold nextString
    split <;> simp
  · rcases @nextNumber_error cv args with ⟨r, hr⟩ | he
    · simp [hr]
    · simp [he]

theorem scan_append (before after : List Byte) :
    scan mode (before ++ after) = scan (scan mode before) after := by
  induction before generalizing mode with
  | nil => cases mode <;> rfl
  | cons c before ih =>
    cases mode with
    | none => simp only [List.cons_append, scan, ih, apply_ite (fun mode => scan mode after)]
    | some cv => simp only [List.cons_append, scan, ih, apply_ite (fun mode => scan mode after)]

/-- How a reading ends: with the format, for want of an argument, or behind the format if that
leaves a conversion open. -/
def EndsIn (mode : Option Conversion) : Except Fault (List Byte) → Prop
  | .ok _ => mode = none
  | .error .argument => True
  | .error .overrun => mode ≠ none

theorem EndsIn.bind {x : Except Fault (List Byte)} (h : EndsIn mode x) (f : List Byte → List Byte) :
    EndsIn mode (x >>= fun s => pure (f s)) := by
  cases x with
  | error e => exact h
  | ok s => exact h

theorem reading_endsIn (mode : Option Conversion) (fmt : List Byte) (args : List Arg) :
    EndsIn (scan mode fmt) (reading mode fmt args) := by
  induction fmt generalizing mode args with
  | nil => cases mode <;> simp [reading, scan, EndsIn]
  | cons c fmt ih =>
    cases mode with
    | none =>
      rw [scan, reading]
      split
      · exact ih (some {}) args
      · exact (ih none args).bind _
    | some cv =>
      rw [scan, reading]
      split
      · rcases convert_error with ⟨r, hr⟩ | he
        · rw [hr]
          exact (ih none r.2).bind _
        · rw [he]
          trivial
      · split
        · exact ih (some (cv.read c)) args
        · exact (ih (some cv) args).bind _

theorem scan_of_reading (h : reading mode fmt args = .ok s) : scan mode fmt = none := by
  have hends := reading_endsIn mode fmt args
  rwa [h] at hends

theorem reading_of_scan (hscan : scan mode fmt = none)
    (hargs : reading mode fmt args ≠ .error .argument) : ∃ s, reading mode fmt args = .ok s := by
  have hends := reading_endsIn mode fmt args
  cases h : reading mode fmt args with
  | ok s => exact ⟨s, rfl⟩
  | error e =>
    cases e <;> simp_all [EndsIn]

/-! ### Arguments that tell text from conversions -/

/-- Arguments that show as a digit `v`, or as a `t`. -/
def StandIn (v : ℕ) (arg : Arg) : Prop :=
  arg = .word (BitVec.ofNat 32 v) ∨ arg = .quad (BitVec.ofNat 64 v) ∨
    arg = .str ⟨[ch 't'], by decide⟩

/-- There are enough of them for any format. -/
theorem exists_standIns (v : ℕ) (mode : Option Conversion) (fmt : List Byte) :
    ∃ args, (∀ arg ∈ args, StandIn v arg) ∧ reading mode fmt args ≠ .error .argument := by
  have hbind : ∀ {x : Except Fault (List Byte)} (f : List Byte → List Byte),
      x ≠ .error .argument → (x >>= fun s => pure (f s)) ≠ .error .argument := by
    intro x f hx
    cases x with
    | error e => exact hx
    | ok s => simp
  induction fmt generalizing mode with
  | nil => exact ⟨[], by simp, by cases mode <;> simp [reading]⟩
  | cons c fmt ih =>
    cases mode with
    | none =>
      by_cases hc : c = ch '%'
      · obtain ⟨args, hmem, hne⟩ := ih (some {})
        exact ⟨args, hmem, by rwa [reading, if_pos hc]⟩
      · obtain ⟨args, hmem, hne⟩ := ih none
        exact ⟨args, hmem, by rw [reading, if_neg hc]; exact hbind _ hne⟩
    | some cv =>
      by_cases hclosing : Closing c
      · obtain ⟨args, hmem, hne⟩ := ih none
        obtain ⟨arg, harg, s, hconvert⟩ : ∃ arg, StandIn v arg ∧
            ∃ s, convert cv c (arg :: args) = .ok (s, args) := by
          by_cases hs : c = ch 's'
          · exact ⟨_, .inr (.inr rfl), _, by rw [convert, if_pos hs]; rfl⟩
          · by_cases hl : cv.l < 2
            · exact ⟨_, .inl rfl, _, by rw [convert, if_neg hs, nextNumber, if_pos hl]; rfl⟩
            · exact ⟨_, .inr (.inl rfl), _, by rw [convert, if_neg hs, nextNumber, if_neg hl]; rfl⟩
        refine ⟨arg :: args, List.forall_mem_cons.mpr ⟨harg, hmem⟩, ?_⟩
        rw [reading, if_pos hclosing, hconvert]
        exact hbind _ hne
      · by_cases hflag : IsFlag c
        · obtain ⟨args, hmem, hne⟩ := ih (some (cv.read c))
          exact ⟨args, hmem, by rwa [reading, if_neg hclosing, if_pos hflag]⟩
        · obtain ⟨args, hmem, hne⟩ := ih (some cv)
          exact ⟨args, hmem, by rw [reading, if_neg hclosing, if_neg hflag]; exact hbind _ hne⟩

theorem numeral_standIn : ∀ v ∈ [1, 2], numeral 10 v = [digit v] ∧ numeral 16 v = [digit v] ∧
    digit v ≠ ch '0' ∧ v < 2 ^ 32 := by decide

theorem nextString_standIn (hargs : ∀ arg ∈ args, StandIn v arg)
    (h : nextString args = .ok (s, args')) : s = [ch 't'] := by
  unfold nextString at h
  split at h
  · cases h
    rcases hargs _ List.mem_cons_self with harg | harg | harg
    · cases harg
    · cases harg
    · cases harg
      rfl
  · cases h

theorem nextNumber_standIn (hv : v < 2 ^ 32) (hargs : ∀ arg ∈ args, StandIn v arg) {n : ℕ}
    (h : nextNumber cv args = .ok (n, args')) : n = v := by
  unfold nextNumber at h
  split at h <;> split at h
  · cases h
    rcases hargs _ List.mem_cons_self with harg | harg | harg
    · cases harg
      exact Nat.mod_eq_of_lt hv
    · cases harg
    · cases harg
  · cases h
  · cases h
    rcases hargs _ List.mem_cons_self with harg | harg | harg
    · cases harg
    · cases harg
      exact Nat.mod_eq_of_lt (hv.trans (by decide))
    · cases harg
  · cases h

/-- What a conversion shows of a stand-in: a `t`, `0x` and the digit, or some zeros and the
digit. -/
theorem convert_standIn (hv : v ∈ [1, 2]) (hclosing : Closing c)
    (hargs : ∀ arg ∈ args, StandIn v arg) (h : convert cv c args = .ok (s, args')) :
    c = ch 's' ∧ s = [ch 't'] ∨ (c = ch 'p' ∨ c = ch 'P') ∧ s = [ch '0', ch 'x', digit v] ∨
      ∃ zeros, s = List.replicate zeros (ch '0') ++ [digit v] := by
  obtain ⟨hten, hsixteen, -, hlt⟩ := numeral_standIn v hv
  have hpad : ∀ digits, ∃ zeros, cv.pad digits = List.replicate zeros (ch '0') ++ digits := by
    intro digits
    rw [Conversion.pad]
    split
    · exact ⟨_, rfl⟩
    · exact ⟨0, rfl⟩
  unfold convert at h
  split at h
  · exact .inl ⟨‹_›, nextString_standIn hargs h⟩
  · obtain ⟨r, hr, h⟩ := bind_eq_ok.mp h
    cases h
    rw [nextNumber_standIn hlt hargs hr, hten, hsixteen]
    split
    · exact .inr (.inr (hpad _))
    · split
      · exact .inr (.inr (hpad _))
      · rename_i hs hten hsixteen
        exact .inr (.inl ⟨((hclosing.resolve_left hten).resolve_left hs).resolve_left hsixteen, rfl⟩)

/-- The first character that is not a zero. -/
def leading (s : List Byte) : Option Byte := s.find? (· ≠ ch '0')

theorem leading_zeros {zeros : ℕ} (hc : c ≠ ch '0') :
    leading (List.replicate zeros (ch '0') ++ c :: s) = some c := by
  induction zeros with
  | zero => simp [leading, hc]
  | succ zeros ih => simpa [leading] using ih

/-- **A conversion is not text**: it can be told from the text of its flags and its letter. -/
theorem convert_ne (hclosing : Closing c) (hw : ∀ x ∈ w, IsFlag x) :
    ∃ v ∈ [1, 2], ∀ args, (∀ arg ∈ args, StandIn v arg) → ∀ s args' rest text,
      convert cv c args = .ok (s, args') → s ++ rest ≠ w ++ c :: text := by
  -- the digit that the first character of the text, zeros apart, is not
  obtain ⟨v, hv, hne⟩ : ∃ v ∈ [1, 2], (leading w).or (some c) ≠ some (digit v) := by
    by_cases h : (leading w).or (some c) = some (digit 1)
    · exact ⟨2, by simp, by rw [h]; decide⟩
    · exact ⟨1, by simp, h⟩
  refine ⟨v, hv, ?_⟩
  intro args hargs s args' rest text hconvert heq
  rcases convert_standIn hv hclosing hargs hconvert with ⟨rfl, rfl⟩ | ⟨hc, rfl⟩ | ⟨zeros, rfl⟩
  · cases w with
    | nil => exact absurd (List.cons.inj heq).1 (by decide)
    | cons x w =>
      rw [← (List.cons.inj heq).1] at hw
      exact absurd (hw _ List.mem_cons_self) (by decide)
  · have hletter : ch '0' ≠ c ∧ ch 'x' ≠ c := by
      rcases hc with rfl | rfl <;> decide
    cases w with
    | nil => exact hletter.1 (List.cons.inj heq).1
    | cons x w =>
      have htail := (List.cons.inj heq).2
      cases w with
      | nil => exact hletter.2 (List.cons.inj htail).1
      | cons y w =>
        rw [← (List.cons.inj htail).1] at hw
        exact absurd (hw _ (.tail _ List.mem_cons_self)) (by decide)
  · have hc : c ≠ ch '0' := by
      rintro rfl
      exact absurd hclosing (by decide)
    have hleading : leading (w ++ c :: text) = (leading w).or (some c) := by
      simp [leading, hc]
    rw [← heq, List.append_assoc, List.singleton_append,
      leading_zeros (numeral_standIn v hv).2.2.1] at hleading
    exact hne hleading.symm

theorem reading_text (hc : c ≠ ch '%') (h : reading none (c :: fmt) args = .ok s) :
    ∃ text, reading none fmt args = .ok text ∧ s = c :: text := by
  rw [reading, if_neg hc] at h
  obtain ⟨text, htext, h⟩ := bind_eq_ok.mp h
  cases h
  exact ⟨text, htext, rfl⟩

theorem ne_percent : ∀ c, Closing c ∨ IsFlag c → c ≠ ch '%' := by decide +kernel

/-- **Text is not read as a conversion goes on**: `w` are the flags that the conversion has
taken. -/
theorem reading_ne (hw : ∀ x ∈ w, IsFlag x) (hcv : w = [] → cv = {}) (fmt : List Byte) :
    ∃ v ∈ [1, 2], ∀ args, (∀ arg ∈ args, StandIn v arg) → ∀ s s',
      reading (some cv) fmt args = .ok s → reading none fmt args = .ok s' → s ≠ w ++ s' := by
  induction fmt generalizing cv w with
  | nil => exact ⟨1, by simp, by simp [reading]⟩
  | cons c fmt ih =>
    by_cases hclosing : Closing c
    · obtain ⟨v, hv, hne⟩ := @convert_ne cv c w hclosing hw
      refine ⟨v, hv, ?_⟩
      intro args hargs s s' hconv htext
      rw [reading, if_pos hclosing] at hconv
      obtain ⟨r, hr, hconv⟩ := bind_eq_ok.mp hconv
      obtain ⟨rest, -, hconv⟩ := bind_eq_ok.mp hconv
      cases hconv
      obtain ⟨text, -, rfl⟩ := reading_text (ne_percent c (.inl hclosing)) htext
      exact hne args hargs r.1 r.2 rest text hr
    · by_cases hflag : IsFlag c
      · have hflags : ∀ x ∈ w ++ [c], IsFlag x := by
          simpa [or_imp, forall_and] using ⟨hw, hflag⟩
        obtain ⟨v, hv, hne⟩ := ih hflags (by simp)
        refine ⟨v, hv, ?_⟩
        intro args hargs s s' hconv htext
        rw [reading, if_neg hclosing, if_pos hflag] at hconv
        obtain ⟨text, htail, rfl⟩ := reading_text (ne_percent c (.inr hflag)) htext
        simpa using hne args hargs s text hconv htail
      · -- the conversion puts the character out, as text does
        obtain ⟨v, hv, hne⟩ := @ih {} [] (by simp) (fun _ => rfl)
        refine ⟨v, hv, ?_⟩
        intro args hargs s s' hconv htext heq
        rw [reading, if_neg hclosing, if_neg hflag] at hconv
        obtain ⟨rest, hrest, hconv⟩ := bind_eq_ok.mp hconv
        cases hconv
        cases w with
        | cons x w =>
          rw [← (List.cons.inj heq).1] at hw
          exact hflag (hw c List.mem_cons_self)
        | nil =>
          rw [hcv rfl] at hrest
          by_cases hc : c = ch '%'
          · rw [reading, if_pos hc, hrest] at htext
            cases htext
            exact absurd (congrArg List.length heq) (by simp)
          · obtain ⟨text, htail, rfl⟩ := reading_text hc htext
            exact hne args hargs rest text hrest htail (List.cons.inj heq).2

end Ends

/-! ## Reading to the end -/

/-- A format is read to its end and no further, if there are enough arguments; and a `%%` in its
text puts out one percent sign, with text behind it. -/
structure ReadsToEnd (fmt : CString) : Prop where
  ends : ∀ {σ : Type} (callback : σ → Byte → σ) (params : σ) (args : List Arg),
    formatv (fun st c => .ok (callback st c)) params fmt args ≠ .error .argument →
    ∃ r, formatv (fun st c => .ok (callback st c)) params fmt args = .ok r
  percent : ∀ before after, fmt.chars = before ++ ch '%' :: ch '%' :: after →
    scan none before = none →
    ∀ {σ : Type} (callback : σ → Byte → σ) (st : σ × ℕ) (args : List Arg),
      formatvLoop (fun st c => .ok (callback st c)) none (ch '%' :: ch '%' :: after) args st ≠
        .error .argument →
      formatvLoop (fun st c => .ok (callback st c)) none (ch '%' :: ch '%' :: after) args st =
        emit (fun st c => .ok (callback st c)) st [ch '%'] >>=
          formatvLoop (fun st c => .ok (callback st c)) none after args

end Rastapopoulos.Strings
