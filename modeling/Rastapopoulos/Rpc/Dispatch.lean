import Rastapopoulos.Rpc.Generator

/-!
# Message codes

`generate_messagecodes` (`gen_comm.c`) gives every function of an interface a macro for its code.
Stubs put the macro's value in their requests, and the `switch` of `rpc_dispatch` has a `case` for
each macro. All three files make up the name of the macro from the name of the function in upper
case, so that functions whose names differ in case only share one, and a function called `null`
redefines `MSG_NULL`. Apart from these, and from interfaces with too many functions, each request
reaches the marshaller of its function (`dispatches_iff`); and then the `switch` is the search by
position that `Rastapopoulos.Rpc.System` goes by (`dispatch_eq_caseFor`).
-/

namespace Rastapopoulos.Rpc

variable {fns : List RPCFunction} {fn : RPCFunction}

/-! ## The files -/

def strupper (s : String) : String := String.ofList (s.toList.map Char.toUpper)

/-- `MSG_` with the name of the function in upper case. -/
def codeName (fn : RPCFunction) : String := "MSG_" ++ strupper fn.name

def marshallerName (fn : RPCFunction) : String := "marshall_" ++ fn.name

/-- The definitions of the common header, in order. -/
def generateMessagecodes (fns : List RPCFunction) : List (String × Word) :=
  ("MSG_NULL", 0) :: fns.mapIdx fun idx fn => (codeName fn, messageCode idx)

/-- The `switch` of `rpc_dispatch`: the labels, and what is called there. -/
def generateDispatcher (fns : List RPCFunction) : List (String × String) :=
  fns.map fun fn => (codeName fn, marshallerName fn)

/-! ## Their meaning -/

/-- Why a file does not compile. -/
inductive CompileFault
  | undeclared
  | duplicateCase
  deriving DecidableEq, Repr

/-- The value of a defined name. A definition replaces those before it. -/
def expand (x : String) : List (String × Word) → Option Word
  | [] => none
  | (y, v) :: defs => (expand x defs).or (if y = x then some v else none)

/-- A label of a `switch`. -/
def labelValue (defs : List (String × Word)) (c : String × String) :
    Except CompileFault (Word × String) :=
  match expand c.1 defs with
  | some v => .ok (v, c.2)
  | none => .error .undeclared

/-- What the `switch` of `rpc_dispatch` selects for a code; `none` is its `default`. -/
def dispatch (fns : List RPCFunction) (code : Word) : Except CompileFault (Option String) := do
  let labels ← (generateDispatcher fns).mapM (labelValue (generateMessagecodes fns))
  check (labels.map Prod.fst).Nodup .duplicateCase
  return labels.lookup code

/-- The code that a stub puts in its request. -/
def codeOf (fns : List RPCFunction) (fn : RPCFunction) : Option Word :=
  expand (codeName fn) (generateMessagecodes fns)

/-- The codes are good: different for each function, none that of `MSG_NULL`, and each leads to the
marshaller of its function. -/
structure Dispatches (fns : List RPCFunction) : Prop where
  distinct : (fns.map (codeOf fns)).Nodup
  ne_null : ∀ fn ∈ fns, codeOf fns fn ≠ expand "MSG_NULL" (generateMessagecodes fns)
  selects : ∀ fn ∈ fns, ∃ code, codeOf fns fn = some code ∧
    dispatch fns code = .ok (some (marshallerName fn))

/-! ## Definitions of different names -/

variable {defs : List (String × Word)}

theorem expand_eq_none {x : String} (h : x ∉ defs.map Prod.fst) : expand x defs = none := by
  induction defs with
  | nil => rfl
  | cons d defs ih =>
    obtain ⟨y, v⟩ := d
    simp only [List.map_cons, List.mem_cons, not_or] at h
    rw [expand, ih h.2, if_neg (Ne.symm h.1)]
    rfl

theorem expand_of_mem {x : String} {v : Word}
    (hnodup : (defs.map Prod.fst).Nodup) (h : (x, v) ∈ defs) : expand x defs = some v := by
  induction defs with
  | nil => cases h
  | cons d defs ih =>
    obtain ⟨y, u⟩ := d
    rw [List.map_cons, List.nodup_cons] at hnodup
    rcases List.mem_cons.mp h with heq | hmem
    · cases heq
      rw [expand, expand_eq_none hnodup.1, if_pos rfl]
      rfl
    · rw [expand, ih hnodup.2 hmem]
      rfl

/-! ## Codes by position -/

section Position

variable (hnodup : (fns.map fun fn => strupper fn.name).Nodup)
  (hnull : "NULL" ∉ fns.map fun fn => strupper fn.name)

include hnodup hnull

theorem nodup_messagecodes : ((generateMessagecodes fns).map Prod.fst).Nodup := by
  have hnames : (generateMessagecodes fns).map Prod.fst =
      ("NULL" :: fns.map fun fn => strupper fn.name).map ("MSG_" ++ ·) := by
    simp only [generateMessagecodes, List.map_cons, List.mapIdx_eq_zipIdx_map, List.map_map]
    congr 1
    apply List.ext_getElem
    · simp
    · intro i h₁ h₂
      simp [codeName]
  rw [hnames]
  exact (List.nodup_cons.mpr ⟨hnull, hnodup⟩).map fun a b h => String.append_right_inj _ |>.mp h

theorem codeOf_eq {idx : ℕ} (h : fns[idx]? = some fn) :
    codeOf fns fn = some (messageCode idx) := by
  refine expand_of_mem (nodup_messagecodes hnodup hnull) (.tail _ ?_)
  obtain ⟨hlt, rfl⟩ := List.getElem?_eq_some_iff.mp h
  exact List.mem_mapIdx.mpr ⟨idx, hlt, rfl⟩

theorem expand_null : expand "MSG_NULL" (generateMessagecodes fns) = some 0 :=
  expand_of_mem (nodup_messagecodes hnodup hnull) (.head _)

/-- The codes are those of `messageCode`. -/
theorem map_codeOf :
    fns.map (codeOf fns) = (List.range fns.length).map fun idx => some (messageCode idx) := by
  apply List.ext_getElem
  · simp
  · intro idx h₁ h₂
    rw [List.getElem_map, List.getElem_map, List.getElem_range]
    rw [List.length_map] at h₁
    exact codeOf_eq hnodup hnull (List.getElem?_eq_getElem h₁)

/-- The labels of the `switch`. -/
theorem mapM_labelValue : (generateDispatcher fns).mapM (labelValue (generateMessagecodes fns)) =
    .ok (fns.mapIdx fun idx fn => (messageCode idx, marshallerName fn)) := by
  have hlabel : ∀ c ∈ generateDispatcher fns, labelValue (generateMessagecodes fns) c =
      .ok ((expand c.1 (generateMessagecodes fns)).getD 0, c.2) := by
    intro c hc
    obtain ⟨fn, hfn, rfl⟩ := List.mem_map.mp hc
    obtain ⟨idx, hidx⟩ := List.getElem?_of_mem hfn
    have hcode : expand (codeName fn) (generateMessagecodes fns) = some (messageCode idx) :=
      codeOf_eq hnodup hnull hidx
    simp only [labelValue, hcode, Option.getD_some]
  rw [mapM_eq_ok_map hlabel]
  congr 1
  apply List.ext_getElem
  · simp [generateDispatcher]
  · intro idx h₁ h₂
    rw [List.length_mapIdx] at h₂
    have hcode : expand (codeName fns[idx]) (generateMessagecodes fns) = some (messageCode idx) :=
      codeOf_eq hnodup hnull (List.getElem?_eq_getElem h₂)
    simp [generateDispatcher, hcode]

end Position

theorem messageCode_inj {i j n : ℕ} (hn : n < 2 ^ 32) (hi : i < n) (hj : j < n)
    (h : messageCode i = messageCode j) : i = j := by
  have heq := congrArg BitVec.toNat h
  simp only [messageCode, BitVec.toNat_ofNat] at heq
  rw [Nat.mod_eq_of_lt (by omega), Nat.mod_eq_of_lt (by omega)] at heq
  omega

theorem nodup_messageCode {n : ℕ} (hn : n < 2 ^ 32) : ((List.range n).map messageCode).Nodup :=
  List.nodup_range.map_on fun _ hi _ hj h =>
    messageCode_inj hn (List.mem_range.mp hi) (List.mem_range.mp hj) h

theorem lookup_mapIdx_messageCode (code : Word) (start : ℕ) (fns : List RPCFunction) :
    (fns.mapIdx fun idx fn => (messageCode (start + idx), marshallerName fn)).lookup code =
      (caseFor code start fns).map marshallerName := by
  induction fns generalizing start with
  | nil => rfl
  | cons fn fns ih =>
    rw [List.mapIdx_cons, List.lookup_cons, caseFor]
    by_cases hcode : code = messageCode start
    · subst hcode
      simp
    · have hbeq : (code == messageCode (start + 0)) = false := beq_eq_false_iff_ne.mpr hcode
      simp only [hbeq, if_neg hcode, ← ih (start + 1), Nat.add_right_comm, ← Nat.add_assoc]

/-- The `switch` is the search by position. -/
theorem dispatch_eq_caseFor (hnodup : (fns.map fun fn => strupper fn.name).Nodup)
    (hnull : "NULL" ∉ fns.map fun fn => strupper fn.name) (hlen : fns.length < 2 ^ 32)
    (code : Word) : dispatch fns code = .ok ((caseFor code 0 fns).map marshallerName) := by
  have hlabels : ((fns.mapIdx fun idx fn => (messageCode idx, marshallerName fn)).map
      Prod.fst).Nodup := by
    have hcodes : (fns.mapIdx fun idx fn => (messageCode idx, marshallerName fn)).map Prod.fst =
        (List.range fns.length).map messageCode := by
      apply List.ext_getElem <;> simp
    rw [hcodes]
    exact nodup_messageCode hlen
  rw [dispatch, mapM_labelValue hnodup hnull, ok_bind, check_of _ hlabels, ok_bind, pure_eq_ok,
    ← lookup_mapIdx_messageCode]
  simp only [Nat.zero_add]

/-! ## When requests reach their marshallers -/

/-- **Dispatch.** The codes of an interface are good if and only if the names of its functions
differ in upper case, none of them is `NULL` there, and the codes do not run out. -/
theorem dispatches_iff : Dispatches fns ↔ (fns.map fun fn => strupper fn.name).Nodup ∧
    "NULL" ∉ (fns.map fun fn => strupper fn.name) ∧ fns.length < 2 ^ 32 := by
  constructor
  · intro h
    have hnodup : (fns.map fun fn => strupper fn.name).Nodup := by
      have hcodes : fns.map (codeOf fns) = (fns.map fun fn => strupper fn.name).map
          fun x => expand ("MSG_" ++ x) (generateMessagecodes fns) := by
        rw [List.map_map]
        rfl
      exact List.Nodup.of_map _ (hcodes ▸ h.distinct)
    have hnull : "NULL" ∉ fns.map fun fn => strupper fn.name := by
      intro hmem
      obtain ⟨fn, hfn, hname⟩ := List.mem_map.mp hmem
      refine h.ne_null fn hfn ?_
      rw [codeOf, codeName, hname]
      rfl
    refine ⟨hnodup, hnull, ?_⟩
    -- the code of the function at position `2 ^ 32 - 1` is 0
    by_contra hlen
    have hlt : 2 ^ 32 - 1 < fns.length := by omega
    refine h.ne_null fns[2 ^ 32 - 1] (List.getElem_mem hlt) ?_
    rw [codeOf_eq hnodup hnull (List.getElem?_eq_getElem hlt), expand_null hnodup hnull]
    rfl
  · rintro ⟨hnodup, hnull, hlen⟩
    refine ⟨?_, ?_, ?_⟩
    · have hsome := (nodup_messageCode hlen).map (Option.some_injective _)
      rw [List.map_map] at hsome
      rw [map_codeOf hnodup hnull]
      exact hsome
    · intro fn hfn heq
      obtain ⟨idx, hidx⟩ := List.getElem?_of_mem hfn
      rw [codeOf_eq hnodup hnull hidx, expand_null hnodup hnull, Option.some_inj] at heq
      have hlt := (List.getElem?_eq_some_iff.mp hidx).1
      have hzero := congrArg BitVec.toNat heq
      rw [messageCode, BitVec.toNat_ofNat, Nat.mod_eq_of_lt (by omega)] at hzero
      exact Nat.succ_ne_zero _ hzero
    · intro fn hfn
      obtain ⟨idx, hidx⟩ := List.getElem?_of_mem hfn
      refine ⟨messageCode idx, codeOf_eq hnodup hnull hidx, ?_⟩
      have hcase : caseFor (messageCode (0 + idx)) 0 fns = some fn :=
        caseFor_messageCode hidx (by omega)
      rw [Nat.zero_add] at hcase
      rw [dispatch_eq_caseFor hnodup hnull hlen, hcase]
      rfl

/-- `void foo(); void Foo();`: one macro for both functions, and a `switch` that does not
compile. -/
theorem not_dispatches : ¬ ∀ fns : List RPCFunction, (fns.map RPCFunction.name).Nodup →
    (∀ fn ∈ fns, (∃ stub, generateClientMarshaller fn = .ok stub) ∧
      ∃ marshaller, generateMarshaller fn = .ok marshaller) → Dispatches fns := by
  intro h
  have hd := h [⟨"foo", ⟨.void, .null⟩, []⟩, ⟨"Foo", ⟨.void, .null⟩, []⟩] (by decide) ?_
  · exact absurd hd.distinct (by decide)
  · intro fn hfn
    simp only [List.mem_cons, List.not_mem_nil, or_false] at hfn
    rcases hfn with rfl | rfl
    · exact ⟨⟨_, rfl⟩, ⟨_, rfl⟩⟩
    · exact ⟨⟨_, rfl⟩, ⟨_, rfl⟩⟩

end Rastapopoulos.Rpc
