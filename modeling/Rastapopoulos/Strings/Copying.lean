import Mathlib.Data.List.Lex
import Mathlib.Logic.Function.Basic
import Rastapopoulos.Strings.Numerals

/-!
# Copying and comparing

The functions of `common/string.c` that copy, append and compare. `memcpy` works on a memory of
bytes with 32-bit addresses, where the ranges may overlap (`memcpy_eq`); the functions on strings
work on arrays that fault when they are accessed outside.

`strlcat` writes behind the array if the array has no NUL in it (`copies_iff`), and both comparisons
have the wrong sign (`orders_iff`).
-/

namespace Rastapopoulos.Strings

/-! ## `memcpy` -/

/-- `while(n-- > 0) *d++ = *s++;` -/
def copyUp : ℕ → (ℕ → Byte) → ℕ → ℕ → ℕ → Byte
  | 0, mem, _, _ => mem
  | n + 1, mem, d, s => copyUp n (Function.update mem d (mem s)) (addW d 1) (addW s 1)

/-- `while(n-- > 0) *--d = *--s;` where `d` is `dest + n` and `s` is `source + n` throughout. -/
def copyDown : ℕ → (ℕ → Byte) → ℕ → ℕ → ℕ → Byte
  | 0, mem, _, _ => mem
  | n + 1, mem, dest, source =>
    copyDown n (Function.update mem (addW dest n) (mem (addW source n))) dest source

def memcpy (mem : ℕ → Byte) (dest source size : ℕ) : ℕ → Byte :=
  if source < dest ∧ dest < addW source size then copyDown size mem dest source
  else copyUp size mem dest source

/-- The memory with the bytes from `s` on at `d`, as they were. -/
def copied (mem : ℕ → Byte) (d s n : ℕ) : ℕ → Byte :=
  fun a => if d ≤ a ∧ a < d + n then mem (s + (a - d)) else mem a

section Copy

variable {mem : ℕ → Byte} {d s n : ℕ}

/-- Upwards, a byte of the source is overwritten only when it has been read. -/
theorem copyUp_eq (hd : d + n ≤ wordMod) (hs : s + n ≤ wordMod) (h : ¬ (s < d ∧ d < s + n)) :
    copyUp n mem d s = copied mem d s n := by
  induction n generalizing mem d s with
  | zero =>
    funext a
    rw [copyUp, copied, if_neg (by omega)]
  | succ n ih =>
    rw [copyUp]
    cases n with
    | zero =>
      funext a
      rw [copyUp, copied, Function.update_apply]
      by_cases ha : a = d
      · rw [if_pos ha, if_pos (by omega), ha, Nat.sub_self, Nat.add_zero]
      · rw [if_neg ha, if_neg (by omega)]
    | succ n =>
      have hd' : addW d 1 = d + 1 := addW_of_lt (by omega)
      have hs' : addW s 1 = s + 1 := addW_of_lt (by omega)
      rw [hd', hs', ih (by omega) (by omega) (by omega)]
      funext a
      simp only [copied, Function.update_apply]
      by_cases ha : d + 1 ≤ a ∧ a < d + 1 + (n + 1)
      · -- the byte that is read next is not the one that was written
        have hne : s + 1 + (a - (d + 1)) ≠ d := by omega
        rw [if_pos ha, if_neg hne, if_pos (by omega)]
        congr 1
        omega
      · rw [if_neg ha]
        by_cases had : a = d
        · rw [if_pos had, if_pos (by omega), had, Nat.sub_self, Nat.add_zero]
        · rw [if_neg had, if_neg (by omega)]

theorem copyDown_eq (hd : d + n ≤ wordMod) (h : s ≤ d) :
    copyDown n mem d s = copied mem d s n := by
  induction n generalizing mem with
  | zero =>
    funext a
    rw [copyDown, copied, if_neg (by omega)]
  | succ n ih =>
    have hdn : addW d n = d + n := addW_of_lt (by omega)
    have hsn : addW s n = s + n := addW_of_lt (by omega)
    rw [copyDown, hdn, hsn, ih (by omega)]
    funext a
    simp only [copied, Function.update_apply]
    by_cases ha : d ≤ a ∧ a < d + n
    · have hne : s + (a - d) ≠ d + n := by omega
      rw [if_pos ha, if_neg hne, if_pos (by omega)]
    · rw [if_neg ha]
      by_cases had : a = d + n
      · rw [if_pos had, if_pos (by omega), had, Nat.add_sub_cancel_left]
      · rw [if_neg had, if_neg (by omega)]

/-- **The copy** is of the bytes as they were, however the ranges overlap. -/
theorem memcpy_eq (mem : ℕ → Byte) (dest source size : ℕ) (hdest : dest + size ≤ wordMod)
    (hsource : source + size ≤ wordMod) :
    (∀ i < size, memcpy mem dest source size (dest + i) = mem (source + i)) ∧
      ∀ a, a < dest ∨ dest + size ≤ a → memcpy mem dest source size a = mem a := by
  have hcopied : memcpy mem dest source size = copied mem dest source size := by
    rw [memcpy]
    split
    · rename_i h
      exact copyDown_eq hdest h.1.le
    · rename_i h
      refine copyUp_eq hdest hsource fun hc => h ⟨hc.1, ?_⟩
      -- the end of the source comes before that of the destination
      rw [addW_of_lt (by omega)]
      exact hc.2
  rw [hcopied]
  constructor
  · intro i hi
    rw [copied, if_pos (by omega), Nat.add_sub_cancel_left]
  · intro a ha
    rw [copied, if_neg (by omega)]

theorem memcpy_eq_overlap :
    memcpy (BitVec.ofNat 8) 0xFFFFFFFD 0xFFFFFFFC 3 0xFFFFFFFF = 0xFE :=
  (memcpy_eq (BitVec.ofNat 8) 0xFFFFFFFD 0xFFFFFFFC 3 (by decide) (by decide)).1 2 (by decide)

end Copy

/-! ## `strlcpy` and `strlcat` -/

/-- `while(*dst && siz)`: where it ends, and what is left of `siz`. -/
def skipString (array : List Byte) : ℕ → ℕ → Except Fault (ℕ × ℕ)
  | 0, dst => do
    let _ ← load array dst
    return (dst, 0)
  | siz + 1, dst => do
    let c ← load array dst
    if c = 0 then return (dst, siz + 1) else skipString array siz (dst + 1)

/-- `strlcat(array + dst, src, siz)`. What follows the first loop is `strlcpy`, with the two tests
of its loop in the other order. -/
def strlcat (array : List Byte) (dst : ℕ) (src : List Byte) (siz : ℕ) :
    Except Fault (List Byte) := do
  let r ← skipString array siz dst
  strlcpy array r.1 src r.2

/-- What the two functions are to do with a buffer of `siz` bytes: copy what has room in front of a
NUL, or append it to the string that is there; and leave what is behind the buffer, and all of the
buffer if there is no string in it. -/
structure Copies (src : CString) (buffer : List Byte) : Prop where
  copy : ∀ rest, ∃ unused, strlcpy (buffer ++ rest) 0 src.chars buffer.length =
      .ok (src.chars.take (buffer.length - 1) ++ 0 :: unused ++ rest) ∧
    (src.chars.take (buffer.length - 1) ++ 0 :: unused).length = buffer.length
  append : ∀ string tail, 0 ∉ string → buffer = string ++ 0 :: tail → ∀ rest, ∃ unused,
    strlcat (buffer ++ rest) 0 src.chars buffer.length =
      .ok (string ++ src.chars.take (buffer.length - 1 - string.length) ++ 0 :: unused ++ rest) ∧
    (string ++ src.chars.take (buffer.length - 1 - string.length) ++ 0 :: unused).length =
      buffer.length
  full : 0 ∉ buffer → ∀ rest, strlcat (buffer ++ rest) 0 src.chars buffer.length =
    .ok (buffer ++ rest)

section Strings

variable {string src : List Byte} {siz : ℕ}

/-- The loop passes over characters other than NUL. -/
theorem skipString_append (before rest : List Byte) (hstring : 0 ∉ string)
    (hsiz : string.length ≤ siz) :
    skipString (before ++ (string ++ rest)) siz before.length =
      skipString (before ++ (string ++ rest)) (siz - string.length)
        (before.length + string.length) := by
  induction string generalizing before siz with
  | nil => rfl
  | cons c string ih =>
    rw [List.mem_cons, not_or] at hstring
    rw [List.length_cons] at hsiz
    obtain ⟨siz, rfl⟩ : ∃ k, siz = k + 1 := ⟨siz - 1, by omega⟩
    have hnext := ih (before ++ [c]) hstring.2 (Nat.le_of_succ_le_succ hsiz)
    rw [List.length_append, List.length_singleton, List.append_assoc] at hnext
    rw [skipString, List.cons_append, load_append rfl, ok_bind, if_neg (Ne.symm hstring.1)]
    refine hnext.trans ?_
    rw [List.length_cons, Nat.add_sub_add_right, Nat.add_assoc, Nat.add_comm 1]
    rfl

/-- **`strlcat` without a string in the buffer** puts a NUL behind it. -/
theorem strlcat_full {buffer rest : List Byte} {c : Byte} (hbuffer : 0 ∉ buffer) :
    strlcat (buffer ++ c :: rest) 0 src buffer.length = .ok (buffer ++ 0 :: rest) := by
  have hskip := skipString_append [] (c :: rest) hbuffer le_rfl
  have hroom : (src.take (0 - 1)).length < (c :: rest).length := Nat.succ_pos _
  rw [List.nil_append, List.length_nil, Nat.zero_add, Nat.sub_self, skipString,
    load_append rfl, ok_bind, pure_eq_ok] at hskip
  rw [strlcat, hskip, ok_bind, strlcpy_append buffer hroom]
  rfl

/-- `strlcpy` to a buffer leaves what is behind it. -/
theorem strlcpy_buffer (before rest : List Byte) {buffer : List Byte}
    (h : (src.take (siz - 1)).length < buffer.length) :
    strlcpy (before ++ (buffer ++ rest)) before.length src siz = .ok (before ++
      (src.take (siz - 1) ++ 0 :: buffer.drop ((src.take (siz - 1)).length + 1) ++ rest)) := by
  have hroom : (src.take (siz - 1)).length < (buffer ++ rest).length := by
    rw [List.length_append]
    omega
  rw [strlcpy_append before hroom, List.drop_append_of_le_length h, List.append_assoc,
    List.cons_append]

/-- **`strlcat` to a string** appends what has room. -/
theorem strlcat_string {tail : List Byte} (rest : List Byte) (hstring : 0 ∉ string) :
    strlcat (string ++ 0 :: tail ++ rest) 0 src (string.length + 1 + tail.length) =
      .ok (string ++ (src.take tail.length ++ 0 ::
        (0 :: tail).drop ((src.take tail.length).length + 1) ++ rest)) := by
  have hskip := skipString_append [] (0 :: (tail ++ rest)) hstring
    (by omega : string.length ≤ string.length + 1 + tail.length)
  have hsize : string.length + 1 + tail.length - string.length = tail.length + 1 := by omega
  have hroom : (src.take (tail.length + 1 - 1)).length < (0 :: tail).length := by
    rw [List.length_take, List.length_cons]
    omega
  rw [List.nil_append, List.length_nil, Nat.zero_add, hsize, skipString, load_append rfl, ok_bind,
    if_pos rfl, pure_eq_ok] at hskip
  rw [strlcat, List.append_assoc, List.cons_append, hskip]
  exact strlcpy_buffer string rest hroom

end Strings

/-- **The functions keep to the buffer** exactly if there is a NUL in it. -/
theorem copies_iff (src : CString) {buffer : List Byte} (hpos : 0 < buffer.length) :
    Copies src buffer ↔ 0 ∈ buffer := by
  constructor
  · intro h
    by_contra hfull
    -- the byte behind the buffer becomes zero
    have hkept := h.full hfull [1]
    rw [strlcat_full hfull, Except.ok.injEq, List.append_cancel_left_eq] at hkept
    cases hkept
  · intro hmem
    have htake : (src.chars.take (buffer.length - 1)).length < buffer.length := by
      rw [List.length_take]
      omega
    refine ⟨fun rest => ?_, fun string tail hstring heq rest => ?_, fun hfull => absurd hmem hfull⟩
    · refine ⟨_, strlcpy_buffer [] rest htake, ?_⟩
      rw [List.length_append, List.length_cons, List.length_drop]
      omega
    · have hlen : buffer.length = string.length + 1 + tail.length := by
        rw [heq, List.length_append, List.length_cons]
        omega
      have hsize : buffer.length - 1 - string.length = tail.length := by omega
      have hle : (src.chars.take tail.length).length ≤ tail.length := List.length_take_le ..
      rw [hsize, hlen, heq, strlcat_string rest hstring]
      refine ⟨_, by rw [List.append_assoc, List.append_assoc, List.append_assoc], ?_⟩
      simp only [List.length_append, List.length_cons, List.length_drop]
      omega

/-- The string `a` in a buffer of four bytes. -/
theorem copies_letter : Copies ⟨[0x62, 0x63, 0x64], by decide⟩ [0x61, 0, 1, 1] :=
  (copies_iff _ (by decide)).mpr (by decide)

/-- A buffer of one byte, which is not a NUL. -/
theorem not_copies_full : ¬ ∀ (src : CString) (buffer : List Byte), 0 < buffer.length →
    Copies src buffer := by
  intro hall
  have hkept := (hall ⟨[], by decide⟩ [0x61] (by decide)).full (by decide) [1]
  exact absurd hkept (by decide)

/-! ## `memcmp` and `strcmp` -/

/-- The loop of `memcmp`; the bytes are unsigned. -/
def memcmpLoop : ℕ → List Byte → List Byte → Except Fault ℤ
  | 0, _, _ => .ok 0
  | size + 1, c0 :: p0, c1 :: p1 =>
    if c0 ≠ c1 then .ok (c1.toNat - c0.toNat) else memcmpLoop size p0 p1
  | _ + 1, _, _ => .error .overrun

def memcmp (p0 p1 : List Byte) (size : ℕ) : Except Fault ℤ :=
  if size = 0 then .ok 0 else memcmpLoop size p0 p1

/-- The sign of the result is that of the comparison of the values in lexicographic order. -/
def Orders {α : Type} [LinearOrder α] (r : Except Fault ℤ) (x y : List α) : Prop :=
  ∃ d, r = .ok d ∧ (d < 0 ↔ x < y) ∧ (d = 0 ↔ x = y) ∧ (0 < d ↔ y < x)

/-- The one string is the other with more characters behind it, of which the first is negative. -/
def NegativeTail (a b : CString) : Prop := ∃ c tail, b.chars = a.chars ++ c :: tail ∧ c.toInt < 0

section Compare

variable {a b s t x y : List Byte} {c e : Byte}

/-- Two lists are equal, or one goes on where the other ends, or they differ at some place. -/
theorem first_difference (a b : List Byte) : a = b ∨ (∃ c t, b = a ++ c :: t) ∨
    (∃ c t, a = b ++ c :: t) ∨ ∃ s c t e t', c ≠ e ∧ a = s ++ c :: t ∧ b = s ++ e :: t' := by
  induction a generalizing b with
  | nil =>
    cases b with
    | nil => exact .inl rfl
    | cons e b => exact .inr (.inl ⟨e, b, rfl⟩)
  | cons c a ih =>
    cases b with
    | nil => exact .inr (.inr (.inl ⟨c, a, rfl⟩))
    | cons e b =>
      by_cases hne : c = e
      · obtain rfl := hne
        rcases ih b with rfl | ⟨e, t, rfl⟩ | ⟨e, t, rfl⟩ | ⟨s, c', t, e, t', hne, rfl, rfl⟩
        · exact .inl rfl
        · exact .inr (.inl ⟨e, t, rfl⟩)
        · exact .inr (.inr (.inl ⟨e, t, rfl⟩))
        · exact .inr (.inr (.inr ⟨c :: s, c', t, e, t', hne, rfl, rfl⟩))
      · exact .inr (.inr (.inr ⟨[], c, a, e, b, hne, rfl, rfl⟩))

/-- `strcmp` passes over what the strings have in common. -/
theorem strcmp_append (hs : 0 ∉ s) : strcmp (s ++ x) (s ++ y) = strcmp x y := by
  induction s with
  | nil => rfl
  | cons c s ih =>
    rw [List.mem_cons, not_or] at hs
    have hne : ¬ (c = 0 ∨ c = 0) := fun h => hs.1 (h.elim Eq.symm Eq.symm)
    rw [List.cons_append, List.cons_append, strcmp, if_neg hne, if_neg (not_not.mpr rfl), ih hs.2]

theorem strcmp_difference (hne : c ≠ e) :
    strcmp (c :: x) (e :: y) = .ok (e.toInt - c.toInt) := by
  rw [strcmp, if_pos hne, ite_self]

theorem memcmpLoop_append (size : ℕ) :
    memcmpLoop (s.length + size) (s ++ x) (s ++ y) = memcmpLoop size x y := by
  induction s with
  | nil => rw [List.length_nil, Nat.zero_add, List.nil_append, List.nil_append]
  | cons c s ih =>
    rw [List.length_cons, Nat.add_right_comm, List.cons_append, List.cons_append, memcmpLoop,
      if_neg (not_not.mpr rfl), ih]

section Order

variable {α : Type} [LinearOrder α] {u v w : List α} {i j : α}

theorem lt_append_cons (w : List α) (i : α) (u : List α) : w < w ++ i :: u := by
  have h : w ++ [] < w ++ i :: u := List.append_left_lt (List.nil_lt_cons i u)
  rwa [List.append_nil] at h

theorem orders_ok {d : ℤ} :
    Orders (.ok d) u v ↔ (d < 0 ↔ u < v) ∧ (d = 0 ↔ u = v) ∧ (0 < d ↔ v < u) := by
  simp [Orders]

/-- Where the values are in order, the result has to be negative. -/
theorem orders_of_lt {d : ℤ} (h : u < v) : Orders (.ok d) u v ↔ d < 0 := by
  simp only [orders_ok, h, h.ne, h.not_gt, iff_true, iff_false]
  omega

theorem orders_of_gt {d : ℤ} (h : v < u) : Orders (.ok d) u v ↔ 0 < d := by
  simp only [orders_ok, h, h.ne', h.not_gt, iff_true, iff_false]
  omega

theorem orders_self (u : List α) : Orders (.ok 0) u u := by
  simp [orders_ok]

/-- A result with the sign turned round is wrong where the values differ. -/
theorem not_orders_of_ne {d : ℤ} (hne : i ≠ j) (hd : (0 < d ↔ i < j) ∧ (d < 0 ↔ j < i)) :
    ¬ Orders (.ok d) (w ++ i :: u) (w ++ j :: v) := by
  rcases lt_or_gt_of_ne hne with hlt | hlt
  · have hlist : w ++ i :: u < w ++ j :: v := List.append_left_lt (List.Lex.rel hlt)
    rw [orders_of_lt hlist]
    exact (hd.1.mpr hlt).not_gt
  · have hlist : w ++ j :: v < w ++ i :: u := List.append_left_lt (List.Lex.rel hlt)
    rw [orders_of_gt hlist]
    exact (hd.2.mpr hlt).not_gt

end Order

/-- Where one string goes on behind the other, the sign of the next character decides. -/
theorem tails_iff (x : List Byte) (c : Byte) (t : List Byte) :
    (x = x ++ c :: t ∨ (∃ c' tail, x ++ c :: t = x ++ c' :: tail ∧ c'.toInt < 0) ∨
      ∃ c' tail, x = x ++ c :: t ++ c' :: tail ∧ c'.toInt < 0) ↔ c.toInt < 0 := by
  constructor
  · rintro (h | ⟨c', tail, h, hneg⟩ | ⟨c', tail, h, -⟩)
    · exact absurd (congrArg List.length h) (by simp)
    · rw [List.append_cancel_left_eq, List.cons.injEq] at h
      rwa [h.1]
    · exact absurd (congrArg List.length h) (by simp [Nat.add_assoc])
  · intro hneg
    exact .inr (.inl ⟨c, t, rfl, hneg⟩)

theorem not_tails (hne : c ≠ e) :
    ¬ (s ++ c :: x = s ++ e :: y ∨ (∃ c' tail, s ++ e :: y = s ++ c :: x ++ c' :: tail ∧
      c'.toInt < 0) ∨ ∃ c' tail, s ++ c :: x = s ++ e :: y ++ c' :: tail ∧ c'.toInt < 0) := by
  rintro (h | ⟨c', tail, h, -⟩ | ⟨c', tail, h, -⟩)
  · rw [List.append_cancel_left_eq, List.cons.injEq] at h
    exact hne h.1
  · rw [List.append_assoc, List.append_cancel_left_eq, List.cons_append, List.cons.injEq] at h
    exact hne h.1.symm
  · rw [List.append_assoc, List.append_cancel_left_eq, List.cons_append, List.cons.injEq] at h
    exact hne h.1

/-- **`strcmp` orders** only strings that are equal, and those of which one goes on with a negative
character. -/
theorem strcmp_orders_iff (a b : CString) :
    Orders (strcmp (a.chars ++ [0]) (b.chars ++ [0])) (a.chars.map BitVec.toInt)
        (b.chars.map BitVec.toInt) ↔
      a.chars = b.chars ∨ NegativeTail a b ∨ NegativeTail b a := by
  have ha := a.nonzero
  have hb := b.nonzero
  unfold NegativeTail
  generalize a.chars = x at ha ⊢
  generalize b.chars = y at hb ⊢
  rcases first_difference x y with rfl | ⟨c, t, rfl⟩ | ⟨c, t, rfl⟩ | ⟨s, c, t, e, t', hne, rfl, rfl⟩
  · refine iff_of_true ?_ (.inl rfl)
    have hrun : strcmp (x ++ [0]) (x ++ [0]) = .ok 0 := strcmp_append ha
    rw [hrun]
    exact orders_self _
  · have hrun : strcmp (x ++ [0]) (x ++ c :: t ++ [0]) = .ok (c.toInt - 0) := by
      rw [List.append_assoc, strcmp_append ha]
      rfl
    rw [tails_iff, hrun, List.map_append, List.map_cons, orders_of_lt (lt_append_cons ..), sub_zero]
  · have hc : c ≠ 0 := fun h => ha (h ▸ List.mem_append_right _ List.mem_cons_self)
    have hrun : strcmp (y ++ c :: t ++ [0]) (y ++ [0]) = .ok (0 - c.toInt) := by
      rw [List.append_assoc, strcmp_append hb, List.cons_append, strcmp_difference hc]
      rfl
    rw [eq_comm (a := y ++ c :: t), or_comm (a := ∃ _, _), tails_iff, hrun, List.map_append,
      List.map_cons, orders_of_gt (lt_append_cons ..), zero_sub, neg_pos]
  · have hs : 0 ∉ s := fun h => ha (List.mem_append_left _ h)
    have hrun : strcmp (s ++ c :: t ++ [0]) (s ++ e :: t' ++ [0]) = .ok (e.toInt - c.toInt) := by
      rw [List.append_assoc, List.append_assoc, strcmp_append hs]
      exact strcmp_difference hne
    have hint : c.toInt ≠ e.toInt := fun h => hne (BitVec.eq_of_toInt_eq h)
    refine iff_of_false ?_ (not_tails hne)
    rw [hrun, List.map_append, List.map_append]
    exact not_orders_of_ne hint ⟨sub_pos, sub_neg⟩

/-- **`memcmp` orders** only ranges that are equal. -/
theorem memcmp_orders_iff {p q : List Byte} (hlen : p.length = q.length) :
    Orders (memcmp p q p.length) (p.map BitVec.toNat) (q.map BitVec.toNat) ↔ p = q := by
  have hmemcmp : memcmp p q p.length = memcmpLoop p.length p q := by
    rw [memcmp]
    split
    · rename_i hzero
      rw [hzero, memcmpLoop]
    · rfl
  rw [hmemcmp]
  rcases first_difference p q with rfl | ⟨c, t, rfl⟩ | ⟨c, t, rfl⟩ | ⟨s, c, t, e, t', hne, rfl, rfl⟩
  · have hrun := memcmpLoop_append (s := p) (x := []) (y := []) 0
    rw [List.append_nil, Nat.add_zero] at hrun
    refine iff_of_true ?_ rfl
    rw [hrun]
    exact orders_self _
  · exact absurd hlen (by simp)
  · exact absurd hlen (by simp)
  · have hrun : memcmpLoop (s ++ c :: t).length (s ++ c :: t) (s ++ e :: t') =
        .ok (e.toNat - c.toNat) := by
      rw [List.length_append, memcmpLoop_append, List.length_cons, memcmpLoop, if_pos hne]
    have hnat : c.toNat ≠ e.toNat := fun h => hne (BitVec.eq_of_toNat_eq h)
    refine iff_of_false ?_ fun h => hne ?_
    · rw [hrun, List.map_append, List.map_append]
      exact not_orders_of_ne hnat ⟨by omega, by omega⟩
    · rw [List.append_cancel_left_eq, List.cons.injEq] at h
      exact h.1

end Compare

/-- **The comparisons order what they compare** only where there is nothing to order, or where the
sign is turned round once more by a negative character. -/
theorem orders_iff (a b : CString) (p q : List Byte) (hlen : p.length = q.length) :
    (Orders (strcmp (a.chars ++ [0]) (b.chars ++ [0])) (a.chars.map BitVec.toInt)
          (b.chars.map BitVec.toInt) ∧
        Orders (memcmp p q p.length) (p.map BitVec.toNat) (q.map BitVec.toNat)) ↔
      (a.chars = b.chars ∨ NegativeTail a b ∨ NegativeTail b a) ∧ p = q := by
  rw [strcmp_orders_iff, memcmp_orders_iff hlen]

/-- A string, the same with a character of negative value behind it, and a range with itself. -/
theorem orders_negative :
    Orders (strcmp [0x61, 0] [0x61, 0xE9, 0]) [0x61] [0x61, -23] ∧
      Orders (memcmp [1, 2] [1, 2] 2) [1, 2] [1, 2] :=
  (orders_iff ⟨[0x61], by decide⟩ ⟨[0x61, 0xE9], by decide⟩ [1, 2] [1, 2] rfl).mpr
    ⟨.inr (.inl ⟨0xE9, [], rfl, by decide⟩), rfl⟩

/-- `strcmp("a", "b")` is positive. -/
theorem not_orders_letters : ¬ ∀ a b : CString,
    Orders (strcmp (a.chars ++ [0]) (b.chars ++ [0])) (a.chars.map BitVec.toInt)
      (b.chars.map BitVec.toInt) := by
  intro hall
  obtain ⟨d, hrun, hneg, -⟩ := hall ⟨[0x61], by decide⟩ ⟨[0x62], by decide⟩
  have hone : (1 : ℤ) = d := Except.ok.inj hrun
  have hlt : ([0x61] : List Byte).map BitVec.toInt < ([0x62] : List Byte).map BitVec.toInt := by
    decide
  have := hneg.mpr hlt
  omega

end Rastapopoulos.Strings
