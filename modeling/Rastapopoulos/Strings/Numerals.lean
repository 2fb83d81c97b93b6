import Mathlib.Data.List.Induction
import Mathlib.Data.Nat.Digits.Lemmas
import Rastapopoulos.Strings.Basic

/-!
# Numerals

`format_int` writes the digits of a number from the last to the first and then turns them round.
If there is room for the numeral and a NUL, that is what it leaves in the array (`formatInt_eq`).
-/

namespace Rastapopoulos.Strings

variable {before rest s xs : List Byte} {c c' : Byte} {base n size i fuel ret : ℕ}

/-! ## Arrays -/

/-- A store to the character behind `before`. -/
theorem store_append (hi : i = before.length) :
    store (before ++ c :: rest) i c' = .ok (before ++ c' :: rest) := by
  have hlt : i < (before ++ c :: rest).length := by
    rw [List.length_append, List.length_cons]
    omega
  rw [store, check_of _ hlt, ok_bind, pure_eq_ok, List.set_append_right _ _ hi.ge, hi,
    Nat.sub_self, List.set_cons_zero]

theorem load_append (hi : i = before.length) : load (before ++ c :: rest) i = .ok c := by
  rw [load, List.getElem?_append_right hi.ge, hi, Nat.sub_self, List.getElem?_cons_zero]

/-- `strlcpy` to the place behind `before`: what has room in front of a NUL is copied. -/
theorem strlcpy_append (before : List Byte) (h : (s.take (size - 1)).length < rest.length) :
    strlcpy (before ++ rest) before.length s size =
      .ok (before ++ (s.take (size - 1) ++ 0 :: rest.drop ((s.take (size - 1)).length + 1))) := by
  induction s generalizing before rest size with
  | nil =>
    obtain ⟨c, rest, rfl⟩ := List.exists_cons_of_length_pos (Nat.zero_lt_of_lt h)
    rw [strlcpy, store_append rfl, List.take_nil]
    rfl
  | cons c s ih =>
    obtain ⟨c', rest, rfl⟩ := List.exists_cons_of_length_pos (Nat.zero_lt_of_lt h)
    rw [strlcpy, store_append rfl, store_append rfl]
    by_cases hsize : 1 < size
    · have htake : (c :: s).take (size - 1) = c :: s.take (size - 1 - 1) := by
        rw [← List.take_succ_cons, Nat.sub_add_cancel (Nat.le_sub_of_add_le hsize)]
      rw [htake] at h ⊢
      have hnext := ih (before ++ [c]) (Nat.lt_of_succ_lt_succ h)
      rw [List.length_append, List.length_singleton, List.append_assoc, List.append_assoc] at hnext
      rw [if_pos hsize, ok_bind]
      exact hnext
    · rw [if_neg hsize, Nat.sub_eq_zero_of_le (Nat.le_of_not_lt hsize), List.take_zero]
      rfl

/-- The string in front of a NUL. -/
theorem chars_append (hs : 0 ∉ s) : chars (s ++ 0 :: rest) = .ok s := by
  induction s with
  | nil => rfl
  | cons c s ih =>
    rw [List.mem_cons, not_or] at hs
    rw [List.cons_append, chars, if_neg (Ne.symm hs.1), ih hs.2]
    rfl

theorem strcmp_of_ne {c e : Byte} (h : c ≠ e) (s t : List Byte) :
    ∃ d, strcmp (c :: s) (e :: t) = .ok d ∧ d ≠ 0 := by
  refine ⟨e.toInt - c.toInt, ?_, fun h0 => h (BitVec.toInt_inj.mp (sub_eq_zero.mp h0)).symm⟩
  rw [strcmp, if_pos h, ite_self]

/-- `strcmp` compares the strings in front of the NULs. -/
theorem strcmp_strings {s t x y : List Byte} (hs : 0 ∉ s) (ht : 0 ∉ t) :
    ∃ d, strcmp (s ++ 0 :: x) (t ++ 0 :: y) = .ok d ∧ (d = 0 ↔ s = t) := by
  induction s generalizing t with
  | nil =>
    cases t with
    | nil => exact ⟨0, rfl, by simp⟩
    | cons e t =>
      rw [List.mem_cons, not_or] at ht
      obtain ⟨d, hd, hne⟩ := strcmp_of_ne ht.1 x (t ++ 0 :: y)
      exact ⟨d, hd, by simp [hne]⟩
  | cons c s ih =>
    rw [List.mem_cons, not_or] at hs
    cases t with
    | nil =>
      obtain ⟨d, hd, hne⟩ := strcmp_of_ne (Ne.symm hs.1) (s ++ 0 :: x) y
      exact ⟨d, hd, by simp [hne]⟩
    | cons e t =>
      rw [List.mem_cons, not_or] at ht
      by_cases hce : c = e
      · subst hce
        obtain ⟨d, hd, hiff⟩ := ih hs.2 ht.2
        refine ⟨d, ?_, by rw [hiff]; simp⟩
        rw [List.cons_append, List.cons_append, strcmp, if_neg (by simpa using Ne.symm hs.1),
          if_neg (by simp), hd]
      · obtain ⟨d, hd, hne⟩ := strcmp_of_ne hce (s ++ 0 :: x) (t ++ 0 :: y)
        exact ⟨d, hd, by simp [hne, hce]⟩

theorem strlen_append (hs : 0 ∉ s) :
    strlen (before ++ (s ++ 0 :: rest)) before.length = .ok s.length := by
  rw [strlen, List.drop_left, chars_append hs]
  rfl

/-- Turning round the characters `xs` between the two indices. -/
theorem strreverseLoop_eq {buffer start stop : ℕ} {after : List Byte}
    (hstart : before.length = buffer + start) (hstop : start + xs.length = stop + 1)
    (hfuel : xs.length ≤ fuel) :
    strreverseLoop buffer fuel (before ++ (xs ++ after)) start stop =
      .ok (before ++ (xs.reverse ++ after)) := by
  induction xs using List.bidirectionalRec generalizing before after start stop fuel with
  | nil =>
    have hle : ¬ start < stop := by simp at hstop; omega
    cases fuel with
    | zero => rfl
    | succ fuel => rw [strreverseLoop, if_neg hle, List.reverse_nil]
  | singleton a =>
    have hle : ¬ start < stop := by simp at hstop; omega
    cases fuel with
    | zero => rfl
    | succ fuel => rw [strreverseLoop, if_neg hle, List.reverse_singleton]
  | cons_append a l b ih =>
    simp only [List.length_cons, List.length_append, List.length_nil] at hstop hfuel
    obtain ⟨fuel, rfl⟩ := Nat.exists_eq_add_of_lt (show 0 < fuel by omega)
    have hlast : buffer + stop = (before ++ a :: l).length := by
      rw [List.length_append, List.length_cons]
      omega
    have hlast' : buffer + stop = (before ++ b :: l).length := by
      rw [hlast, List.length_append, List.length_append, List.length_cons, List.length_cons]
    have hload : load (before ++ (a :: (l ++ [b]) ++ after)) (buffer + stop) = .ok b := by
      rw [show before ++ (a :: (l ++ [b]) ++ after) = before ++ a :: l ++ b :: after by simp]
      exact load_append hlast
    have hstore : store (before ++ b :: (l ++ [b] ++ after)) (buffer + stop) a =
        .ok (before ++ [b] ++ (l ++ a :: after)) := by
      rw [show before ++ b :: (l ++ [b] ++ after) = before ++ b :: l ++ b :: after by simp,
        store_append hlast']
      simp
    rw [Nat.zero_add, strreverseLoop, if_pos (by omega), hload, List.cons_append,
      load_append hstart.symm, ok_bind, ok_bind, store_append hstart.symm, ok_bind, hstore, ok_bind,
      ih (by rw [List.length_append, List.length_singleton]; omega) (by omega) (by omega)]
    simp

theorem strreverse_eq (hs : 0 ∉ s) (hne : s ≠ []) :
    strreverse (before ++ (s ++ 0 :: rest)) before.length =
      .ok (before ++ (s.reverse ++ 0 :: rest)) := by
  have hpos := List.length_pos_iff.mpr hne
  rw [strreverse, strlen_append hs, ok_bind]
  exact strreverseLoop_eq rfl (by omega) le_rfl

/-! ## The digits of a number -/

/-- The digits of a number, the last one first; zero has one. -/
def lowDigits (base n : ℕ) : List Byte := (n % base :: Nat.digits base (n / base)).map digit

/-- The numeral of a number. -/
def numeral (base n : ℕ) : List Byte := (lowDigits base n).reverse

theorem digit_ne_zero : ∀ d < 16, digit d ≠ 0 := by decide

theorem zero_notMem_lowDigits (hbase : 1 < base) (hle : base ≤ 16) : 0 ∉ lowDigits base n := by
  intro hmem
  obtain ⟨d, hd, heq⟩ := List.mem_map.mp hmem
  refine digit_ne_zero d ?_ heq
  rcases List.mem_cons.mp hd with rfl | hd
  · exact (Nat.mod_lt _ (by omega)).trans_le hle
  · exact (Nat.digits_lt_base hbase hd).trans_le hle

/-- Numbers below `base ^ k` have at most `k` digits. -/
theorem length_lowDigits_le {k : ℕ} (hbase : 1 < base) (hn : n < base ^ (k + 1)) :
    (lowDigits base n).length ≤ k + 1 := by
  have hdiv : n / base < base ^ k := by
    rw [Nat.div_lt_iff_lt_mul (by omega), ← pow_succ]
    exact hn
  rw [lowDigits, List.length_map, List.length_cons]
  exact Nat.succ_le_succ ((Nat.digits_length_le_iff hbase _).mpr hdiv)

/-! ## `format_int` -/

/-- The state of the loop when it has written of `digits` what fits behind `before`. -/
def IntLoop.written (before rest digits : List Byte) (size n ret : ℕ) : IntLoop :=
  ⟨before ++ digits.take size ++ rest.drop (digits.take size).length, size - digits.length,
    (before ++ digits.take size).length, n, ret + digits.length⟩

theorem formatIntTurn_eq (hsize : size ≤ rest.length) :
    formatIntTurn base (.written before rest s size n ret) =
      .ok (.written before rest (s ++ [digit (n % base)]) size (n / base) ret) := by
  have hlen : (s ++ [digit (n % base)]).length = s.length + 1 := by simp
  by_cases hfull : size ≤ s.length
  · -- the array is full
    have htake : (s ++ [digit (n % base)]).take size = s.take size :=
      List.take_append_of_le_length hfull
    rw [formatIntTurn, if_neg (by simp only [IntLoop.written]; omega)]
    simp only [IntLoop.written, htake, hlen, pure_eq_ok, Nat.sub_eq_zero_of_le hfull,
      Nat.sub_eq_zero_of_le (hfull.trans (Nat.le_succ _)), Nat.add_assoc]
  · have hrest : s.length < rest.length := by omega
    rw [formatIntTurn, if_pos (by simp only [IntLoop.written]; omega)]
    simp only [IntLoop.written, hlen, List.take_of_length_le (by omega : s.length ≤ size),
      List.take_of_length_le (hlen.trans_le (by omega : s.length + 1 ≤ size))]
    rw [List.drop_eq_getElem_cons hrest, store_append rfl]
    simp only [ok_bind, pure_eq_ok, List.length_append, List.length_singleton, List.append_assoc,
      List.singleton_append, Nat.add_assoc, Nat.sub_sub]

/-- **The loop** from its second turn on. -/
theorem formatIntLoop_eq (hbase : 1 < base) (hn : n < base ^ fuel) (hsize : size ≤ rest.length)
    (hne : s ≠ []) :
    formatIntLoop base fuel (.written before rest s size n 0) =
      .ok (.written before rest (s ++ (Nat.digits base n).map digit) size 0 0) := by
  induction fuel generalizing n s with
  | zero =>
    obtain rfl : n = 0 := by simpa using hn
    simp [formatIntLoop]
  | succ fuel ih =>
    have hret : (IntLoop.written before rest s size n 0).ret ≠ 0 := by
      simpa [IntLoop.written] using hne
    rcases Nat.eq_zero_or_pos n with rfl | hpos
    · rw [formatIntLoop, if_neg (by simpa [IntLoop.written] using hne)]
      simp
    · have hdiv : n / base < base ^ fuel := by
        rwa [Nat.div_lt_iff_lt_mul (by omega), ← pow_succ]
      rw [formatIntLoop, if_pos (.inr hpos.ne'), formatIntTurn_eq hsize, ok_bind,
        ih hdiv (by simp), Nat.digits_def' hbase hpos]
      simp

theorem formatIntLoop_start (hbase : 1 < base) (hn : n < base ^ 64) (hsize : size ≤ rest.length) :
    formatIntLoop base 64 ⟨before ++ rest, size, before.length, n, 0⟩ =
      .ok (.written before rest (lowDigits base n) size 0 0) := by
  have hdiv : n / base < base ^ 63 := by
    rwa [Nat.div_lt_iff_lt_mul (by omega), ← pow_succ]
  have hstart : (⟨before ++ rest, size, before.length, n, 0⟩ : IntLoop) =
      .written before rest [] size n 0 := by simp [IntLoop.written]
  rw [hstart, formatIntLoop, if_pos (.inl rfl), formatIntTurn_eq hsize, ok_bind,
    formatIntLoop_eq hbase hdiv hsize (by simp)]
  rfl

/-- **The numeral in the array**, if it has room for it. -/
theorem formatInt_eq (hbase : 1 < base) (hle : base ≤ 16) (hn : n < 2 ^ 64)
    (hlen : (numeral base n).length < size) (hsize : size ≤ rest.length) :
    formatInt (before ++ rest) before.length size n base =
      .ok (before ++ (numeral base n ++ 0 :: rest.drop ((numeral base n).length + 1)),
        (numeral base n).length + 1) := by
  have hdigits : (lowDigits base n).length < size := by rwa [numeral, List.length_reverse] at hlen
  have hpow : n < base ^ 64 := hn.trans_le (Nat.pow_le_pow_left hbase 64)
  have hpos : 0 < rest.length := by omega
  obtain ⟨c, rest, rfl⟩ := List.exists_cons_of_ne_nil (List.ne_nil_of_length_pos hpos)
  have hdrop : (lowDigits base n).length < (0 :: rest : List Byte).length := by
    rw [List.length_cons] at hsize ⊢
    omega
  have hloop : formatIntLoop base 64 ⟨before ++ 0 :: rest, size, before.length, n, 0⟩ = _ :=
    formatIntLoop_start hbase hpow hsize
  rw [formatInt, if_pos (by omega), store_append rfl, ok_bind]
  dsimp only
  rw [hloop, ok_bind, if_pos (by simp only [IntLoop.written]; omega)]
  simp only [IntLoop.written, List.take_of_length_le hdigits.le]
  rw [List.drop_eq_getElem_cons hdrop, store_append rfl, ok_bind, List.append_assoc,
    strreverse_eq (zero_notMem_lowDigits hbase hle) (by simp [lowDigits])]
  simp [numeral]

end Rastapopoulos.Strings
