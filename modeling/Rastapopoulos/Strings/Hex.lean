import Rastapopoulos.Strings.Numerals

/-!
# Numbers to strings and back

`format_int` for buffers of any size: the count that it returns does not depend on the buffer, and
what it writes stays in it (`formatInt_cases`). `itox` has a buffer that is large enough, and `xtoa`
reads back what it has written (`xtoa_itox`).
-/

namespace Rastapopoulos.Strings

variable {before buffer after rest : List Byte} {base n size : ℕ}

/-- The numeral of a number: its digits from the first to the last, without zeros in front. -/
def canonical (base n : ℕ) : List Byte :=
  if n = 0 then [ch '0'] else ((Nat.digits base n).map digit).reverse

theorem numeral_eq_canonical (hbase : 1 < base) : numeral base n = canonical base n := by
  rw [numeral, lowDigits, canonical]
  split
  · rename_i hzero
    simp [hzero, digit]
  · rename_i hne
    rw [← Nat.digits_def' hbase (Nat.pos_of_ne_zero hne)]

/-! ## `format_int` -/

/-- In a buffer that is too short there are as many digits as it has room for, the last ones. -/
theorem formatInt_short (hbase : 1 < base) (hn : n < 2 ^ 64) (hsize : size ≤ rest.length)
    (hlen : size ≤ (lowDigits base n).length) :
    formatInt (before ++ rest) before.length size n base =
      .ok (before ++ ((lowDigits base n).take size ++ rest.drop size),
        (lowDigits base n).length + 1) := by
  have hpow : n < base ^ 64 := hn.trans_le (Nat.pow_le_pow_left hbase 64)
  have hdone : ∀ rest' : List Byte, size ≤ rest'.length → (do
      let s ← formatIntLoop base 64 ⟨before ++ rest', size, before.length, n, 0⟩
      if s.size ≠ 0 then do
        let array ← store s.array s.out 0
        return (← strreverse array before.length, s.ret + 1)
      else return (s.array, s.ret + 1) : Except Fault (List Byte × ℕ)) =
      .ok (before ++ ((lowDigits base n).take size ++ rest'.drop size),
        (lowDigits base n).length + 1) := by
    intro rest' hsize'
    rw [formatIntLoop_start hbase hpow hsize', ok_bind, if_neg]
    · simp only [IntLoop.written, List.length_take, Nat.min_eq_left hlen, List.append_assoc,
        Nat.zero_add, pure_eq_ok]
    · simp only [IntLoop.written, not_not]
      omega
  by_cases hzero : size = 0
  · rw [formatInt, if_neg (not_not.mpr hzero), pure_bind]
    exact hdone rest hsize
  · obtain ⟨c, rest, rfl⟩ := List.exists_cons_of_length_pos (by omega : 0 < rest.length)
    have hdrop : (0 :: rest : List Byte).drop size = (c :: rest).drop size := by
      obtain ⟨k, rfl⟩ := Nat.exists_eq_succ_of_ne_zero hzero
      rfl
    rw [formatInt, if_pos hzero, store_append rfl, ok_bind, ← hdrop]
    exact hdone (0 :: rest) hsize

/-- A buffer with something in front of it and behind it. -/
theorem formatInt_cases (hbase : base = 10 ∨ base = 16) (hn : n < 2 ^ 64)
    (before buffer after : List Byte) :
    ∃ array, formatInt (before ++ (buffer ++ after)) before.length buffer.length n base =
        .ok (array, (canonical base n).length + 1) ∧
      ((canonical base n).length < buffer.length → array =
        before ++ (canonical base n ++ 0 :: buffer.drop ((canonical base n).length + 1) ++ after)) ∧
      (buffer.length ≤ (canonical base n).length → ∃ written : List Byte,
        written.length = buffer.length ∧ array = before ++ (written ++ after)) := by
  have hone : 1 < base := by omega
  have hle : buffer.length ≤ (buffer ++ after).length := by
    rw [List.length_append]
    exact Nat.le_add_right ..
  rw [← numeral_eq_canonical hone]
  rcases Nat.lt_or_ge (numeral base n).length buffer.length with hlt | hge
  · refine ⟨_, formatInt_eq hone (by omega) hn hlt hle, fun _ => ?_, fun hc => absurd hlt hc.not_gt⟩
    rw [List.drop_append_of_le_length hlt, List.append_assoc, List.cons_append]
  · have hlen : (lowDigits base n).length = (numeral base n).length := by
      rw [numeral, List.length_reverse]
    rw [← hlen] at hge ⊢
    refine ⟨_, formatInt_short hone hn hle hge, fun hc => absurd hc hge.not_gt, fun _ =>
      ⟨(lowDigits base n).take buffer.length, ?_, ?_⟩⟩
    · rw [List.length_take, Nat.min_eq_left hge]
    · rw [List.drop_left]

/-! ## `itox` and `xtoa` -/

def itox (array : List Byte) (str : ℕ) (n : BitVec 32) : Except Fault (List Byte × ℕ) :=
  formatInt array str 9 n.toNat 16

/-- The value of a character as a digit; a `char` is signed. -/
def hexValue (c : Byte) : Option ℤ :=
  if (ch '0').toInt ≤ c.toInt ∧ c.toInt ≤ (ch '9').toInt then some (c.toInt - (ch '0').toInt)
  else if (ch 'a').toInt ≤ c.toInt ∧ c.toInt ≤ (ch 'f').toInt then
    some (c.toInt - (ch 'a').toInt + 0xA)
  else if (ch 'A').toInt ≤ c.toInt ∧ c.toInt ≤ (ch 'F').toInt then
    some (c.toInt - (ch 'A').toInt + 0xA)
  else none

/-- The loop of `xtoa`, with `left` characters up to `str + 8`. The character is read before the
bound is checked. -/
def xtoaLoop (array : List Byte) : ℕ → ℕ → BitVec 32 → Except Fault (BitVec 32)
  | 0, p, res => do
    let _ ← load array p
    return res
  | left + 1, p, res => do
    let c ← load array p
    if c = 0 then return res
    else match hexValue c with
      | some d => xtoaLoop array left (p + 1) (res <<< 4 ||| BitVec.ofInt 32 d)
      | none => return res

def xtoa (array : List Byte) (str : ℕ) : Except Fault (BitVec 32) := xtoaLoop array 8 str 0

theorem hexValue_digit : ∀ d < 16, hexValue (digit d) = some (d : ℤ) := by decide

/-- A digit is put behind the others. -/
theorem shiftLeft_or_digit (res : BitVec 32) {d : ℕ} (hd : d < 16) :
    res <<< 4 ||| BitVec.ofInt 32 d = BitVec.ofNat 32 (16 * res.toNat + d) := by
  apply BitVec.eq_of_toNat_eq
  have hmod : (res.toNat <<< 4) % 2 ^ 32 = (res.toNat % 2 ^ 28) <<< 4 := by
    rw [Nat.shiftLeft_eq, Nat.shiftLeft_eq]
    omega
  rw [BitVec.toNat_or, BitVec.toNat_shiftLeft, hmod, BitVec.ofInt_natCast, BitVec.toNat_ofNat,
    BitVec.toNat_ofNat, Nat.mod_eq_of_lt (by omega : d < 2 ^ 32),
    ← Nat.shiftLeft_add_eq_or_of_lt hd, Nat.shiftLeft_eq]
  omega

/-- **The loop reads digits** up to a NUL. -/
theorem xtoaLoop_digits {ds : List ℕ} (hds : ∀ d ∈ ds, d < 16) {left v : ℕ}
    (hleft : ds.length ≤ left) (before rest : List Byte) :
    xtoaLoop (before ++ (ds.map digit ++ 0 :: rest)) left before.length (BitVec.ofNat 32 v) =
      .ok (BitVec.ofNat 32 (ds.foldl (fun v d => 16 * v + d) v)) := by
  induction ds generalizing before left v with
  | nil =>
    have hload : load (before ++ 0 :: rest) before.length = .ok 0 := load_append rfl
    cases left with
    | zero => simp only [List.map_nil, List.nil_append, xtoaLoop, hload, ok_bind]; rfl
    | succ left => simp only [List.map_nil, List.nil_append, xtoaLoop, hload, ok_bind]; rfl
  | cons d ds ih =>
    obtain ⟨hd, hds⟩ := List.forall_mem_cons.mp hds
    obtain ⟨left, rfl⟩ : ∃ k, left = k + 1 := ⟨left - 1, by rw [List.length_cons] at hleft; omega⟩
    have hnext := ih hds (v := 16 * v + d) (Nat.le_of_succ_le_succ hleft) (before ++ [digit d])
    have hdigit : BitVec.ofNat 32 v <<< 4 ||| BitVec.ofInt 32 d = BitVec.ofNat 32 (16 * v + d) := by
      rw [shiftLeft_or_digit _ hd]
      apply BitVec.eq_of_toNat_eq
      simp only [BitVec.toNat_ofNat]
      omega
    rw [List.length_append, List.length_singleton, List.append_assoc] at hnext
    rw [List.map_cons, List.cons_append, xtoaLoop, load_append rfl, ok_bind,
      if_neg (digit_ne_zero d hd)]
    simp only [hexValue_digit d hd, hdigit]
    exact hnext

/-- The digits of a number from the first to the last add up to it. -/
theorem foldl_digits (n : ℕ) : (Nat.digits 16 n).reverse.foldl (fun v d => 16 * v + d) 0 = n := by
  rw [List.foldl_reverse]
  conv_rhs => rw [← Nat.ofDigits_digits 16 n, Nat.ofDigits_eq_foldr]
  simp only [Nat.cast_id, Nat.add_comm]

theorem length_canonical_le (n : BitVec 32) : (canonical 16 n.toNat).length ≤ 8 := by
  rw [← numeral_eq_canonical (by decide), numeral, List.length_reverse]
  exact length_lowDigits_le (k := 7) (by decide) n.isLt

/-- **What `itox` has written** is read back. -/
theorem xtoa_itox (n : BitVec 32) (before : List Byte) {rest : List Byte} (hrest : 9 ≤ rest.length) :
    ∃ array ret, itox (before ++ rest) before.length n = .ok (array, ret) ∧
      xtoa array before.length = .ok n := by
  have hlen := length_canonical_le n
  have hfits : (numeral 16 n.toNat).length < 9 := by
    rw [numeral_eq_canonical (by decide)]
    exact Nat.lt_succ_of_le hlen
  have hn : n.toNat < 2 ^ 64 := n.isLt.trans (by decide)
  refine ⟨_, _, formatInt_eq (by decide) (by decide) hn hfits hrest, ?_⟩
  have hdigits : ∃ ds : List ℕ, (∀ d ∈ ds, d < 16) ∧ ds.length ≤ 8 ∧
      canonical 16 n.toNat = ds.map digit ∧ ds.foldl (fun v d => 16 * v + d) 0 = n.toNat := by
    by_cases hzero : n.toNat = 0
    · refine ⟨[0], by simp, by simp, ?_, by simp [hzero]⟩
      rw [canonical, if_pos hzero]
      rfl
    · rw [canonical, if_neg hzero] at hlen ⊢
      refine ⟨(Nat.digits 16 n.toNat).reverse, fun d hd => ?_, ?_, List.map_reverse.symm,
        foldl_digits _⟩
      · exact Nat.digits_lt_base (by decide) (List.mem_reverse.mp hd)
      · simpa using hlen
  obtain ⟨ds, hds, hle, heq, hvalue⟩ := hdigits
  have hread := xtoaLoop_digits (v := 0) hds hle before
    (rest.drop ((numeral 16 n.toNat).length + 1))
  rw [hvalue, BitVec.ofNat_toNat, BitVec.setWidth_eq, ← heq,
    ← numeral_eq_canonical (by decide)] at hread
  exact hread

/-- **`format_int`** returns the number of digits and one more. If there is room for the digits and
a NUL, the buffer has the numeral; otherwise the count exceeds the size, and what is behind the
buffer stays as it is. A number of 32 bits comes back from its hexadecimal numeral. -/
theorem formatInt_spec (base : ℕ) (hbase : base = 10 ∨ base = 16) (n : BitVec 64)
    (before buffer after : List Byte) :
    (∃ array ret, formatInt (before ++ (buffer ++ after)) before.length buffer.length n.toNat base =
        .ok (array, ret) ∧
      ret = (canonical base n.toNat).length + 1 ∧
      ((canonical base n.toNat).length < buffer.length → ∃ unused,
        array = before ++ (canonical base n.toNat ++ 0 :: unused ++ after) ∧
        (canonical base n.toNat ++ 0 :: unused).length = buffer.length) ∧
      (buffer.length ≤ (canonical base n.toNat).length → buffer.length < ret ∧
        ∃ written : List Byte, array = before ++ (written ++ after) ∧
          written.length = buffer.length)) ∧
    ∀ (m : BitVec 32) (str rest : List Byte), 9 ≤ rest.length →
      ∃ array ret, itox (str ++ rest) str.length m = .ok (array, ret) ∧
        xtoa array str.length = .ok m := by
  obtain ⟨array, hrun, hlong, hshort⟩ := formatInt_cases hbase n.isLt before buffer after
  refine ⟨⟨array, _, hrun, rfl, fun hlt => ?_, fun hle => ?_⟩, fun m str rest hrest =>
    xtoa_itox m str hrest⟩
  · refine ⟨_, hlong hlt, ?_⟩
    rw [List.length_append, List.length_cons, List.length_drop]
    omega
  · obtain ⟨written, hlen, harray⟩ := hshort hle
    exact ⟨Nat.lt_succ_of_le hle, written, harray, hlen⟩

theorem formatInt_spec_ten : ∃ array ret,
    formatInt ([0xCC] ++ (List.replicate 3 0xCC ++ [0xCC])) 1 3 10 10 = .ok (array, ret) ∧
      ret = 3 := by
  obtain ⟨⟨array, ret, hrun, hret, -⟩, -⟩ :=
    formatInt_spec 10 (.inl rfl) 10 [0xCC] (List.replicate 3 0xCC) [0xCC]
  exact ⟨array, ret, hrun, hret.trans (by decide +kernel)⟩

end Rastapopoulos.Strings
