import Mathlib.Data.Nat.Bitwise

/-!
# Bits in a list of words

A list of words of a fixed width as a sequence of bits, with the operations on single bits by masks,
and what a search for a word with a set bit, or with a clear one, says about the bits.
-/

namespace Rastapopoulos.Bitmap

variable {w : ℕ} {ws : List (BitVec w)} {i j k : ℕ}

/-- Bit `i`. -/
def bit (ws : List (BitVec w)) (i : ℕ) : Bool := (ws.getD (i / w) 0).getLsbD (i % w)

/-- The mask `1 << (i % w)` of bit `i` in its word. -/
def mask (w i : ℕ) : BitVec w := 1#w <<< (i % w)

/-- Bit `i`, by its mask. -/
def test (ws : List (BitVec w)) (i : ℕ) : Bool := ws.getD (i / w) 0 &&& mask w i != 0

/-- Bit `i` set. -/
def set (ws : List (BitVec w)) (i : ℕ) : List (BitVec w) :=
  ws.set (i / w) (ws.getD (i / w) 0 ||| mask w i)

/-- Bit `i` cleared. -/
def clear (ws : List (BitVec w)) (i : ℕ) : List (BitVec w) :=
  ws.set (i / w) (ws.getD (i / w) 0 &&& ~~~mask w i)

/-! ## Masks -/

theorem getLsbD_mask (hw : 0 < w) : (mask w i).getLsbD j = decide (i % w = j) := by
  rw [show mask w i = BitVec.twoPow w (i % w) from rfl, BitVec.getLsbD_twoPow]
  simp [Nat.mod_lt i hw]

theorem test_eq_bit (hw : 0 < w) : test ws i = bit ws i := by
  rw [test, bit, Bool.eq_iff_iff, bne_iff_ne]
  generalize ws.getD (i / w) 0 = x
  constructor
  · intro hne
    by_contra hbit
    refine hne (BitVec.eq_of_getLsbD_eq fun j _ => ?_)
    rw [BitVec.getLsbD_and, getLsbD_mask hw]
    by_cases h : i % w = j
    · subst h
      rw [Bool.not_eq_true] at hbit
      rw [hbit]
      simp
    · simp [h]
  · intro hbit hzero
    have hi := congrArg (fun v => v.getLsbD (i % w)) hzero
    simp [BitVec.getLsbD_and, getLsbD_mask hw, hbit] at hi

/-! ## Single bits -/

@[simp] theorem length_set : (set ws i).length = ws.length := List.length_set

@[simp] theorem length_clear : (clear ws i).length = ws.length := List.length_set

/-- Bits of a list in which one word is replaced. -/
theorem bit_set_word {x : BitVec w} (hk : k < ws.length) :
    bit (ws.set k x) j = if j / w = k then x.getLsbD (j % w) else bit ws j := by
  unfold bit
  rw [List.getD_eq_getElem?_getD, List.getElem?_set]
  by_cases h : j / w = k
  · simp [h, hk]
  · simp [h, Ne.symm h]

theorem mod_eq_iff_of_div_eq (h : j / w = i / w) : i % w = j % w ↔ j = i := by
  constructor
  · intro hmod
    rw [← Nat.div_add_mod j w, ← Nat.div_add_mod i w, h, hmod]
  · rintro rfl
    rfl

theorem bit_set (hw : 0 < w) (hi : i / w < ws.length) :
    bit (set ws i) j = (decide (j = i) || bit ws j) := by
  rw [set, bit_set_word hi]
  split
  · rename_i hdiv
    rw [BitVec.getLsbD_or, getLsbD_mask hw, bit, hdiv, Bool.or_comm]
    simp only [mod_eq_iff_of_div_eq hdiv]
  · rename_i hdiv
    have hne : j ≠ i := fun h => hdiv (h ▸ rfl)
    simp [hne]

theorem bit_clear (hw : 0 < w) (hi : i / w < ws.length) :
    bit (clear ws i) j = (!decide (j = i) && bit ws j) := by
  rw [clear, bit_set_word hi]
  split
  · rename_i hdiv
    rw [BitVec.getLsbD_and, BitVec.getLsbD_not, getLsbD_mask hw, bit, hdiv, Bool.and_comm]
    simp only [mod_eq_iff_of_div_eq hdiv, Nat.mod_lt j hw, decide_true, Bool.true_and]
  · rename_i hdiv
    have hne : j ≠ i := fun h => hdiv (h ▸ rfl)
    simp [hne]

/-- Clearing a bit undoes setting it, if it was clear. -/
theorem clear_set (hw : 0 < w) (hi : i / w < ws.length) (hbit : bit ws i = false) :
    clear (set ws i) i = ws := by
  have hword : (ws[i / w] ||| mask w i) &&& ~~~mask w i = ws[i / w] := by
    refine BitVec.eq_of_getLsbD_eq fun j hj => ?_
    rw [bit, List.getD_eq_getElem _ _ hi] at hbit
    rw [BitVec.getLsbD_and, BitVec.getLsbD_or, BitVec.getLsbD_not, getLsbD_mask hw]
    by_cases hji : i % w = j
    · subst hji
      rw [hbit]
      simp
    · simp [hji, hj]
  have hset : (set ws i).getD (i / w) 0 = ws[i / w] ||| mask w i := by
    rw [set, List.getD_eq_getElem _ _ (by simpa using hi), List.getElem_set_self,
      List.getD_eq_getElem _ _ hi]
  rw [clear, hset, hword, set, List.set_set, List.set_getElem_self]

theorem bit_replicate_zero (n : ℕ) : bit (List.replicate n (0 : BitVec w)) i = false := by
  unfold bit
  rw [List.getD_eq_getElem?_getD, List.getElem?_replicate]
  split <;> simp

theorem bit_replicate_allOnes (hw : 0 < w) {n : ℕ} (hi : i / w < n) :
    bit (List.replicate n (BitVec.allOnes w)) i = true := by
  rw [bit, List.getD_eq_getElem?_getD, List.getElem?_replicate, if_pos hi, Option.getD_some,
    BitVec.getLsbD_allOnes]
  simp [Nat.mod_lt i hw]

/-! ## Searching -/

/-- A word has a bit `v` if and only if it is not the one whose bits are all `!v`. -/
theorem getD_ne_iff (hw : 0 < w) (v : Bool) :
    ws.getD k 0 ≠ (if v then 0 else BitVec.allOnes w) ↔ ∃ j < w, bit ws (k * w + j) = v := by
  have hbit : ∀ j < w, bit ws (k * w + j) = (ws.getD k 0).getLsbD j := fun j hj => by
    rw [bit, Nat.add_comm, Nat.add_mul_div_right _ _ hw, Nat.div_eq_of_lt hj, Nat.zero_add,
      Nat.add_mul_mod_self_right, Nat.mod_eq_of_lt hj]
  constructor
  · intro hne
    by_contra! hall
    refine hne (BitVec.eq_of_getLsbD_eq fun j hj => ?_)
    have hj' := hbit j hj ▸ hall j hj
    cases v <;> simp_all
  · rintro ⟨j, hj, hv⟩ heq
    rw [hbit j hj, heq] at hv
    cases v <;> simp [hj] at hv

/-- The search for a word finds the one with the first bit `v`. -/
theorem findIdx?_eq (hw : 0 < w) (v : Bool) :
    ws.findIdx? (fun x => x != if v then 0 else BitVec.allOnes w) =
      ((List.range (ws.length * w)).find? fun i => bit ws i == v).map (· / w) := by
  cases hfirst : (List.range (ws.length * w)).find? fun i => bit ws i == v with
  | none =>
    rw [List.find?_range_eq_none] at hfirst
    rw [Option.map_none, List.findIdx?_eq_none_iff]
    intro x hx
    obtain ⟨k, hk, rfl⟩ := List.getElem_of_mem hx
    by_contra hne
    obtain ⟨j, hj, hbit⟩ := (getD_ne_iff hw v).mp
      (show ws.getD k 0 ≠ _ by rw [List.getD_eq_getElem _ _ hk]; simpa using hne)
    have hlt : k * w + j < ws.length * w := by
      calc k * w + j < (k + 1) * w := by rw [Nat.add_mul, Nat.one_mul]; omega
        _ ≤ ws.length * w := Nat.mul_le_mul_right w hk
    simpa [hbit] using hfirst _ hlt
  | some i =>
    rw [List.find?_range_eq_some] at hfirst
    obtain ⟨hbit, hi, hbefore⟩ := hfirst
    have hdiv : i / w < ws.length :=
      Nat.div_lt_of_lt_mul (by rw [Nat.mul_comm]; exact List.mem_range.mp hi)
    rw [Option.map_some, List.findIdx?_eq_some_iff_getElem]
    refine ⟨hdiv, ?_, fun k hk => ?_⟩
    · have hne := (getD_ne_iff hw v).mpr ⟨i % w, Nat.mod_lt i hw, by
        rw [Nat.mul_comm, Nat.div_add_mod]; simpa using hbit⟩
      rw [List.getD_eq_getElem _ _ hdiv] at hne
      simpa using hne
    · by_contra hne
      obtain ⟨j, hj, hkj⟩ := (getD_ne_iff hw v).mp
        (show ws.getD k 0 ≠ _ by rw [List.getD_eq_getElem _ _ (hk.trans hdiv)]; simpa using hne)
      have hlt : k * w + j < i := by
        calc k * w + j < (k + 1) * w := by rw [Nat.add_mul, Nat.one_mul]; omega
          _ ≤ i / w * w := Nat.mul_le_mul_right w hk
          _ ≤ i := Nat.div_mul_le_self i w
      simpa [hkj] using hbefore _ hlt

end Rastapopoulos.Bitmap
