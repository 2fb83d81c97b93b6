import Mathlib.Data.BitVec
import Mathlib.Data.Nat.Bitwise
import Mathlib.Tactic.Ring

/-!
# Unsigned 32-bit words as naturals

Words are natural numbers below `2 ^ 32`, and the machine's operations reduce modulo `2 ^ 32`.
`alignUp` is the usual mask computation `(v + (a - 1)) & ~(a - 1)`; on a power of two, and where
the sum does not wrap, it is the least multiple of `a` that is at least `v` (`alignUp_two_pow`).
-/

namespace Rastapopoulos

/-- The number of 32-bit words. -/
def wordMod : ℕ := 2 ^ 32

/-- `a + b` on 32-bit words. -/
def addW (a b : ℕ) : ℕ := (a + b) % wordMod

/-- `a - b` on 32-bit words. -/
def subW (a b : ℕ) : ℕ := (a + wordMod - b) % wordMod

/-- `v` rounded up to a multiple of the power of two `a`, by masking. -/
def alignUp (v a : ℕ) : ℕ := addW v (subW a 1) &&& (wordMod - 1 - subW a 1)

variable {a b k v : ℕ}

theorem addW_of_lt (h : a + b < wordMod) : addW a b = a + b := Nat.mod_eq_of_lt h

theorem subW_of_le (ha : a < wordMod) (h : b ≤ a) : subW a b = a - b := by
  unfold subW wordMod at *
  omega

theorem subW_of_lt (hb : b < wordMod) (h : a < b) : subW a b = a + wordMod - b := by
  unfold subW wordMod at *
  omega

theorem addW_lt (a b : ℕ) : addW a b < wordMod := Nat.mod_lt _ (by decide)

theorem subW_lt (a b : ℕ) : subW a b < wordMod := Nat.mod_lt _ (by decide)

/-- Masking off the `k` low bits. -/
theorem and_mask_two_pow {x : ℕ} (hk : k ≤ 32) (hx : x < 2 ^ 32) :
    x &&& (2 ^ 32 - 2 ^ k) = x / 2 ^ k * 2 ^ k := by
  have hm : 2 ^ 32 - 2 ^ k = (2 ^ (32 - k) - 1) * 2 ^ k := by
    rw [Nat.sub_mul, ← pow_add, Nat.sub_add_cancel hk, one_mul]
  rw [hm]
  refine Nat.eq_of_testBit_eq fun i => ?_
  rw [Nat.testBit_and, Nat.testBit_mul_two_pow, Nat.testBit_mul_two_pow,
    Nat.testBit_two_pow_sub_one, Nat.testBit_div_two_pow]
  by_cases hi : k ≤ i
  · rw [Nat.sub_add_cancel hi]
    by_cases h32 : i < 32
    · have : i - k < 32 - k := by omega
      simp [hi, this]
    · have : x.testBit i = false :=
        Nat.testBit_lt_two_pow (lt_of_lt_of_le hx (Nat.pow_le_pow_right (by decide) (by omega)))
      simp [this]
  · simp [hi]

/-- On a power of two the mask takes the remainder away. -/
theorem alignUp_eq (v : ℕ) (hk : k < 32) :
    alignUp v (2 ^ k) = addW v (2 ^ k - 1) / 2 ^ k * 2 ^ k := by
  have h1 : 1 ≤ 2 ^ k := Nat.one_le_two_pow
  have hlt : 2 ^ k < wordMod := Nat.pow_lt_pow_right (by decide) hk
  have hs : subW (2 ^ k) 1 = 2 ^ k - 1 := subW_of_le hlt h1
  have hm : wordMod - 1 - (2 ^ k - 1) = 2 ^ 32 - 2 ^ k := by unfold wordMod; omega
  rw [alignUp, hs, hm, and_mask_two_pow hk.le (addW_lt _ _)]

/-- On a power of two, and without wrap-around, `alignUp` rounds up. -/
theorem alignUp_two_pow (hk : k < 32) (hv : v + 2 ^ k ≤ wordMod) :
    alignUp v (2 ^ k) = (v + (2 ^ k - 1)) / 2 ^ k * 2 ^ k := by
  have h1 : 1 ≤ 2 ^ k := Nat.one_le_two_pow
  rw [alignUp_eq v hk, addW_of_lt (by omega)]

theorem le_alignUp_two_pow (hk : k < 32) (hv : v + 2 ^ k ≤ wordMod) :
    v ≤ alignUp v (2 ^ k) := by
  rw [alignUp_two_pow hk hv]
  have h1 : 1 ≤ 2 ^ k := Nat.one_le_two_pow
  have := Nat.div_add_mod (v + (2 ^ k - 1)) (2 ^ k)
  have := Nat.mod_lt (v + (2 ^ k - 1)) h1
  rw [Nat.mul_comm]
  omega

theorem alignUp_two_pow_lt (hk : k < 32) (hv : v + 2 ^ k ≤ wordMod) :
    alignUp v (2 ^ k) < v + 2 ^ k := by
  rw [alignUp_two_pow hk hv]
  have h1 : 1 ≤ 2 ^ k := Nat.one_le_two_pow
  have := Nat.div_mul_le_self (v + (2 ^ k - 1)) (2 ^ k)
  omega

theorem dvd_alignUp_two_pow (v : ℕ) (hk : k < 32) : 2 ^ k ∣ alignUp v (2 ^ k) := by
  rw [alignUp_eq v hk]
  exact Dvd.intro_left _ rfl

/-! ## Signed words -/

/-- A C `int` that is not negative. -/
theorem toInt_nonneg_iff (w : BitVec 32) : 0 ≤ w.toInt ↔ w.toNat < 2 ^ 31 := by
  have := w.isLt
  rw [BitVec.toInt_eq_toNat_cond]
  split <;> omega

theorem toInt_of_nonneg {w : BitVec 32} (h : 0 ≤ w.toInt) : w.toInt = w.toNat := by
  have hlt := (toInt_nonneg_iff w).mp h
  exact BitVec.toInt_eq_toNat_of_lt (by omega)

end Rastapopoulos
