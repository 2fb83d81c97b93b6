import Mathlib.Data.BitVec
import Mathlib.Data.List.Basic

/-!
# Little-endian bytes

A bit vector as a list of bytes, least significant first, and back. Reading is total: it takes what
bytes there are. The two are inverse to each other when the number of bytes is right.
-/

namespace Rastapopoulos

variable {w n : ℕ}

/-- The first `n` bytes of `x` in memory. -/
def leBytes (n : ℕ) (x : BitVec w) : List (BitVec 8) :=
  (List.range n).map fun i => x.extractLsb' (8 * i) 8

/-- The bit vector that the bytes make up. -/
def ofLeBytes (w : ℕ) : List (BitVec 8) → BitVec w
  | [] => 0
  | b :: bytes => b.setWidth w ||| (ofLeBytes w bytes <<< 8)

@[simp] theorem length_leBytes (n : ℕ) (x : BitVec w) : (leBytes n x).length = n := by
  simp [leBytes]

theorem getElem?_leBytes {i : ℕ} (x : BitVec w) (hi : i < n) :
    (leBytes n x)[i]? = some (x.extractLsb' (8 * i) 8) := by
  simp [leBytes, hi]

/-- Bit `i` is in byte `i / 8`. -/
theorem getLsbD_ofLeBytes (bytes : List (BitVec 8)) (i : ℕ) :
    (ofLeBytes w bytes).getLsbD i =
      (decide (i < w) && (bytes[i / 8]?.getD 0).getLsbD (i % 8)) := by
  induction bytes generalizing i with
  | nil => simp [ofLeBytes]
  | cons b bytes ih =>
    rw [ofLeBytes, BitVec.getLsbD_or, BitVec.getLsbD_setWidth, BitVec.getLsbD_shiftLeft]
    by_cases hi : i < 8
    · rw [Nat.div_eq_of_lt hi, Nat.mod_eq_of_lt hi]
      simp [hi]
    · obtain ⟨j, rfl⟩ : ∃ j, i = j + 8 := ⟨i - 8, by omega⟩
      rw [ih, show j + 8 - 8 = j by omega, show (j + 8) / 8 = j / 8 + 1 by omega,
        show (j + 8) % 8 = j % 8 by omega, BitVec.getLsbD_of_ge b (j + 8) (by omega)]
      simp only [Bool.and_false, Bool.false_or, List.getElem?_cons_succ]
      by_cases hj : j + 8 < w
      · simp [hj, show j < w by omega]
      · simp [hj]

/-- What was written is read. -/
theorem ofLeBytes_leBytes (x : BitVec w) (h : w ≤ 8 * n) : ofLeBytes w (leBytes n x) = x := by
  refine BitVec.eq_of_getLsbD_eq fun i hi => ?_
  rw [getLsbD_ofLeBytes, getElem?_leBytes x (by omega)]
  simp [hi, Nat.mod_lt, Nat.div_add_mod]

/-- What was read is what stood there. -/
theorem leBytes_ofLeBytes {bytes : List (BitVec 8)} (hw : 8 * bytes.length = w) :
    leBytes bytes.length (ofLeBytes w bytes) = bytes := by
  refine List.ext_getElem? fun i => ?_
  by_cases hi : i < bytes.length
  · rw [getElem?_leBytes _ hi, List.getElem?_eq_getElem hi, Option.some.injEq]
    refine BitVec.eq_of_getLsbD_eq fun j hj => ?_
    rw [BitVec.getLsbD_extractLsb', getLsbD_ofLeBytes, show (8 * i + j) / 8 = i by omega,
      show (8 * i + j) % 8 = j by omega, List.getElem?_eq_getElem hi]
    simp [hj, show 8 * i + j < w by omega]
  · rw [List.getElem?_eq_none (by simpa using hi), List.getElem?_eq_none (by omega)]

/-- The first bytes do not depend on how many are taken. -/
theorem take_leBytes {m : ℕ} (x : BitVec w) (h : m ≤ n) : (leBytes n x).take m = leBytes m x := by
  rw [leBytes, ← List.map_take, List.take_range, Nat.min_eq_left h]
  rfl

/-- The low bytes of a narrowed bit vector. -/
theorem leBytes_setWidth {v : ℕ} (x : BitVec w) (h : 8 * n ≤ v) :
    leBytes n (x.setWidth v) = leBytes n x := by
  refine List.map_congr_left fun i hi => ?_
  rw [List.mem_range] at hi
  refine BitVec.eq_of_getLsbD_eq fun j hj => ?_
  simp [hj, show 8 * i + j < v by omega]

/-- **A word of which only the first bytes were written** is read back right exactly when the other
bytes were right before. -/
theorem ofLeBytes_leBytes_append {m : ℕ} {x : BitVec w} {old : List (BitVec 8)}
    (hw : 8 * n = w) (hm : m + old.length = n) :
    ofLeBytes w (leBytes m x ++ old) = x ↔ old = (leBytes n x).drop m := by
  have hlen : (leBytes m x ++ old).length = n := by simp [hm]
  constructor
  · intro h
    have := leBytes_ofLeBytes (show 8 * (leBytes m x ++ old).length = w by rw [hlen, hw])
    rw [h, hlen] at this
    rw [this, List.drop_left' (length_leBytes m x)]
  · intro h
    rw [h, ← take_leBytes x (show m ≤ n by omega), List.take_append_drop]
    exact ofLeBytes_leBytes x hw.ge

end Rastapopoulos
