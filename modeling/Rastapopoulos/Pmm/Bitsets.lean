import Mathlib.Data.Finset.Range
import Rastapopoulos.Pmm.Regions

/-!
# Bitsets as finite sets

The operations of `kernel/bitset.c`, in any order, on a set of numbers below the size of the bitset.
The padding bits of the last word are set by `bitset_set_all` and cleared by `bitset_init` and
`bitset_clear_all` only. `bitset_find` looks at whole words first, so it can come to a padding bit
when no other bit has the value it looks for, and `bitset_test` then fails its assertion;
`bitsetAgrees_iff` says that nothing else goes wrong, where the size can be rounded up.
-/

namespace Rastapopoulos.Pmm

/-- `bitset_set_all` -/
def bitsetSetAll (bitset : Bitset) : Bitset :=
  { bitset with data := List.replicate bitset.data.length (BitVec.allOnes 32) }

/-- `bitset_clear_all` -/
def bitsetClearAll (bitset : Bitset) : Bitset :=
  { bitset with data := List.replicate bitset.data.length 0 }

inductive BitsetOp
  | set (offset : ℕ)
  | clear (offset : ℕ)
  | setAll
  | clearAll
  deriving DecidableEq, Repr

/-- The offset is below `size`. -/
def BitsetOp.Within (size : ℕ) : BitsetOp → Prop
  | .set offset => offset < size
  | .clear offset => offset < size
  | .setAll => True
  | .clearAll => True

def bitsetStep (bitset : Bitset) : BitsetOp → Except Fault Bitset
  | .set offset => bitsetSet bitset offset
  | .clear offset => bitsetClear bitset offset
  | .setAll => .ok (bitsetSetAll bitset)
  | .clearAll => .ok (bitsetClearAll bitset)

/-- What an operation does to the set of the bits that are set. -/
def BitsetOp.apply (size : ℕ) (s : Finset ℕ) : BitsetOp → Finset ℕ
  | .set offset => insert offset s
  | .clear offset => s.erase offset
  | .setAll => Finset.range size
  | .clearAll => ∅

/-- The set that operations on an empty one make. -/
def members (size : ℕ) (ops : List BitsetOp) : Finset ℕ := ops.foldl (BitsetOp.apply size) ∅

/-- The padding bits after an operation. -/
def BitsetOp.pad (value : Bool) : BitsetOp → Bool
  | .setAll => true
  | .clearAll => false
  | _ => value

/-- The padding bits after operations on a new bitset. -/
def padding (ops : List BitsetOp) : Bool := ops.foldl BitsetOp.pad false

/-- The bitset stands for the set `members`: `bitset_test` tells membership, `bitset_find` finds the
least member and the least other number, and the words are within the memory it was given. -/
def BitsetAgrees (size : ℕ) (ops : List BitsetOp) : Prop :=
  ∃ bitset bytes, ops.foldlM bitsetStep (bitsetInit size) = .ok bitset ∧
    bitsetAllocSize size = .ok bytes ∧ 8 + 4 * bitset.data.length ≤ bytes ∧
    (∀ i < size, i / bitPerElement < bitset.data.length ∧
      bitsetTest bitset i = .ok (decide (i ∈ members size ops))) ∧
    ∀ value, bitsetFind bitset value =
      .ok ((List.range size).find? fun i => decide (i ∈ members size ops) == value)

/-- The bits are those of the set `s`, and the padding bits have the value `pad`. -/
structure Bitset.Holds (bitset : Bitset) (size : ℕ) (s : Finset ℕ) (pad : Bool) : Prop where
  size_eq : bitset.size = size
  length_eq : bitset.data.length = elementCount size
  bit_eq : ∀ i, i / bitPerElement < elementCount size →
    bitset.bit i = if i < size then decide (i ∈ s) else pad

section Bitsets

variable {bitset : Bitset} {size : ℕ} {s : Finset ℕ} {pad : Bool} {ops : List BitsetOp}

/-- The number of words, where `ALIGN` does not wrap around. -/
theorem elementCount_bounds (h : size + bitPerElement ≤ wordMod) :
    size ≤ elementCount size * 32 ∧ elementCount size * 32 < size + 32 := by
  rw [elementCount_eq h]
  omega

theorem bitsetAllocSize_eq (h : size + bitPerElement ≤ wordMod) :
    bitsetAllocSize size = .ok (8 + 4 * elementCount size) := by
  obtain ⟨hcovers, htight⟩ := elementCount_bounds h
  have hcheck : size ≤ elementCount size * bitPerElement := hcovers
  unfold bitPerElement wordMod at h
  rw [bitsetAllocSize, check_of _ hcheck, ok_bind, pure_eq_ok,
    addW_of_lt (by unfold wordMod; omega)]

/-- Where it wraps around there are no words. -/
theorem bitsetAllocSize_error (h : wordMod < size + bitPerElement) (hsize : size < wordMod) :
    bitsetAllocSize size = .error .assertion := by
  have hzero : elementCount size = 0 := by
    have halign : alignUp size (2 ^ 5) = addW size (2 ^ 5 - 1) / 2 ^ 5 * 2 ^ 5 :=
      alignUp_eq size (by decide)
    rw [elementCount, show bitPerElement = 2 ^ 5 from rfl, halign]
    unfold addW bitPerElement wordMod at *
    omega
  rw [bitsetAllocSize, check_of_not _ (by rw [hzero]; unfold bitPerElement wordMod at *; omega)]
  rfl

namespace Bitset.Holds

theorem init : (bitsetInit size).Holds size ∅ false where
  size_eq := rfl
  length_eq := List.length_replicate
  bit_eq := fun i _ => by
    rw [bitsetInit_bit]
    simp

/-- **One operation.** -/
theorem step (h : bitset.Holds size s pad) (hcovers : size ≤ elementCount size * 32) {op : BitsetOp}
    (hop : op.Within size) :
    ∃ bitset', bitsetStep bitset op = .ok bitset' ∧
      bitset'.Holds size (op.apply size s) (op.pad pad) := by
  have hdiv : ∀ {i}, i < size → i / 32 < bitset.data.length := fun hi => by
    rw [h.length_eq]
    omega
  cases op with
  | set offset =>
    have hoffset : offset < size := hop
    refine ⟨_, bitsetSet_eq (h.size_eq ▸ hop), h.size_eq, ?_, fun i hi => ?_⟩
    · simpa [Bitset.mark] using h.length_eq
    · have hbit : (bitset.mark offset).bit i = (decide (i = offset) || bitset.bit i) :=
        Bitmap.bit_set (by decide) (hdiv hop)
      rw [hbit, h.bit_eq i hi]
      by_cases heq : i = offset <;> simp [BitsetOp.apply, BitsetOp.pad, heq, hoffset]
  | clear offset =>
    have hoffset : offset < size := hop
    refine ⟨_, bitsetClear_eq (h.size_eq ▸ hop), h.size_eq, ?_, fun i hi => ?_⟩
    · simpa [Bitset.unmark] using h.length_eq
    · have hbit : (bitset.unmark offset).bit i = (!decide (i = offset) && bitset.bit i) :=
        Bitmap.bit_clear (by decide) (hdiv hop)
      rw [hbit, h.bit_eq i hi]
      by_cases heq : i = offset <;> simp [BitsetOp.apply, BitsetOp.pad, heq, hoffset]
  | setAll =>
    refine ⟨_, rfl, h.size_eq, List.length_replicate.trans h.length_eq, fun i hi => ?_⟩
    rw [← h.length_eq] at hi
    have hbit : (bitsetSetAll bitset).bit i = true := Bitmap.bit_replicate_allOnes (by decide) hi
    rw [hbit]
    simp +contextual [BitsetOp.apply, BitsetOp.pad]
  | clearAll =>
    refine ⟨_, rfl, h.size_eq, List.length_replicate.trans h.length_eq, fun i _ => ?_⟩
    have hbit : (bitsetClearAll bitset).bit i = false := Bitmap.bit_replicate_zero _
    rw [hbit]
    simp [BitsetOp.apply, BitsetOp.pad]

/-- **Any number of them.** -/
theorem run (h : bitset.Holds size s pad) (hcovers : size ≤ elementCount size * 32)
    (hops : ∀ op ∈ ops, op.Within size) :
    ∃ bitset', ops.foldlM bitsetStep bitset = .ok bitset' ∧
      bitset'.Holds size (ops.foldl (BitsetOp.apply size) s) (ops.foldl BitsetOp.pad pad) := by
  induction ops generalizing bitset s pad with
  | nil => exact ⟨bitset, rfl, h⟩
  | cons op ops ih =>
    obtain ⟨hop, hops⟩ := List.forall_mem_cons.mp hops
    obtain ⟨b₁, hb₁, h₁⟩ := h.step hcovers hop
    obtain ⟨b', hb', h'⟩ := ih h₁ hops
    exact ⟨b', by rw [List.foldlM_cons, hb₁, ok_bind, hb'], h'⟩

/-- The search finds the first number below `size`, unless there is none and there is padding. -/
theorem find_eq (h : bitset.Holds size s pad) (hcovers : size ≤ elementCount size * 32)
    (htight : elementCount size * 32 < size + 32) (value : Bool) :
    bitsetFind bitset value = .ok ((List.range size).find? fun i => decide (i ∈ s) == value) ↔
      32 ∣ size ∨ (∃ i < size, decide (i ∈ s) = value) ∨ pad ≠ value := by
  have hbit : ∀ i < elementCount size * 32,
      bitset.bit i = if i < size then decide (i ∈ s) else pad :=
    fun i hi => h.bit_eq i (by unfold bitPerElement; omega)
  rw [bitsetFind_eq, h.length_eq, h.size_eq]
  cases hfirst : (List.range (elementCount size * 32)).find? fun i => bitset.bit i == value with
  | none =>
    rw [List.find?_range_eq_none] at hfirst
    have hnone : (List.range size).find? (fun i => decide (i ∈ s) == value) = none := by
      rw [List.find?_range_eq_none]
      intro i hi
      have hi' := hfirst i (by omega)
      rwa [hbit i (by omega), if_pos hi] at hi'
    simp only [hnone, true_iff]
    by_cases hdvd : 32 ∣ size
    · exact .inl hdvd
    · have hpad := hfirst size (by omega)
      rw [hbit size (by omega), if_neg (Nat.lt_irrefl _)] at hpad
      exact .inr (.inr (by simpa using hpad))
  | some i =>
    obtain ⟨hi, hlen, hbefore⟩ := List.find?_range_eq_some.mp hfirst
    rw [List.mem_range] at hlen
    rw [hbit i hlen] at hi
    have hbefore' : ∀ j < i, j < size → decide (j ∈ s) ≠ value := by
      intro j hj hjs
      have hj' := hbefore j hj
      rw [hbit j (by omega), if_pos hjs] at hj'
      simpa using hj'
    by_cases hlt : i < size
    · rw [if_pos hlt] at hi
      have hsome : (List.range size).find? (fun i => decide (i ∈ s) == value) = some i := by
        rw [List.find?_range_eq_some]
        exact ⟨hi, List.mem_range.mpr hlt, fun j hj => by simpa using hbefore' j hj (by omega)⟩
      simp only [hsome, if_pos hlt, true_iff]
      exact .inr (.inl ⟨i, hlt, by simpa using hi⟩)
    · rw [if_neg hlt] at hi
      simp only [if_neg hlt]
      refine iff_of_false (by simp) ?_
      rintro (hdvd | ⟨j, hj, hj'⟩ | hpad)
      · omega
      · exact hbefore' j (by omega) hj hj'
      · exact hpad (by simpa using hi)

end Bitset.Holds

/-- **Bitsets refine finite sets** if and only if the size can be rounded up to whole words and,
where there are padding bits, one of the other bits has their value. -/
theorem bitsetAgrees_iff (hsize : size < wordMod) (hops : ∀ op ∈ ops, op.Within size) :
    BitsetAgrees size ops ↔ size + bitPerElement ≤ wordMod ∧
      (bitPerElement ∣ size ∨ ∃ i < size, decide (i ∈ members size ops) = padding ops) := by
  by_cases hwrap : size + bitPerElement ≤ wordMod
  · obtain ⟨hcovers, htight⟩ := elementCount_bounds hwrap
    obtain ⟨bitset, hrun, h⟩ := Bitset.Holds.init.run hcovers hops
    change bitset.Holds size (members size ops) (padding ops) at h
    have hfind := h.find_eq hcovers htight
    rw [and_iff_right hwrap]
    constructor
    · rintro ⟨_, _, hrun', -, -, -, hagrees⟩
      cases hrun.symm.trans hrun'
      rcases (hfind (padding ops)).mp (hagrees _) with hdvd | hex | hne
      · exact .inl hdvd
      · exact .inr hex
      · exact absurd rfl hne
    · intro hcond
      refine ⟨bitset, _, hrun, bitsetAllocSize_eq hwrap, by rw [h.length_eq],
        fun i hi => ⟨?_, ?_⟩, fun value => (hfind value).mpr ?_⟩
      · rw [h.length_eq]
        unfold bitPerElement
        omega
      · rw [bitsetTest_eq (h.size_eq ▸ hi), h.bit_eq i (by unfold bitPerElement; omega), if_pos hi]
      · by_cases hpad : padding ops = value
        · subst hpad
          exact hcond.imp id .inl
        · exact .inr (.inr hpad)
  · refine iff_of_false ?_ fun hcond => hwrap hcond.1
    rintro ⟨_, _, -, halloc, -⟩
    rw [bitsetAllocSize_error (by omega) hsize] at halloc
    cases halloc

theorem bitsetAgrees_clear : BitsetAgrees 40 [.setAll, .clear 3] :=
  (bitsetAgrees_iff (by decide) (by simp [BitsetOp.Within])).mpr
    ⟨by decide, .inr ⟨0, by decide, by decide⟩⟩

/-- The bits are set one by one, and there is no other one left. -/
theorem not_bitsetAgrees : ¬ BitsetAgrees 2 [.set 0, .set 1] := by
  rintro ⟨bitset, _, hrun, -, -, -, hfind⟩
  cases hrun
  exact absurd (hfind false) (by decide)

end Bitsets

end Rastapopoulos.Pmm
