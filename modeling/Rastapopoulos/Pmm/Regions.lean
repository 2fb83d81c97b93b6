import Mathlib.Data.List.Pairwise
import Mathlib.Data.Set.Lattice
import Mathlib.Order.CompletePartialOrder
import Mathlib.Order.Interval.Set.Basic
import Rastapopoulos.Pmm.Basic

/-!
# Regions and their pages

What the functions of the memory manager do, in terms of the pages that are taken. `Bitset.Sound`
and `Region.Sound` are what `bitset_init` and `add_region` establish and every later operation
keeps: there are as many words as the bits need, and the bits behind the last page are clear. The
outcome of `bitset_find` depends on these padding bits (`bitsetFind_full`): when every page of a
region is taken and there is padding, its search finds the word with the padding and runs into the
assertion of `bitset_test`. `pmmAlloc_cases` lists what `pmm_alloc` can do for any regions; for
disjoint regions below 4 GiB (`Layout`) the operations have the specifications of the last section.
-/

namespace Rastapopoulos.Pmm

open KernelHeap (pageSize)

/-! ## Bitsets -/

section Bitsets

variable {bitset : Bitset} {size i j n : ℕ} {value : Bool}

/-- Bit `i`. -/
def Bitset.bit (bitset : Bitset) (i : ℕ) : Bool := Bitmap.bit bitset.data i

/-- The words are those that the bits need, and the other bits of the last one are clear. -/
structure Bitset.Sound (bitset : Bitset) : Prop where
  covers : bitset.size ≤ bitset.data.length * bitPerElement
  tight : bitset.data.length * bitPerElement < bitset.size + bitPerElement
  padding : ∀ i, bitset.size ≤ i → bitset.bit i = false

theorem elementCount_eq (h : size + bitPerElement ≤ wordMod) :
    elementCount size = (size + 31) / 32 := by
  have hpow : alignUp size (2 ^ 5) = (size + (2 ^ 5 - 1)) / 2 ^ 5 * 2 ^ 5 :=
    alignUp_two_pow (by decide) h
  rw [elementCount, bitPerElement, show (32 : ℕ) = 2 ^ 5 from rfl, hpow,
    Nat.mul_div_cancel _ (by decide)]
  rfl

theorem bitsetInit_sound (h : size + bitPerElement ≤ wordMod) : (bitsetInit size).Sound where
  covers := by
    simp only [bitsetInit, List.length_replicate, elementCount_eq h, bitPerElement]
    omega
  tight := by
    simp only [bitsetInit, List.length_replicate, elementCount_eq h, bitPerElement]
    omega
  padding := fun _ _ => Bitmap.bit_replicate_zero _

theorem bitsetInit_bit : (bitsetInit size).bit i = false := Bitmap.bit_replicate_zero _

theorem bitsetTest_eq (hi : i < bitset.size) : bitsetTest bitset i = .ok (bitset.bit i) := by
  rw [bitsetTest, check_of _ hi, ok_bind, pure_eq_ok, Bitmap.test_eq_bit (by decide)]
  rfl

theorem bitsetTest_error (hi : bitset.size ≤ i) : bitsetTest bitset i = .error .assertion := by
  rw [bitsetTest, check_of_not _ (Nat.not_lt.mpr hi)]
  rfl

/-- The bitset with bit `i` set. -/
def Bitset.mark (bitset : Bitset) (i : ℕ) : Bitset :=
  { bitset with data := Bitmap.set bitset.data i }

/-- The bitset with bit `i` cleared. -/
def Bitset.unmark (bitset : Bitset) (i : ℕ) : Bitset :=
  { bitset with data := Bitmap.clear bitset.data i }

theorem bitsetSet_eq (hi : i < bitset.size) : bitsetSet bitset i = .ok (bitset.mark i) := by
  rw [bitsetSet, check_of _ hi]
  rfl

theorem bitsetClear_eq (hi : i < bitset.size) : bitsetClear bitset i = .ok (bitset.unmark i) := by
  rw [bitsetClear, check_of _ hi]
  rfl

namespace Bitset.Sound

theorem div_lt (h : bitset.Sound) (hi : i < bitset.size) :
    i / bitPerElement < bitset.data.length :=
  Nat.div_lt_of_lt_mul (by rw [Nat.mul_comm]; exact hi.trans_le h.covers)

theorem mark_bit (h : bitset.Sound) (hi : i < bitset.size) :
    (bitset.mark i).bit j = (decide (j = i) || bitset.bit j) :=
  Bitmap.bit_set (by decide) (h.div_lt hi)

theorem unmark_bit (h : bitset.Sound) (hi : i < bitset.size) :
    (bitset.unmark i).bit j = (!decide (j = i) && bitset.bit j) :=
  Bitmap.bit_clear (by decide) (h.div_lt hi)

theorem mark (h : bitset.Sound) (hi : i < bitset.size) : (bitset.mark i).Sound where
  covers := by simpa [Bitset.mark] using h.covers
  tight := by simpa [Bitset.mark] using h.tight
  padding := by
    intro j hj
    have hne : j ≠ i := fun heq => absurd (heq ▸ hj) (Nat.not_le.mpr hi)
    rw [h.mark_bit hi, h.padding j hj]
    simp [hne]

theorem unmark (h : bitset.Sound) (hi : i < bitset.size) : (bitset.unmark i).Sound where
  covers := by simpa [Bitset.unmark] using h.covers
  tight := by simpa [Bitset.unmark] using h.tight
  padding := by
    intro j hj
    rw [h.unmark_bit hi, h.padding j hj, Bool.and_false]

end Bitset.Sound

/-- The loop stops at the first bit with the value, or at the end of the bitset. -/
theorem findBit_eq (hij : i ≤ j) (hn : j < i + n) (hbit : bitset.bit j = value)
    (hbefore : ∀ k, i ≤ k → k < j → bitset.bit k ≠ value) :
    findBit bitset value n i = if j < bitset.size then .ok j else .error .assertion := by
  induction n generalizing i with
  | zero => omega
  | succ n ih =>
    rw [findBit]
    by_cases hi : i < bitset.size
    · rw [bitsetTest_eq hi, ok_bind]
      by_cases heq : i = j
      · subst heq
        rw [if_pos hbit, if_pos hi]
        rfl
      · rw [if_neg (hbefore i le_rfl (by omega))]
        exact ih (by omega) (by omega) fun k hk hkj => hbefore k (by omega) hkj
    · rw [bitsetTest_error (by omega), if_neg (by omega)]
      rfl

/-- **The search** finds the first bit with the value. Where that is a padding bit, it fails. -/
theorem bitsetFind_eq : bitsetFind bitset value =
    match (List.range (bitset.data.length * 32)).find? fun i => bitset.bit i == value with
    | none => .ok none
    | some i => if i < bitset.size then .ok (some i) else .error .assertion := by
  rw [bitsetFind, Bitmap.findIdx?_eq (by decide),
    show Bitmap.bit bitset.data = bitset.bit from rfl]
  cases hfirst : (List.range (bitset.data.length * 32)).find? fun i => bitset.bit i == value with
  | none => rfl
  | some i =>
    obtain ⟨hbit, -, hbefore⟩ := List.find?_range_eq_some.mp hfirst
    have hloop : findBit bitset value bitPerElement (i / 32 * bitPerElement) = _ :=
      findBit_eq (j := i) (by unfold bitPerElement; omega) (by unfold bitPerElement; omega)
        (by simpa using hbit) fun k _ hk => by simpa using hbefore k hk
    simp only [Option.map_some, hloop]
    split <;> rfl

/-- **The search in a full bitset.** Where there are padding bits it fails. -/
theorem bitsetFind_full (h : bitset.Sound) (hfull : ∀ i < bitset.size, bitset.bit i = true) :
    bitsetFind bitset false =
      if bitPerElement ∣ bitset.size then .ok none else .error .assertion := by
  have hcovers := h.covers
  have htight := h.tight
  unfold bitPerElement at *
  rw [bitsetFind_eq]
  split
  · rename_i hdvd
    rw [if_pos]
    by_contra hdvd'
    have hpad := List.find?_range_eq_none.mp hdvd bitset.size (by omega)
    simp [h.padding _ le_rfl] at hpad
  · rename_i i hfirst
    obtain ⟨hbit, hi, -⟩ := List.find?_range_eq_some.mp hfirst
    have hsize : bitset.size ≤ i := by
      by_contra hlt
      simp [hfull i (by omega)] at hbit
    have hlen := List.mem_range.mp hi
    rw [if_neg (by omega), if_neg (by omega)]

/-- **The search in a bitset that is not full**: the first clear bit. -/
theorem bitsetFind_clear (h : bitset.Sound) (hclear : ∃ i < bitset.size, bitset.bit i = false) :
    ∃ i < bitset.size, bitset.bit i = false ∧ (∀ j < i, bitset.bit j = true) ∧
      bitsetFind bitset false = .ok (some i) := by
  obtain ⟨c, hc, hcbit⟩ := hclear
  have hcovers := h.covers
  unfold bitPerElement at *
  rw [bitsetFind_eq]
  split
  · rename_i hnone
    simpa [hcbit] using List.find?_range_eq_none.mp hnone c (by omega)
  · rename_i i hfirst
    obtain ⟨hbit, -, hbefore⟩ := List.find?_range_eq_some.mp hfirst
    have hi : i < bitset.size := by
      by_contra hge
      simpa [hcbit] using hbefore c (by omega)
    exact ⟨i, hi, by simpa using hbit, fun j hj => by simpa using hbefore j hj, if_pos hi⟩

end Bitsets

/-! ## Regions -/

section Regions

variable {region : Region} {regions pre post : List Region} {p q : ℕ}

/-- The addresses of the region. -/
def Region.range (region : Region) : Set ℕ := Set.Ico region.addr (region.addr + region.len)

/-- `page` is a page of the region. -/
def Region.HasPage (region : Region) (page : ℕ) : Prop :=
  page % pageSize = 0 ∧ region.addr ≤ page ∧ page < region.addr + region.len

instance (region : Region) (page : ℕ) : Decidable (region.HasPage page) :=
  inferInstanceAs (Decidable (_ ∧ _ ∧ _))

/-- The page is in use. -/
def Region.taken (region : Region) (page : ℕ) : Bool :=
  region.bitmap.bit ((page - region.addr) / pageSize)

/-- What `add_region` establishes. -/
structure Region.Sound (region : Region) : Prop where
  addr_page : region.addr % pageSize = 0
  addr_lt : region.addr < wordMod
  len_eq : region.len = region.bitmap.size * pageSize
  len_lt : region.len < wordMod
  bitmap : region.bitmap.Sound

/-- The region ends below 4 GiB. -/
def Region.Below (region : Region) : Prop := region.addr + region.len < wordMod

instance (region : Region) : Decidable region.Below := inferInstanceAs (Decidable (_ < _))

/-- The region with the page of bit `i` taken. -/
def Region.mark (region : Region) (i : ℕ) : Region :=
  { region with bitmap := region.bitmap.mark i }

/-- The region with the page of bit `i` free. -/
def Region.unmark (region : Region) (i : ℕ) : Region :=
  { region with bitmap := region.bitmap.unmark i }

/-- Every page is taken. -/
def Region.Full (region : Region) : Prop :=
  ∀ i < region.bitmap.size, region.bitmap.bit i = true

instance (region : Region) : Decidable region.Full :=
  inferInstanceAs (Decidable (∀ i < region.bitmap.size, _))

/-- The search of `pmm_alloc` goes on to the next region. -/
def Region.Passed (region : Region) : Prop :=
  region.Full ∧ bitPerElement ∣ region.bitmap.size

namespace Region.Sound

variable {i : ℕ}

theorem mark (h : region.Sound) (hi : i < region.bitmap.size) : (region.mark i).Sound :=
  { h with bitmap := h.bitmap.mark hi }

theorem unmark (h : region.Sound) (hi : i < region.bitmap.size) :
    (region.unmark i).Sound :=
  { h with bitmap := h.bitmap.unmark hi }

theorem index_lt (h : region.Sound) (hp : region.HasPage p) :
    (p - region.addr) / pageSize < region.bitmap.size := by
  obtain ⟨-, hle, hlt⟩ := hp
  rw [h.len_eq] at hlt
  exact Nat.div_lt_of_lt_mul (by rw [Nat.mul_comm]; omega)

/-- Pages have different bits. -/
theorem index_inj (h : region.Sound) (hp : region.HasPage p) (hq : region.HasPage q) :
    (q - region.addr) / pageSize = (p - region.addr) / pageSize ↔ q = p := by
  obtain ⟨hp₀, hp₁, -⟩ := hp
  obtain ⟨hq₀, hq₁, -⟩ := hq
  have haddr := h.addr_page
  unfold pageSize at *
  omega

/-- The page of bit `i`. -/
theorem hasPage_index (h : region.Sound) (hi : i < region.bitmap.size) :
    region.HasPage (region.addr + i * pageSize) ∧
      (region.addr + i * pageSize - region.addr) / pageSize = i := by
  have haddr := h.addr_page
  have hlen := h.len_eq
  unfold HasPage pageSize at *
  omega

theorem mark_taken (h : region.Sound) (hp : region.HasPage p) (hq : region.HasPage q) :
    (region.mark ((p - region.addr) / pageSize)).taken q = (decide (q = p) || region.taken q) := by
  have hmark := h.bitmap.mark_bit (j := (q - region.addr) / pageSize) (h.index_lt hp)
  simp only [h.index_inj hp hq] at hmark
  exact hmark

theorem unmark_taken (h : region.Sound) (hp : region.HasPage p) (hq : region.HasPage q) :
    (region.unmark ((p - region.addr) / pageSize)).taken q =
      (!decide (q = p) && region.taken q) := by
  have hunmark := h.bitmap.unmark_bit (j := (q - region.addr) / pageSize) (h.index_lt hp)
  simp only [h.index_inj hp hq] at hunmark
  exact hunmark

theorem full_iff (h : region.Sound) : region.Full ↔ ∀ p, region.HasPage p → region.taken p = true := by
  constructor
  · exact fun hfull p hp => hfull _ (h.index_lt hp)
  · intro htaken i hi
    obtain ⟨hp, hidx⟩ := h.hasPage_index hi
    have := htaken _ hp
    rwa [Region.taken, hidx] at this

end Region.Sound

theorem Region.contains_iff (hbelow : region.Below) :
    region.contains p = true ↔ region.addr ≤ p ∧ p < region.addr + region.len := by
  rw [Region.contains, addW_of_lt hbelow, decide_eq_true_iff]

theorem Region.index_eq (hbelow : region.Below) (hp : region.HasPage p) :
    region.index p = (p - region.addr) / pageSize := by
  have hlt : p < wordMod := hp.2.2.trans hbelow
  rw [Region.index, subW_of_le hlt hp.2.1]

/-! ## The search for a frame -/

/-- **What `pmm_alloc` does**: it passes full regions without padding, and then takes the first page
that is free, finds no more regions, or fails in a full region with padding. -/
theorem pmmAlloc_cases (hs : ∀ region ∈ regions, region.Sound) :
    (∃ pre region post i, regions = pre ++ region :: post ∧ (∀ s ∈ pre, s.Passed) ∧
        i < region.bitmap.size ∧ region.bitmap.bit i = false ∧
        (∀ j < i, region.bitmap.bit j = true) ∧
        pmmAlloc regions = .ok (pre ++ region.mark i :: post,
          some (addW region.addr (i * pageSize)))) ∨
      ((∀ s ∈ regions, s.Passed) ∧ pmmAlloc regions = .ok (regions, none)) ∨
      (∃ pre region post, regions = pre ++ region :: post ∧ (∀ s ∈ pre, s.Passed) ∧ region.Full ∧
        ¬ bitPerElement ∣ region.bitmap.size ∧ pmmAlloc regions = .error .assertion) := by
  induction regions with
  | nil => exact .inr (.inl ⟨by simp, rfl⟩)
  | cons r rs ih =>
    have hr := hs r (.head _)
    by_cases hclear : ∃ i < r.bitmap.size, r.bitmap.bit i = false
    · obtain ⟨i, hi, hbit, hbefore, hfind⟩ := bitsetFind_clear hr.bitmap hclear
      refine .inl ⟨[], r, rs, i, rfl, by simp, hi, hbit, hbefore, ?_⟩
      rw [pmmAlloc, hfind, ok_bind]
      simp only [bitsetSet_eq hi, ok_bind, pure_eq_ok]
      rfl
    · have hfull : r.Full := fun i hi => by
        by_contra hbit
        exact hclear ⟨i, hi, by simpa using hbit⟩
      have hfind := bitsetFind_full hr.bitmap hfull
      by_cases hdvd : bitPerElement ∣ r.bitmap.size
      · rw [if_pos hdvd] at hfind
        have hpassed : ∀ {pre : List Region}, (∀ s ∈ pre, s.Passed) → ∀ s ∈ r :: pre, s.Passed := by
          intro pre hpre s hs
          rcases List.mem_cons.mp hs with rfl | hs
          · exact ⟨hfull, hdvd⟩
          · exact hpre s hs
        rcases ih fun s hs' => hs s (.tail _ hs') with
          ⟨pre, region, post, i, rfl, hpre, hi, hbit, hbefore, heq⟩ | ⟨hall, heq⟩ |
          ⟨pre, region, post, rfl, hpre, hreg, hndvd, heq⟩
        · refine .inl ⟨r :: pre, region, post, i, rfl, hpassed hpre, hi, hbit, hbefore, ?_⟩
          rw [pmmAlloc, hfind, ok_bind]
          simp only [heq, ok_bind, pure_eq_ok, List.cons_append]
        · refine .inr (.inl ⟨hpassed hall, ?_⟩)
          rw [pmmAlloc, hfind, ok_bind]
          simp only [heq, ok_bind, pure_eq_ok]
        · refine .inr (.inr ⟨r :: pre, region, post, rfl, hpassed hpre, hreg, hndvd, ?_⟩)
          rw [pmmAlloc, hfind, ok_bind]
          simp only [heq, error_bind]
      · rw [if_neg hdvd] at hfind
        refine .inr (.inr ⟨[], r, rs, rfl, by simp, hfull, hdvd, ?_⟩)
        rw [pmmAlloc, hfind]
        rfl

/-! ## Disjoint regions below 4 GiB -/

/-- Sound and pairwise disjoint regions that end below 4 GiB. -/
structure Layout (regions : List Region) : Prop where
  sound : ∀ region ∈ regions, region.Sound
  below : ∀ region ∈ regions, region.Below
  disjoint : regions.Pairwise fun r s => Disjoint r.range s.range

/-- `page` is a page of some region. -/
def Page (regions : List Region) (page : ℕ) : Prop := ∃ region ∈ regions, region.HasPage page

/-- `page` is a page in use. -/
def Taken (regions : List Region) (page : ℕ) : Prop :=
  ∃ region ∈ regions, region.HasPage page ∧ region.taken page = true

instance (regions : List Region) (page : ℕ) : Decidable (Page regions page) :=
  inferInstanceAs (Decidable (∃ region ∈ regions, _))

instance (regions : List Region) (page : ℕ) : Decidable (Taken regions page) :=
  inferInstanceAs (Decidable (∃ region ∈ regions, _))

theorem Taken.page (h : Taken regions p) : Page regions p := by
  obtain ⟨region, hmem, hp, -⟩ := h
  exact ⟨region, hmem, hp⟩

namespace Layout

/-- The region of a page. -/
theorem eq_of_hasPage (hl : Layout regions) {r s : Region} (hr : r ∈ regions) (hs : s ∈ regions)
    (hrp : r.HasPage p) (hsp : s.HasPage p) : r = s := by
  by_contra hne
  have : Std.Symm fun r s : Region => Disjoint r.range s.range := ⟨fun _ _ h => h.symm⟩
  have hdisj := hl.disjoint.forall hr hs hne
  exact Set.disjoint_left.mp hdisj hrp.2 hsp.2

theorem taken_iff (hl : Layout regions) (hr : region ∈ regions) (hp : region.HasPage p) :
    Taken regions p ↔ region.taken p = true := by
  constructor
  · rintro ⟨s, hs, hsp, htaken⟩
    rwa [hl.eq_of_hasPage hr hs hp hsp]
  · exact fun htaken => ⟨region, hr, hp, htaken⟩

/-- A region may be replaced by one at the same place, where other pages may be taken. -/
theorem replace {region' : Region} (hl : Layout (pre ++ region :: post))
    (hs : region'.Sound) (haddr : region'.addr = region.addr) (hlen : region'.len = region.len) :
    Layout (pre ++ region' :: post) ∧
      (∀ q, Page (pre ++ region' :: post) q ↔ Page (pre ++ region :: post) q) ∧
      ∀ q, Taken (pre ++ region' :: post) q ↔ if region.HasPage q then region'.taken q = true
        else Taken (pre ++ region :: post) q := by
  have hmem : ∀ {P : Region → Prop}, (∀ s ∈ pre ++ region :: post, P s) → P region' →
      ∀ s ∈ pre ++ region' :: post, P s := by
    simp only [List.forall_mem_append, List.forall_mem_cons]
    exact fun hP hP' => ⟨hP.1, hP', hP.2.2⟩
  have hrange : region'.range = region.range := by rw [Region.range, Region.range, haddr, hlen]
  have hpage : ∀ q, region'.HasPage q ↔ region.HasPage q := fun q => by
    rw [Region.HasPage, Region.HasPage, haddr, hlen]
  have hl' : Layout (pre ++ region' :: post) := by
    refine ⟨hmem hl.sound hs, hmem hl.below ?_, ?_⟩
    · rw [Region.Below, haddr, hlen]
      exact hl.below region (by simp)
    · have hdisj := List.pairwise_map.mpr hl.disjoint
      rw [List.map_append, List.map_cons, ← hrange, ← List.map_cons, ← List.map_append] at hdisj
      exact List.pairwise_map.mp hdisj
  refine ⟨hl', fun q => ?_, fun q => ?_⟩
  · simp only [Page, List.mem_append, List.mem_cons, or_and_right, exists_or, exists_eq_left, hpage]
  · split
    · rename_i hq
      exact hl'.taken_iff (by simp) ((hpage q).mpr hq)
    · rename_i hq
      simp only [Taken, List.mem_append, List.mem_cons, or_and_right, exists_or, exists_eq_left,
        hpage, hq, false_and]

/-- The region that the loops over the list stop at. -/
theorem find (hl : Layout regions) (hp : Page regions p) :
    ∃ pre region post, regions = pre ++ region :: post ∧
      regions.find? (fun r => r.contains p) = some region ∧
      (∀ s ∈ pre, s.contains p = false) ∧ region.contains p = true ∧ region.HasPage p := by
  obtain ⟨r, hr, hrp⟩ := hp
  have hsome : (regions.find? fun r => r.contains p).isSome :=
    List.find?_isSome.mpr ⟨r, hr, (Region.contains_iff (hl.below r hr)).mpr hrp.2⟩
  obtain ⟨region, hfind⟩ := Option.isSome_iff_exists.mp hsome
  obtain ⟨hcontains, pre, post, rfl, hpre⟩ := List.find?_eq_some_iff_append.mp hfind
  exact ⟨pre, region, post, rfl, hfind, fun s hs => by simpa using hpre s hs, hcontains, hrp.1,
    (Region.contains_iff (hl.below region (by simp))).mp hcontains⟩

end Layout

variable {f : Region → Except Fault Region}

theorem onRegion_eq (hpre : ∀ s ∈ pre, s.contains p = false) (hregion : region.contains p = true) :
    onRegion p f (pre ++ region :: post) = do
      let region' ← f region
      return pre ++ region' :: post := by
  induction pre with
  | nil => rw [List.nil_append, onRegion, if_pos hregion]; rfl
  | cons s pre ih =>
    rw [List.cons_append, onRegion, if_neg (by simp [hpre s (.head _)]),
      ih fun t ht => hpre t (.tail _ ht)]
    cases f region <;> rfl

theorem onRegion_abort
    (hpre : ∀ s ∈ regions, s.contains p = false) : onRegion p f regions = .error .abort := by
  induction regions with
  | nil => rfl
  | cons s regions ih =>
    rw [onRegion, if_neg (by simp [hpre s (.head _)]),
      ih fun t ht => hpre t (.tail _ ht)]
    rfl

/-! ## The operations on pages -/

section Operations

variable (hl : Layout regions)

include hl

theorem pmmExists_eq (hp : p % pageSize = 0) :
    pmmExists regions p = .ok (decide (Page regions p)) := by
  rw [pmmExists, check_of _ hp, ok_bind, pure_eq_ok]
  congr 1
  rw [Bool.eq_iff_iff, List.any_eq_true, decide_eq_true_iff]
  refine exists_congr fun r => and_congr_right fun hr => ?_
  rw [Region.contains_iff (hl.below r hr)]
  exact ⟨fun h => ⟨hp, h⟩, fun h => h.2⟩

theorem pmmReserved_eq (hp : Page regions p) :
    pmmReserved regions p = .ok (decide (Taken regions p)) := by
  obtain ⟨pre, region, post, rfl, hfind, -, -, hpage⟩ := hl.find hp
  have hmem : region ∈ pre ++ region :: post := by simp
  have hs := hl.sound region hmem
  rw [pmmReserved, check_of _ hpage.1, ok_bind, hfind]
  simp only
  rw [Region.index_eq (hl.below region hmem) hpage, bitsetTest_eq (hs.index_lt hpage)]
  congr 1
  rw [Bool.eq_iff_iff, decide_eq_true_iff, hl.taken_iff hmem hpage]
  rfl

end Operations

/-- One more page is taken. -/
structure Takes (regions : List Region) (p : ℕ) (regions' : List Region) : Prop where
  layout : Layout regions'
  page_iff : ∀ q, Page regions' q ↔ Page regions q
  page : Page regions p
  free : ¬ Taken regions p
  taken_iff : ∀ q, Taken regions' q ↔ q = p ∨ Taken regions q

/-- A page is no longer taken. -/
structure Frees (regions : List Region) (p : ℕ) (regions' : List Region) : Prop where
  layout : Layout regions'
  page_iff : ∀ q, Page regions' q ↔ Page regions q
  taken : Taken regions p
  taken_iff : ∀ q, Taken regions' q ↔ q ≠ p ∧ Taken regions q

section Operations

variable {regions' : List Region} (hl : Layout regions)

include hl

theorem Layout.takes (hr : regions = pre ++ region :: post) (hp : region.HasPage p)
    (hfree : region.taken p = false) :
    Takes regions p (pre ++ region.mark ((p - region.addr) / pageSize) :: post) := by
  subst hr
  have hs := hl.sound region (by simp)
  obtain ⟨hlayout, hpage, htaken⟩ := hl.replace (hs.mark (hs.index_lt hp)) rfl rfl
  refine ⟨hlayout, hpage, ⟨region, by simp, hp⟩, ?_, fun q => ?_⟩
  · rw [hl.taken_iff (by simp) hp, hfree]
    decide
  · rw [htaken]
    split
    · rename_i hq
      rw [hs.mark_taken hp hq, hl.taken_iff (by simp) hq]
      simp
    · rename_i hq
      have hne : q ≠ p := fun h => hq (h ▸ hp)
      simp [hne]

theorem Layout.frees (hr : regions = pre ++ region :: post) (hp : region.HasPage p)
    (htaken : region.taken p = true) :
    Frees regions p (pre ++ region.unmark ((p - region.addr) / pageSize) :: post) := by
  subst hr
  have hs := hl.sound region (by simp)
  obtain ⟨hlayout, hpage, hiff⟩ := hl.replace (hs.unmark (hs.index_lt hp)) rfl rfl
  refine ⟨hlayout, hpage, ⟨region, by simp, hp, htaken⟩, fun q => ?_⟩
  rw [hiff]
  split
  · rename_i hq
    rw [hs.unmark_taken hp hq, hl.taken_iff (by simp) hq]
    simp
  · rename_i hq
    have hne : q ≠ p := fun h => hq (h ▸ hp)
    simp [hne]

/-- `pmm_reserve` and `pmm_free` abort on what is not a page. -/
theorem Layout.onRegion_abort (ha : p % pageSize = 0)
    (hp : ¬ Page regions p) : onRegion p f regions = .error .abort := by
  refine Pmm.onRegion_abort fun s hs => ?_
  rw [← Bool.not_eq_true, Region.contains_iff (hl.below s hs)]
  exact fun h => hp ⟨s, hs, ha, h⟩

/-- The bit of a page: its test, and what an operation on its region does to the list. -/
theorem Layout.exists_bit (hp : Page regions p) : ∃ pre region post,
    regions = pre ++ region :: post ∧ region.HasPage p ∧
      region.index p = (p - region.addr) / pageSize ∧
      (p - region.addr) / pageSize < region.bitmap.size ∧
      bitsetTest region.bitmap ((p - region.addr) / pageSize) = .ok (region.taken p) ∧
      (Taken regions p ↔ region.taken p = true) ∧
      ∀ f, onRegion p f regions = f region >>= fun region' => .ok (pre ++ region' :: post) := by
  obtain ⟨pre, region, post, rfl, -, hpre, hcontains, hpage⟩ := hl.find hp
  have hmem : region ∈ pre ++ region :: post := by simp
  have hlt := (hl.sound region hmem).index_lt hpage
  exact ⟨pre, region, post, rfl, hpage, Region.index_eq (hl.below region hmem) hpage, hlt,
    bitsetTest_eq hlt, hl.taken_iff hmem hpage, fun f => onRegion_eq hpre hcontains⟩

theorem pmmReserve_of_page (hp : Page regions p) :
    Taken regions p ∧ pmmReserve regions p = .error .abort ∨
      ∃ regions', pmmReserve regions p = .ok regions' ∧ Takes regions p regions' := by
  obtain ⟨pre, region, post, hr, hpage, hindex, hlt, htest, htaken, hon⟩ := hl.exists_bit hp
  simp only [pmmReserve, check_of _ hpage.1, ok_bind, hon, hindex, htest, bitsetSet_eq hlt]
  cases hbit : region.taken p
  · rw [check_of _ rfl]
    exact .inr ⟨_, rfl, hl.takes hr hpage hbit⟩
  · rw [check_of_not _ (by decide)]
    exact .inl ⟨htaken.mpr hbit, rfl⟩

/-- **`pmm_reserve`** succeeds on free pages. -/
theorem pmmReserve_of_free (hp : Page regions p) (hfree : ¬ Taken regions p) :
    ∃ regions', pmmReserve regions p = .ok regions' ∧ Takes regions p regions' :=
  (pmmReserve_of_page hl hp).resolve_left fun h => hfree h.1

theorem pmmReserve_ok (h : pmmReserve regions p = .ok regions') : Takes regions p regions' := by
  by_cases hp : Page regions p
  · rcases pmmReserve_of_page hl hp with ⟨-, herr⟩ | ⟨regions₁, hok, htakes⟩
    · cases herr.symm.trans h
    · cases hok.symm.trans h
      exact htakes
  · simp only [pmmReserve, bind_eq_ok, check_eq_ok] at h
    obtain ⟨-, ha, hon⟩ := h
    rw [hl.onRegion_abort ha hp] at hon
    cases hon

theorem pmmFree_of_page (hp : Page regions p) :
    ¬ Taken regions p ∧ pmmFree regions p = .error .abort ∨
      ∃ regions', pmmFree regions p = .ok regions' ∧ Frees regions p regions' := by
  obtain ⟨pre, region, post, hr, hpage, hindex, hlt, htest, htaken, hon⟩ := hl.exists_bit hp
  simp only [pmmFree, check_of _ hpage.1, ok_bind, hon, hindex, htest, bitsetClear_eq hlt]
  cases hbit : region.taken p
  · rw [check_of_not _ (by decide), htaken, hbit]
    exact .inl ⟨by decide, rfl⟩
  · rw [check_of _ rfl]
    exact .inr ⟨_, rfl, hl.frees hr hpage hbit⟩

/-- **`pmm_free`** succeeds on pages in use. -/
theorem pmmFree_of_taken (hp : Taken regions p) :
    ∃ regions', pmmFree regions p = .ok regions' ∧ Frees regions p regions' :=
  (pmmFree_of_page hl hp.page).resolve_left fun h => h.1 hp

theorem pmmFree_ok (h : pmmFree regions p = .ok regions') : Frees regions p regions' := by
  by_cases hp : Page regions p
  · rcases pmmFree_of_page hl hp with ⟨-, herr⟩ | ⟨regions₁, hok, hfrees⟩
    · cases herr.symm.trans h
    · cases hok.symm.trans h
      exact hfrees
  · simp only [pmmFree, bind_eq_ok, check_eq_ok] at h
    obtain ⟨-, ha, hon⟩ := h
    rw [hl.onRegion_abort ha hp] at hon
    cases hon

/-- **`pmm_alloc`** takes a free page, if it returns one. -/
theorem pmmAlloc_some {frame : ℕ} (h : pmmAlloc regions = .ok (regions', some frame)) :
    Takes regions frame regions' := by
  rcases pmmAlloc_cases hl.sound with
    ⟨pre, region, post, i, hr, -, hi, hbit, -, heq⟩ | ⟨_, heq⟩ | ⟨_, _, _, _, _, _, _, heq⟩
  · have hmem : region ∈ regions := by simp [hr]
    obtain ⟨hpage, hidx⟩ := (hl.sound region hmem).hasPage_index hi
    have htakes := hl.takes hr hpage (by rw [Region.taken, hidx]; exact hbit)
    rw [hidx] at htakes
    rw [addW_of_lt (hpage.2.2.trans (hl.below region hmem))] at heq
    cases h.symm.trans heq
    exact htakes
  · exact nomatch h.symm.trans heq
  · exact nomatch h.symm.trans heq

/-- `pmm_alloc` returns no page only when all are taken. -/
theorem pmmAlloc_none (h : pmmAlloc regions = .ok (regions', none)) :
    regions' = regions ∧ ∀ q, Page regions q → Taken regions q := by
  rcases pmmAlloc_cases hl.sound with
    ⟨_, _, _, _, _, _, _, _, _, heq⟩ | ⟨hall, heq⟩ | ⟨_, _, _, _, _, _, _, heq⟩
  · exact nomatch h.symm.trans heq
  · cases h.symm.trans heq
    refine ⟨rfl, fun q ⟨region, hmem, hq⟩ => ⟨region, hmem, hq, ?_⟩⟩
    exact (hl.sound region hmem).full_iff.mp (hall region hmem).1 q hq
  · exact nomatch h.symm.trans heq

end Operations

end Regions

/-! ## Supply -/

/-- The next `n` calls of `pmm_alloc` find a frame. -/
def provides : ℕ → List Region → Bool
  | 0, _ => true
  | n + 1, regions =>
    match pmmAlloc regions with
    | .ok (regions, some _) => provides n regions
    | _ => false

variable {regions regions' : List Region} {n : ℕ}

theorem provides_of_alloc {frame : ℕ} (h : pmmAlloc regions = .ok (regions', some frame)) :
    provides (n + 1) regions = provides n regions' := by
  rw [provides, h]

theorem exists_of_provides (h : provides (n + 1) regions = true) :
    ∃ regions' frame, pmmAlloc regions = .ok (regions', some frame) ∧
      provides n regions' = true := by
  unfold provides at h
  split at h
  · rename_i regions' frame halloc
    exact ⟨regions', frame, halloc, h⟩
  · exact nomatch h

theorem provides_mono {m : ℕ} (hmn : m ≤ n)
    (h : provides n regions = true) : provides m regions = true := by
  induction m generalizing n regions with
  | zero => rfl
  | succ m ih =>
    obtain ⟨n, rfl⟩ := Nat.exists_eq_succ_of_ne_zero (by omega : n ≠ 0)
    obtain ⟨regions', frame, halloc, h'⟩ := exists_of_provides h
    rw [provides_of_alloc halloc]
    exact ih (by omega) h'

end Rastapopoulos.Pmm
