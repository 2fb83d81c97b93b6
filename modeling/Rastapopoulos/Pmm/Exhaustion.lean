import Mathlib.Data.Finset.Card
import Mathlib.Data.Finset.Range
import Mathlib.Data.List.Forall2
import Rastapopoulos.Pmm.Ownership

/-!
# Running out of frames

The search of `pmm_alloc` goes through the regions in order. It is to pass those that are full, and
to return `INVALID_FRAME` behind the last one. In a full region whose number of pages is not a
multiple of 32 it fails instead, for the padding bits of the last word look like a free page to the
search for a word (`bitsetFind_full`). `orderly_iff` says that this is all that can go wrong, in any
state of any run, and `provides_iff` how many frames can be had.
-/

namespace Rastapopoulos.Pmm

open KernelHeap (pageSize)

variable {regions regions' : List Region} {p : ℕ}

/-! ## Regions along a run -/

/-- Only bits have changed, within the bitset. -/
structure Region.Evolves (region region' : Region) : Prop where
  addr_eq : region'.addr = region.addr
  size_eq : region'.bitmap.size = region.bitmap.size
  sound : region.Sound → region'.Sound

namespace Region.Evolves

variable {region : Region} {i : ℕ}

theorem refl (region : Region) : region.Evolves region := ⟨rfl, rfl, id⟩

theorem mark (hi : i < region.bitmap.size) : region.Evolves (region.mark i) :=
  ⟨rfl, rfl, fun h => h.mark hi⟩

theorem unmark (hi : i < region.bitmap.size) : region.Evolves (region.unmark i) :=
  ⟨rfl, rfl, fun h => h.unmark hi⟩

end Region.Evolves

theorem onRegion_evolves {f : Region → Except Fault Region}
    (hf : ∀ region region', f region = .ok region' → region.Evolves region')
    (h : onRegion p f regions = .ok regions') : List.Forall₂ Region.Evolves regions regions' := by
  induction regions generalizing regions' with
  | nil => exact nomatch h
  | cons r rs ih =>
    rw [onRegion] at h
    split at h
    · simp only [bind_eq_ok, pure_inj] at h
      obtain ⟨r', hr', rfl⟩ := h
      exact .cons (hf r r' hr') (List.forall₂_same.mpr fun s _ => .refl s)
    · simp only [bind_eq_ok, pure_inj] at h
      obtain ⟨rs', hrs', rfl⟩ := h
      exact .cons (.refl r) (ih hrs')

theorem pmmReserve_evolves (h : pmmReserve regions p = .ok regions') :
    List.Forall₂ Region.Evolves regions regions' := by
  simp only [pmmReserve, bind_eq_ok] at h
  obtain ⟨-, -, h⟩ := h
  refine onRegion_evolves (fun r r' hf => ?_) h
  simp only [bitsetSet, bind_eq_ok, check_eq_ok, pure_inj] at hf
  obtain ⟨_, -, _, -, bitmap, ⟨_, hlt, rfl⟩, rfl⟩ := hf
  exact .mark hlt

theorem pmmFree_evolves (h : pmmFree regions p = .ok regions') :
    List.Forall₂ Region.Evolves regions regions' := by
  simp only [pmmFree, bind_eq_ok] at h
  obtain ⟨-, -, h⟩ := h
  refine onRegion_evolves (fun r r' hf => ?_) h
  simp only [bitsetClear, bind_eq_ok, check_eq_ok, pure_inj] at hf
  obtain ⟨_, -, _, -, bitmap, ⟨_, hlt, rfl⟩, rfl⟩ := hf
  exact .unmark hlt

theorem pmmAlloc_evolves {found : Option ℕ} (h : pmmAlloc regions = .ok (regions', found)) :
    List.Forall₂ Region.Evolves regions regions' := by
  induction regions generalizing regions' with
  | nil =>
    cases h
    exact .nil
  | cons r rs ih =>
    rw [pmmAlloc, bind_eq_ok] at h
    obtain ⟨index, -, h⟩ := h
    cases index with
    | some index =>
      simp only [bitsetSet, bind_eq_ok, check_eq_ok, pure_inj,
        Prod.mk.injEq] at h
      obtain ⟨_, ⟨_, hlt, rfl⟩, rfl, -⟩ := h
      exact .cons (.mark hlt) (List.forall₂_same.mpr fun s _ => .refl s)
    | none =>
      simp only [bind_eq_ok, pure_inj, Prod.mk.injEq, Prod.exists] at h
      obtain ⟨rs', found', hrs', rfl, rfl⟩ := h
      exact .cons (.refl r) (ih hrs')

theorem step_evolves {s s' : Owned} {op : Op} (h : step s op = .ok s') :
    List.Forall₂ Region.Evolves s.regions s'.regions := by
  cases op with
  | reserve page =>
    simp only [step, bind_eq_ok, pure_inj] at h
    obtain ⟨regions', hreserve, rfl⟩ := h
    exact pmmReserve_evolves hreserve
  | alloc =>
    simp only [step, bind_eq_ok, pure_inj, Prod.exists] at h
    obtain ⟨regions', found, halloc, rfl⟩ := h
    exact pmmAlloc_evolves halloc
  | free page =>
    simp only [step, bind_eq_ok, pure_inj] at h
    obtain ⟨regions', hfree, rfl⟩ := h
    exact pmmFree_evolves hfree

/-- Where a region is, and how many pages it has. -/
def Region.shape (region : Region) : ℕ × ℕ := (region.addr, region.bitmap.size)

theorem map_shape_of_evolves (h : List.Forall₂ Region.Evolves regions regions') :
    regions'.map Region.shape = regions.map Region.shape := by
  induction h with
  | nil => rfl
  | cons hr _ ih =>
    rw [List.map_cons, List.map_cons, ih, Region.shape, Region.shape, hr.addr_eq, hr.size_eq]

theorem sound_of_evolves (h : List.Forall₂ Region.Evolves regions regions')
    (hs : ∀ region ∈ regions, region.Sound) : ∀ region ∈ regions', region.Sound := by
  induction h with
  | nil => exact hs
  | cons hr _ ih =>
    rw [List.forall_mem_cons] at hs ⊢
    exact ⟨hr.sound hs.1, ih hs.2⟩

/-- In a run regions stay where they are, and sound. -/
theorem regions_of_reach {s₀ s : Owned} (h₀ : ∀ region ∈ s₀.regions, region.Sound)
    (hrun : Reach step (fun _ _ => True) s₀ s) :
    s.regions.map Region.shape = s₀.regions.map Region.shape ∧
      ∀ region ∈ s.regions, region.Sound := by
  refine hrun.invariant (P := fun s => s.regions.map Region.shape = s₀.regions.map Region.shape ∧
    ∀ region ∈ s.regions, region.Sound) ⟨rfl, h₀⟩ fun s op s' h _ hstep => ?_
  have hev := step_evolves hstep
  exact ⟨(map_shape_of_evolves hev).trans h.1, sound_of_evolves hev h.2⟩

/-! ## Orderly searches -/

/-- `pmm_alloc` returns a free page where there is one, and `INVALID_FRAME` where there is none. -/
structure Orderly (regions : List Region) : Prop where
  page : (∃ region ∈ regions, ¬ region.Full) → ∃ regions', ∃ region ∈ regions,
    ∃ i < region.bitmap.size, region.bitmap.bit i = false ∧
      pmmAlloc regions = .ok (regions', some (addW region.addr (i * pageSize)))
  none : (∀ region ∈ regions, region.Full) → pmmAlloc regions = .ok (regions, none)

/-- The full regions in front of the first one that is not have no padding. -/
def Unpadded (regions : List Region) : Prop :=
  ∀ pre region post, regions = pre ++ region :: post → (∀ s ∈ pre, s.Full) → region.Full →
    bitPerElement ∣ region.bitmap.size

/-- **Exhaustion.** For any regions, and in every state that reservations, allocations and frees
lead to, `pmm_alloc` is orderly if and only if no full region with padding stands in front of the
first region with a free page. -/
theorem orderly_iff {regions₀ : List Region} {s : Owned} (h₀ : ∀ region ∈ regions₀, region.Fresh)
    (hrun : Reach step (fun _ _ => True) ⟨regions₀, [], []⟩ s) :
    Orderly s.regions ↔ Unpadded s.regions := by
  have hs := (regions_of_reach (fun region hr => (h₀ region hr).1) hrun).2
  generalize s.regions = regions at hs
  constructor
  · intro horderly pre region post heq hpre hfull
    by_contra hdvd
    -- the search fails in the first full region with padding
    rcases pmmAlloc_cases hs with
      ⟨pre', r, post', i, heq', hpre', hi, hbit, -, -⟩ | ⟨hall, -⟩ | ⟨_, _, _, _, _, _, _, herr⟩
    · have hr : ¬ r.Full := fun hr => absurd ((hr i hi).symm.trans hbit) (by decide)
      rcases List.append_eq_append_iff.mp (heq.symm.trans heq') with
        ⟨mid, rfl, hmid⟩ | ⟨mid, rfl, hmid⟩
      · obtain _ | ⟨x, mid⟩ := mid
        · cases hmid
          exact hr hfull
        · cases hmid
          exact hdvd (hpre' region (by simp)).2
      · obtain _ | ⟨x, mid⟩ := mid
        · cases hmid
          exact hr hfull
        · cases hmid
          exact hr (hpre r (by simp))
    · exact hdvd (hall region (by simp [heq])).2
    · by_cases hex : ∃ region ∈ regions, ¬ region.Full
      · obtain ⟨regions', _, _, _, _, _, hok⟩ := horderly.page hex
        exact nomatch hok.symm.trans herr
      · push Not at hex
        exact nomatch (horderly.none hex).symm.trans herr
  · intro hunpadded
    rcases pmmAlloc_cases hs with
      ⟨pre, r, post, i, rfl, hpre, hi, hbit, -, hok⟩ | ⟨hall, hok⟩ |
      ⟨pre, r, post, rfl, hpre, hfull, hndvd, -⟩
    · refine ⟨fun _ => ⟨_, r, by simp, i, hi, hbit, hok⟩, fun hall => ?_⟩
      exact absurd ((hall r (by simp) i hi).symm.trans hbit) (by decide)
    · exact ⟨fun ⟨r, hr, hn⟩ => absurd (hall r hr).1 hn, fun _ => hok⟩
    · exact absurd (hunpadded pre r post rfl (fun s hs => (hpre s hs).1) hfull) hndvd

/-- A region of 32 pages, all of them taken. -/
theorem orderly_full : ∃ s : Owned, Reach step (fun _ _ => True)
      ⟨[⟨0x1000, 0x20000, ⟨32, [0]⟩⟩], [], []⟩ s ∧ s.allocated.length = 32 ∧
      Orderly s.regions ∧ pmmAlloc s.regions = .ok (s.regions, none) := by
  obtain ⟨s, hrun, hlen, hregions⟩ := Reach.exists_of_run step (fun _ _ => True)
    ⟨[⟨0x1000, 0x20000, ⟨32, [0]⟩⟩], [], []⟩ (List.replicate 32 .alloc)
    (fun s => s.allocated.length = 32 ∧
      s.regions = [⟨0x1000, 0x20000, ⟨32, [BitVec.allOnes 32]⟩⟩]) (by decide +kernel)
  have hinit : pmmInit [⟨0x1000, 0x20000, 1⟩] = .ok [⟨0x1000, 0x20000, ⟨32, [0]⟩⟩] := by
    decide +kernel
  have horderly := (orderly_iff (pmmInit_fresh hinit) hrun).mpr ?_
  · refine ⟨s, hrun, hlen, horderly, horderly.none ?_⟩
    rw [hregions]
    decide
  · rw [hregions]
    intro pre region post heq _ _
    have hmem : region ∈ [(⟨0x1000, 0x20000, ⟨32, [BitVec.allOnes 32]⟩⟩ : Region)] := by
      rw [heq]
      simp
    cases List.mem_singleton.mp hmem
    decide

/-- A region of one page: the second allocation runs into the assertion of `bitset_test`. -/
theorem not_orderly : ¬ ∀ (regions₀ : List Region) (s : Owned),
    (∀ region ∈ regions₀, region.Fresh) →
    Reach step (fun _ _ => True) ⟨regions₀, [], []⟩ s → Orderly s.regions := by
  intro h
  obtain ⟨s, hrun, hregions⟩ := Reach.exists_of_run step (fun _ _ => True)
    ⟨[⟨0x1000, 0x1000, ⟨1, [0]⟩⟩], [], []⟩ [.alloc]
    (fun s => s.regions = [⟨0x1000, 0x1000, ⟨1, [1]⟩⟩]) (by decide +kernel)
  have hinit : pmmInit [⟨0x1000, 0x1000, 1⟩] = .ok [⟨0x1000, 0x1000, ⟨1, [0]⟩⟩] := by decide +kernel
  have hnone := (h _ s (pmmInit_fresh hinit) hrun).none
  rw [hregions] at hnone
  have herr : pmmAlloc [⟨0x1000, 0x1000, ⟨1, [1]⟩⟩] = .error .assertion := by decide +kernel
  exact nomatch (hnone (by decide)).symm.trans herr

/-! ## How many frames can be had -/

/-- The number of pages that are not taken. -/
def Region.freePages (region : Region) : ℕ :=
  ((Finset.range region.bitmap.size).filter fun i => region.bitmap.bit i = false).card

/-- The number of pages that are not taken, in all regions. -/
def freePages (regions : List Region) : ℕ := (regions.map Region.freePages).sum

/-- The frames that `pmm_alloc` can find: those of the regions up to the first one with padding. -/
def available : List Region → ℕ
  | [] => 0
  | region :: regions =>
    region.freePages + if bitPerElement ∣ region.bitmap.size then available regions else 0

theorem Region.Full.freePages {region : Region} (h : region.Full) : region.freePages = 0 := by
  rw [Region.freePages, Finset.card_eq_zero, Finset.filter_eq_empty_iff]
  intro i hi
  rw [h i (Finset.mem_range.mp hi)]
  decide

theorem Region.Sound.freePages_mark {region : Region} {i : ℕ} (h : region.Sound)
    (hi : i < region.bitmap.size) (hbit : region.bitmap.bit i = false) :
    (region.mark i).freePages + 1 = region.freePages := by
  have hmem : i ∈ (Finset.range region.bitmap.size).filter fun i => region.bitmap.bit i = false :=
    Finset.mem_filter.mpr ⟨Finset.mem_range.mpr hi, hbit⟩
  have hmark :
      ((Finset.range region.bitmap.size).filter fun j => (region.mark i).bitmap.bit j = false) =
      ((Finset.range region.bitmap.size).filter fun i => region.bitmap.bit i = false).erase i := by
    ext j
    have hbit' : (region.mark i).bitmap.bit j = (decide (j = i) || region.bitmap.bit j) :=
      h.bitmap.mark_bit hi
    simp only [Finset.mem_filter, Finset.mem_erase, hbit', Bool.or_eq_false_iff,
      decide_eq_false_iff_not]
    tauto
  have hcard := Finset.card_erase_add_one hmem
  rw [← hmark] at hcard
  exact hcard

/-- Regions that the search passes have no pages to give. -/
theorem available_append {pre : List Region} (hpre : ∀ region ∈ pre, region.Passed) :
    available (pre ++ regions) = available regions := by
  induction pre with
  | nil => rfl
  | cons r pre ih =>
    obtain ⟨⟨hfull, hdvd⟩, hpre⟩ := List.forall_mem_cons.mp hpre
    rw [List.cons_append, available, hfull.freePages, if_pos hdvd, Nat.zero_add, ih hpre]

/-- **Frames can be had as long as there are any in front of the first padding.** -/
theorem provides_iff {n : ℕ} (hs : ∀ region ∈ regions, region.Sound) :
    provides n regions = true ↔ n ≤ available regions := by
  induction n generalizing regions with
  | zero => simp [provides]
  | succ n ih =>
    rcases pmmAlloc_cases hs with
      ⟨pre, region, post, i, rfl, hpre, hi, hbit, -, hok⟩ | ⟨hall, hok⟩ |
      ⟨pre, region, post, rfl, hpre, hfull, hndvd, hok⟩
    · have hsound := sound_of_evolves (pmmAlloc_evolves hok) hs
      have hregion := (hs region (by simp)).freePages_mark hi hbit
      have hsize : (region.mark i).bitmap.size = region.bitmap.size := rfl
      rw [provides_of_alloc hok, ih hsound, available_append hpre, available_append hpre, available,
        available, hsize]
      omega
    · have hnone : available (regions ++ []) = available [] := available_append hall
      rw [List.append_nil] at hnone
      rw [hnone, provides, hok, available]
      simp
    · rw [available_append hpre, available, hfull.freePages, if_neg hndvd, provides, hok]
      simp

end Rastapopoulos.Pmm
