import Rastapopoulos.Pmm.Exhaustion

/-!
# The memory map

Which pages `pmm_init` makes of a memory map, and which of them `pmm_alloc` can ever return. They
are to be the pages that lie in an available entry and below 4 GiB (`Usable`). The start of an entry
is rounded up and its length adjusted in 32 bits: an entry that ends before the next page boundary
gets a region of almost 4 GiB, the length of an entry of 4 GiB or more is cut, and a region that
ends at 4 GiB is not seen by `pmm_exists`. Besides, `pmm_alloc` fails at the end of a region whose
number of pages is not a multiple of 32, so that it never comes to the regions behind it.
-/

namespace Rastapopoulos.Pmm

open KernelHeap (pageSize)

variable {regions : List Region} {entries : List MmapEntry} {e : MmapEntry} {p : ℕ}

/-! ## Words of an entry -/

theorem lodword_eq (i : BitVec 64) : lodword i = i.toNat % 2 ^ 32 := by
  exact Nat.and_two_pow_sub_one_eq_mod i.toNat 32

theorem hidword_eq (i : BitVec 64) : hidword i = i.toNat / 2 ^ 32 := by
  have hmask : ∀ j : Fin 64, (0xFFFFFFFF00000000 : BitVec 64).getLsbD (32 + j) =
      decide ((j : ℕ) < 32) := by decide
  have hshift : (i &&& 0xFFFFFFFF00000000) >>> 32 = i >>> 32 := by
    refine BitVec.eq_of_getLsbD_eq fun j hj => ?_
    rw [BitVec.getLsbD_ushiftRight, BitVec.getLsbD_ushiftRight, BitVec.getLsbD_and,
      hmask ⟨j, hj⟩]
    by_cases hlt : j < 32
    · simp [hlt]
    · rw [BitVec.getLsbD_of_ge i (32 + j) (by omega)]
      rfl
  rw [hidword, hshift, BitVec.toNat_ushiftRight, Nat.shiftRight_eq_div_pow]

namespace MmapEntry

/-- The first address of the entry. -/
def start (e : MmapEntry) : ℕ := e.addr.toNat

/-- The address behind the entry. -/
def stop (e : MmapEntry) : ℕ := e.addr.toNat + e.len.toNat

/-- Available, and with a start below 4 GiB. -/
def Low (e : MmapEntry) : Prop := e.start < wordMod ∧ e.type = multibootMemoryAvailable

instance (e : MmapEntry) : Decidable e.Low := inferInstanceAs (Decidable (_ ∧ _))

/-- The page at `p` lies in the entry and below 4 GiB. -/
def HasPage (e : MmapEntry) (p : ℕ) : Prop :=
  p % pageSize = 0 ∧ e.start ≤ p ∧ p + pageSize ≤ e.stop ∧ p + pageSize ≤ wordMod

/-- The first page boundary in or behind the entry. -/
def firstPage (e : MmapEntry) : ℕ := (e.start + 4095) / pageSize * pageSize

/-- The entry reaches a page boundary and ends below 4 GiB. -/
def Plain (e : MmapEntry) : Prop := e.firstPage ≤ e.stop ∧ e.stop < wordMod

instance (e : MmapEntry) : Decidable e.Plain := inferInstanceAs (Decidable (_ ∧ _))

/-- The entry starts behind the last page boundary below 4 GiB, so that the start of its region
wraps to address 0. -/
def Top (e : MmapEntry) : Prop := wordMod - pageSize < e.start

instance (e : MmapEntry) : Decidable e.Top := inferInstanceAs (Decidable (_ < _))

/-- The page at `p` belongs to the region of the entry, if the entry is plain or at the top. -/
def Gets (e : MmapEntry) (p : ℕ) : Prop :=
  if e.Top then p % pageSize = 0 ∧ p + pageSize ≤ e.stop % wordMod else e.HasPage p

/-- The number of pages from the first page boundary to the end, in 32 bits. -/
def pages (e : MmapEntry) : ℕ := subW e.stop e.firstPage / pageSize

/-- The region that `add_region` makes of the entry. -/
def toRegion (e : MmapEntry) : Region :=
  let addr := alignUp (lodword e.addr) pageSize
  let len := subW (lodword e.len) (subW addr (lodword e.addr)) / pageSize * pageSize
  ⟨addr, len, bitsetInit (len / pageSize)⟩

end MmapEntry

/-! ## The regions of a map -/

theorem addRegion_eq (e : MmapEntry) :
    addRegion (lodword e.addr) (lodword e.len) regions = .ok (e.toRegion :: regions) := by
  have haddr : alignUp (lodword e.addr) pageSize % pageSize = 0 := by
    rw [alignUp_page]
    exact Nat.mul_mod_left _ _
  have hlen : ∀ n, n / pageSize * pageSize % pageSize = 0 := fun n => Nat.mul_mod_left _ _
  have hlt := subW_lt (lodword e.len) (subW (alignUp (lodword e.addr) pageSize) (lodword e.addr))
  have hsize : ∀ n, n < wordMod → n / pageSize * pageSize / pageSize ≤
      elementCount (n / pageSize * pageSize / pageSize) * bitPerElement := by
    intro n hn
    rw [elementCount_eq (by unfold pageSize bitPerElement wordMod at *; omega), bitPerElement]
    omega
  simp only [addRegion, bitsetAllocSize, check_of _ haddr, check_of _ (hlen _),
    check_of _ (hsize _ hlt), ok_bind, pure_eq_ok]
  rfl

theorem initEntry_eq (e : MmapEntry) :
    initEntry regions e = .ok (if e.Low then e.toRegion :: regions else regions) := by
  have hiff : hidword e.addr = 0 ∧ e.type = multibootMemoryAvailable ↔ e.Low := by
    refine and_congr_left fun _ => ?_
    rw [hidword_eq]
    unfold MmapEntry.start wordMod
    omega
  by_cases hlow : e.Low
  · rw [initEntry, if_pos (hiff.mpr hlow), if_pos hlow, addRegion_eq]
  · rw [initEntry, if_neg (fun h => hlow (hiff.mp h)), if_neg hlow]
    rfl

/-- The available entries that start below 4 GiB, the last one first. -/
def lowEntries (entries : List MmapEntry) : List MmapEntry := (entries.filter (·.Low)).reverse

theorem mem_lowEntries : e ∈ lowEntries entries ↔ e ∈ entries ∧ e.Low := by
  simp [lowEntries]

theorem pmmInit_eq (entries : List MmapEntry) :
    pmmInit entries = .ok ((lowEntries entries).map MmapEntry.toRegion) := by
  have hfold : ∀ (entries : List MmapEntry) (regions : List Region),
      entries.foldlM initEntry regions =
        .ok ((lowEntries entries).map MmapEntry.toRegion ++ regions) := by
    intro entries
    induction entries with
    | nil => exact fun _ => rfl
    | cons e entries ih =>
      intro regions
      rw [List.foldlM_cons, initEntry_eq, ok_bind, ih]
      by_cases hlow : e.Low
      · simp [lowEntries, hlow]
      · simp [lowEntries, hlow]
  rw [pmmInit, hfold, List.append_nil]

theorem MmapEntry.toRegion_fresh (e : MmapEntry) : e.toRegion.Fresh := by
  have hadd : addRegion (lodword e.addr) (lodword e.len) [] = .ok [e.toRegion] := addRegion_eq e
  obtain ⟨region, heq, hfresh, -⟩ := addRegion_ok hadd
  cases heq
  exact hfresh

/-! ## The region of an entry -/

section ToRegion

variable (hlow : e.Low)

include hlow

theorem MmapEntry.toRegion_eq : e.toRegion.addr = e.firstPage % wordMod ∧
    e.toRegion.len = e.pages * pageSize := by
  have hstart : lodword e.addr = e.start := by
    rw [lodword_eq]
    exact Nat.mod_eq_of_lt hlow.1
  have hfirst : alignUp e.start pageSize = e.firstPage % wordMod := by
    rw [alignUp_page, addW]
    unfold firstPage pageSize wordMod
    omega
  have hshift : subW (e.firstPage % wordMod) e.start = e.firstPage - e.start := by
    have := hlow.1
    rw [subW]
    unfold firstPage pageSize wordMod at *
    omega
  have hlen : subW (lodword e.len) (e.firstPage - e.start) = subW e.stop e.firstPage := by
    rw [lodword_eq, subW, subW]
    unfold firstPage stop start pageSize wordMod
    omega
  simp only [toRegion, hstart, hfirst, hshift, hlen, pages, and_self]

theorem MmapEntry.toRegion_size : e.toRegion.bitmap.size = e.pages := by
  have hs := e.toRegion_fresh.1.len_eq
  rw [(toRegion_eq hlow).2] at hs
  exact (Nat.eq_of_mul_eq_mul_right (by decide) hs).symm

/-- **A plain entry** has a region of its pages. -/
theorem MmapEntry.toRegion_plain (htop : ¬ e.Top) (hplain : e.Plain) :
    e.toRegion.Below ∧ ∀ p, e.toRegion.HasPage p ↔ e.Gets p := by
  obtain ⟨hle, hlt⟩ := hplain
  have haddr : e.toRegion.addr = e.firstPage := by
    rw [(toRegion_eq hlow).1, Nat.mod_eq_of_lt (hle.trans_lt hlt)]
  have hlen : e.toRegion.len = (e.stop - e.firstPage) / pageSize * pageSize := by
    rw [(toRegion_eq hlow).2, pages, subW_of_le hlt hle]
  have hfirst : e.start ≤ e.firstPage ∧ e.firstPage < e.start + pageSize ∧
      e.firstPage % pageSize = 0 := by
    unfold firstPage pageSize
    omega
  refine ⟨?_, fun p => ?_⟩
  · rw [Region.Below]
    unfold pageSize wordMod at *
    omega
  · rw [Region.HasPage, Gets, if_neg htop, HasPage]
    unfold pageSize wordMod at *
    omega

/-- **An entry at the top** has a region that starts at address 0. -/
theorem MmapEntry.toRegion_top (htop : e.Top) :
    e.toRegion.Below ∧ ∀ p, e.toRegion.HasPage p ↔ e.Gets p := by
  have hlt := hlow.1
  have hfirst : e.firstPage = wordMod := by
    unfold Top at htop
    unfold firstPage pageSize wordMod at *
    omega
  have haddr : e.toRegion.addr = 0 := by
    rw [(toRegion_eq hlow).1, hfirst, Nat.mod_self]
  have hlen : e.toRegion.len = e.stop % wordMod / pageSize * pageSize := by
    rw [(toRegion_eq hlow).2, pages, subW, hfirst, Nat.add_sub_cancel]
  refine ⟨?_, fun p => ?_⟩
  · rw [Region.Below, hlen]
    unfold pageSize wordMod
    omega
  · rw [Region.HasPage, Gets, if_pos htop, hlen]
    unfold pageSize wordMod
    omega

theorem MmapEntry.toRegion_of (h : e.Plain ∨ e.Top) :
    e.toRegion.Below ∧ ∀ p, e.toRegion.HasPage p ↔ e.Gets p := by
  by_cases htop : e.Top
  · exact toRegion_top hlow htop
  · exact toRegion_plain hlow htop (h.resolve_right htop)

/-- **An entry that ends before the next page boundary** has a region that is not seen by
`pmm_exists`, and that has the last page below 4 GiB among its frames. -/
theorem MmapEntry.toRegion_short (htop : ¬ e.Top) (hshort : e.stop < e.firstPage) :
    (∀ p, e.toRegion.contains p = false) ∧
      ∃ i < e.toRegion.bitmap.size, addW e.toRegion.addr (i * pageSize) = wordMod - pageSize := by
  have hfirst : e.start ≤ e.firstPage ∧ e.firstPage < e.start + pageSize ∧
      e.firstPage % pageSize = 0 ∧ e.firstPage < wordMod ∧ e.start ≤ e.stop := by
    unfold Top at htop
    unfold firstPage stop start pageSize wordMod at *
    omega
  have haddr : e.toRegion.addr = e.firstPage := by
    rw [(toRegion_eq hlow).1, Nat.mod_eq_of_lt hfirst.2.2.2.1]
  have hpages : e.pages = 2 ^ 20 - 1 := by
    rw [pages, subW_of_lt hfirst.2.2.2.1 hshort]
    unfold pageSize wordMod at *
    omega
  have hlen : e.toRegion.len = wordMod - pageSize := by
    rw [(toRegion_eq hlow).2, hpages]
    rfl
  refine ⟨fun p => ?_, (wordMod - pageSize - e.firstPage) / pageSize, ?_, ?_⟩
  · rw [Region.contains, decide_eq_false_iff_not, addW]
    unfold pageSize wordMod at *
    omega
  · rw [toRegion_size hlow]
    unfold pageSize wordMod at *
    omega
  · rw [addW]
    unfold pageSize wordMod at *
    omega

end ToRegion

variable {region : Region} {k : ℕ} {es : List MmapEntry}

/-- The last page below 4 GiB does not exist for `pmm_exists`. -/
theorem Region.Sound.contains_last (h : region.Sound) :
    region.contains (wordMod - pageSize) = false := by
  rw [Region.contains, decide_eq_false_iff_not, addW]
  have haddr := h.addr_page
  have hlen := h.len_eq
  unfold pageSize wordMod at *
  omega

/-! ## The frames that `pmm_alloc` can return -/

/-- `frame` is returned by `pmm_alloc` in some run. -/
def Returns (regions₀ : List Region) (frame : ℕ) : Prop :=
  ∃ s regions', Reach step (fun _ _ => True) ⟨regions₀, [], []⟩ s ∧
    pmmAlloc s.regions = .ok (regions', some frame)

/-- The regions in front have no padding. -/
def InReach (regions : List Region) (region : Region) : Prop :=
  ∃ pre post, regions = pre ++ region :: post ∧ ∀ s ∈ pre, bitPerElement ∣ s.bitmap.size

/-- The address of a page, as `pmm_alloc` computes it. -/
def Region.HasFrame (region : Region) (frame : ℕ) : Prop :=
  ∃ i < region.bitmap.size, frame = addW region.addr (i * pageSize)

/-- The pages before page `k` are taken, and no others. -/
def Region.Filled (region : Region) (k : ℕ) : Prop :=
  ∀ i < region.bitmap.size, region.bitmap.bit i = decide (i < k)

variable {pre : List Region}

theorem pmmAlloc_passed {rest rest' : List Region} {found : Option ℕ}
    (hpre : ∀ s ∈ pre, s.Sound ∧ s.Passed) (h : pmmAlloc rest = .ok (rest', found)) :
    pmmAlloc (pre ++ rest) = .ok (pre ++ rest', found) := by
  induction pre with
  | nil => exact h
  | cons s pre ih =>
    rw [List.forall_mem_cons] at hpre
    obtain ⟨⟨hs, hfull, hdvd⟩, hpre⟩ := hpre
    rw [List.cons_append, pmmAlloc, bitsetFind_full hs.bitmap hfull, if_pos hdvd]
    simp only [ih hpre, ok_bind, pure_eq_ok, List.cons_append]

theorem pmmAlloc_filled (post : List Region) (hs : region.Sound)
    (hfilled : region.Filled k) (hk : k < region.bitmap.size) :
    pmmAlloc (region :: post) = .ok (region.mark k :: post,
      some (addW region.addr (k * pageSize))) := by
  have hclear : region.bitmap.bit k = false := by rw [hfilled k hk]; simp
  obtain ⟨i, hi, hbit, hbefore, hfind⟩ := bitsetFind_clear hs.bitmap ⟨k, hk, hclear⟩
  obtain rfl : i = k := by
    rcases Nat.lt_trichotomy i k with hlt | heq | hgt
    · rw [hfilled i hi] at hbit
      simp [hlt] at hbit
    · exact heq
    · exact absurd ((hbefore k hgt).symm.trans hclear) (by decide)
  rw [pmmAlloc, hfind]
  simp only [bitsetSet_eq hi, ok_bind]
  rfl

theorem Region.Filled.mark (hs : region.Sound) (h : region.Filled k)
    (hk : k < region.bitmap.size) : (region.mark k).Filled (k + 1) := by
  intro i hi
  have hbit : (region.mark k).bitmap.bit i = (decide (i = k) || region.bitmap.bit i) :=
    hs.bitmap.mark_bit hk
  rw [hbit, h i hi, Bool.eq_iff_iff]
  simp only [Bool.or_eq_true, decide_eq_true_iff]
  omega

/-- Allocations fill a region behind regions that are passed. -/
theorem reach_filled {post : List Region} {s : Owned}
    (hpre : ∀ s ∈ pre, s.Sound ∧ s.Passed) (hs : region.Sound) (hfilled : region.Filled 0)
    (hregions : s.regions = pre ++ region :: post) (hk : k ≤ region.bitmap.size) :
    ∃ s' region', Reach step (fun _ _ => True) s s' ∧ s'.regions = pre ++ region' :: post ∧
      region'.shape = region.shape ∧ region'.Sound ∧ region'.Filled k := by
  induction k with
  | zero => exact ⟨s, region, .refl, hregions, rfl, hs, hfilled⟩
  | succ k ih =>
    obtain ⟨s₁, region₁, hrun, hregions₁, hshape, hs₁, hfilled₁⟩ := ih (by omega)
    have hsize : region₁.bitmap.size = region.bitmap.size := congrArg Prod.snd hshape
    have hlt : k < region₁.bitmap.size := by omega
    have halloc := pmmAlloc_passed hpre (pmmAlloc_filled post hs₁ hfilled₁ hlt)
    rw [← hregions₁] at halloc
    refine ⟨_, region₁.mark k, .tail hrun trivial (a := .alloc) (by rw [step, halloc]; rfl), rfl,
      hshape, hs₁.mark hlt, hfilled₁.mark hs₁ hlt⟩

/-- Allocations fill regions without padding, one after the other. -/
theorem reach_passed {pre₁ rest : List Region} {s : Owned}
    (hpre : ∀ s ∈ pre, s.Sound ∧ s.Passed) (hpre₁ : ∀ s ∈ pre₁, s.Fresh)
    (hdvd : ∀ s ∈ pre₁, bitPerElement ∣ s.bitmap.size)
    (hregions : s.regions = pre ++ (pre₁ ++ rest)) :
    ∃ s' pre', Reach step (fun _ _ => True) s s' ∧ s'.regions = pre' ++ rest ∧
      ∀ s ∈ pre', s.Sound ∧ s.Passed := by
  induction pre₁ generalizing pre s with
  | nil => exact ⟨s, pre, .refl, hregions, hpre⟩
  | cons r pre₁ ih =>
    rw [List.forall_mem_cons] at hpre₁ hdvd
    obtain ⟨s₁, r', hrun, hregions₁, hshape, hs', hfilled⟩ := reach_filled hpre hpre₁.1.1
      (fun i _ => by rw [hpre₁.1.2]; rfl) hregions le_rfl
    have hsize : r'.bitmap.size = r.bitmap.size := congrArg Prod.snd hshape
    have hpassed : r'.Passed := by
      refine ⟨fun i hi => ?_, hsize ▸ hdvd.1⟩
      rw [hfilled i hi]
      simpa [hsize] using hi
    have hpre' : ∀ x ∈ pre ++ [r'], x.Sound ∧ x.Passed := by
      intro x hx
      rcases List.mem_append.mp hx with hx | hx
      · exact hpre x hx
      · cases List.mem_singleton.mp hx
        exact ⟨hs', hpassed⟩
    obtain ⟨s₂, pre'', hrun₂, hregions₂, hpre''⟩ := ih hpre' hpre₁.2 hdvd.2
      (show s₁.regions = (pre ++ [r']) ++ (pre₁ ++ rest) by simpa using hregions₁)
    exact ⟨s₂, pre'', hrun.trans hrun₂, hregions₂, hpre''⟩

/-- **What `pmm_alloc` can return**: the pages of the regions that no region with padding stands in
front of. -/
theorem returns_iff {regions₀ : List Region} (h₀ : ∀ region ∈ regions₀, region.Fresh) {frame : ℕ} :
    Returns regions₀ frame ↔ ∃ region, InReach regions₀ region ∧ region.HasFrame frame := by
  constructor
  · rintro ⟨s, regions', hrun, halloc⟩
    obtain ⟨hshape, hs⟩ := regions_of_reach (fun region hr => (h₀ region hr).1) hrun
    rcases pmmAlloc_cases hs with
      ⟨pre, region, post, i, hr, hpre, hi, -, -, heq⟩ | ⟨-, heq⟩ | ⟨_, _, _, _, _, _, _, heq⟩
    · cases halloc.symm.trans heq
      -- the region at the same place in the list at the start
      rw [hr, List.map_append] at hshape
      obtain ⟨pre₀, rest₀, hr₀, hpre₀, hrest⟩ := List.map_eq_append_iff.mp hshape.symm
      obtain ⟨region₀, post₀, rfl, hregion, -⟩ := List.map_eq_cons_iff.mp hrest
      have haddr : region₀.addr = region.addr := congrArg Prod.fst hregion
      have hsize : region₀.bitmap.size = region.bitmap.size := congrArg Prod.snd hregion
      refine ⟨region₀, ⟨pre₀, post₀, hr₀, fun t ht => ?_⟩, i, hsize ▸ hi, by rw [haddr]⟩
      have hmem : t.shape ∈ pre.map Region.shape := hpre₀ ▸ List.mem_map_of_mem ht
      obtain ⟨t', ht', hts⟩ := List.mem_map.mp hmem
      have hsize' : t'.bitmap.size = t.bitmap.size := congrArg Prod.snd hts
      exact hsize' ▸ (hpre t' ht').2
    · exact nomatch halloc.symm.trans heq
    · exact nomatch halloc.symm.trans heq
  · rintro ⟨region, ⟨pre, post, rfl, hdvd⟩, i, hi, rfl⟩
    have hfresh := h₀ region (by simp)
    have hnil : ∀ s ∈ ([] : List Region), s.Sound ∧ s.Passed := by simp
    obtain ⟨s, pre', hrun, hregions, hpre'⟩ := reach_passed hnil
      (fun s hs => h₀ s (by simp [hs])) hdvd
      (show (⟨pre ++ region :: post, [], []⟩ : Owned).regions = [] ++ (pre ++ region :: post) from rfl)
    obtain ⟨s₁, region₁, hrun₁, hregions₁, hshape, hs₁, hfilled⟩ := reach_filled hpre' hfresh.1
      (fun j _ => by rw [hfresh.2]; rfl) hregions hi.le
    have haddr : region₁.addr = region.addr := congrArg Prod.fst hshape
    have hsize : region₁.bitmap.size = region.bitmap.size := congrArg Prod.snd hshape
    have halloc := pmmAlloc_passed hpre' (pmmAlloc_filled post hs₁ hfilled (hsize ▸ hi))
    rw [← hregions₁, haddr] at halloc
    exact ⟨s₁, _, hrun.trans hrun₁, halloc⟩

/-! ## Coverage -/

/-- The page at `p` lies in an available entry and below 4 GiB. -/
def Usable (entries : List MmapEntry) (p : ℕ) : Prop :=
  ∃ e ∈ entries, e.type = multibootMemoryAvailable ∧ e.HasPage p

/-- The pages that exist, and those that `pmm_alloc` can ever return, are the usable ones. -/
structure Covers (entries : List MmapEntry) (regions₀ : List Region) : Prop where
  exists_iff : ∀ p < wordMod, p % pageSize = 0 →
    (pmmExists regions₀ p = .ok true ↔ Usable entries p)
  returns_iff : ∀ p, Returns regions₀ p ↔ Usable entries p

/-- The entries down to the first one whose number of pages is not a multiple of 32. -/
def inReach : List MmapEntry → List MmapEntry
  | [] => []
  | e :: es => e :: if bitPerElement ∣ e.pages then inReach es else []

/-- The entries behind it. -/
def beyond : List MmapEntry → List MmapEntry
  | [] => []
  | e :: es => if bitPerElement ∣ e.pages then beyond es else es

/-- The memory maps that `pmm_init` and `pmm_alloc` treat well: the entries in reach reach a page
boundary and end below 4 GiB, and those out of reach have no page. An entry that wraps may add pages
from address 0 on that are usable anyway. -/
structure Coverable (entries : List MmapEntry) : Prop where
  plain : ∀ e ∈ inReach (lowEntries entries), e.Plain ∨ e.Top
  wrapped : ∀ e ∈ lowEntries entries, e.Top → ∀ p, e.Gets p → Usable entries p
  hidden : ∀ e ∈ beyond (lowEntries entries), ∀ p, e.HasPage p →
    ∃ e' ∈ inReach (lowEntries entries), e'.Top ∧ e'.Gets p

theorem inReach_append_beyond (es : List MmapEntry) : inReach es ++ beyond es = es := by
  induction es with
  | nil => rfl
  | cons e es ih =>
    by_cases hdvd : bitPerElement ∣ e.pages
    · simp [inReach, beyond, hdvd, ih]
    · simp [inReach, beyond, hdvd]

theorem mem_inReach_or : e ∈ es ↔ e ∈ inReach es ∨ e ∈ beyond es := by
  rw [← List.mem_append, inReach_append_beyond]

/-- The regions in reach are those of the entries in reach. -/
theorem inReach_map (hlow : ∀ e ∈ es, e.Low) :
    InReach (es.map MmapEntry.toRegion) region ↔ ∃ e ∈ inReach es, e.toRegion = region := by
  induction es with
  | nil => simp [InReach, inReach]
  | cons e es ih =>
    rw [List.forall_mem_cons] at hlow
    have hsize := MmapEntry.toRegion_size hlow.1
    have hcons : InReach ((e :: es).map MmapEntry.toRegion) region ↔ e.toRegion = region ∨
        bitPerElement ∣ e.pages ∧ InReach (es.map MmapEntry.toRegion) region := by
      constructor
      · rintro ⟨_ | ⟨x, pre⟩, post, heq, hdvd⟩
        · cases heq
          exact .inl rfl
        · obtain ⟨rfl, htail⟩ := List.cons.inj heq
          rw [List.forall_mem_cons, hsize] at hdvd
          exact .inr ⟨hdvd.1, pre, post, htail, hdvd.2⟩
      · rintro (rfl | ⟨hdvd, pre, post, heq, hpre⟩)
        · exact ⟨[], _, rfl, by simp⟩
        · refine ⟨e.toRegion :: pre, post, by rw [List.map_cons, heq]; rfl, ?_⟩
          rw [List.forall_mem_cons, hsize]
          exact ⟨hdvd, hpre⟩
    rw [hcons, ih hlow.2, inReach]
    by_cases hdvd : bitPerElement ∣ e.pages
    · simp [hdvd]
    · simp [hdvd]

theorem usable_iff : Usable entries p ↔ ∃ e ∈ lowEntries entries, e.HasPage p := by
  constructor
  · rintro ⟨e, he, htype, hp⟩
    refine ⟨e, mem_lowEntries.mpr ⟨he, ?_, htype⟩, hp⟩
    obtain ⟨-, hstart, -, hlt⟩ := hp
    unfold pageSize at hlt
    omega
  · rintro ⟨e, he, hp⟩
    obtain ⟨he, -, htype⟩ := mem_lowEntries.mp he
    exact ⟨e, he, htype, hp⟩

/-- The pages that exist after `pmm_init`. -/
theorem pmmExists_map (hp : p % pageSize = 0) :
    pmmExists (es.map MmapEntry.toRegion) p = .ok true ↔
      ∃ e ∈ es, e.toRegion.contains p = true := by
  rw [pmmExists, check_of _ hp]
  simp

/-- The pages that `pmm_alloc` can return after `pmm_init`. -/
theorem returns_map (hlow : ∀ e ∈ es, e.Low) :
    Returns (es.map MmapEntry.toRegion) p ↔ ∃ e ∈ inReach es, e.toRegion.HasFrame p := by
  have hfresh : ∀ region ∈ es.map MmapEntry.toRegion, region.Fresh := by
    intro region hr
    obtain ⟨e, -, rfl⟩ := List.mem_map.mp hr
    exact e.toRegion_fresh
  rw [returns_iff hfresh]
  constructor
  · rintro ⟨region, hreach, hframe⟩
    obtain ⟨e, he, rfl⟩ := (inReach_map hlow).mp hreach
    exact ⟨e, he, hframe⟩
  · rintro ⟨e, he, hframe⟩
    exact ⟨e.toRegion, (inReach_map hlow).mpr ⟨e, he, rfl⟩, hframe⟩

theorem Region.Sound.hasFrame_iff (h : region.Sound) (hbelow : region.Below) :
    region.HasFrame p ↔ region.HasPage p := by
  constructor
  · rintro ⟨i, hi, rfl⟩
    have hpage := (h.hasPage_index hi).1
    rwa [addW_of_lt (hpage.2.2.trans hbelow)]
  · intro hp
    refine ⟨_, h.index_lt hp, ?_⟩
    have haddr := h.addr_page
    obtain ⟨hmod, hle, hlt⟩ := hp
    have heq : region.addr + (p - region.addr) / pageSize * pageSize = p := by
      unfold pageSize at *
      omega
    rw [addW_of_lt (by rw [heq]; exact hlt.trans hbelow), heq]

namespace MmapEntry

theorem hasFrame_iff (hlow : e.Low) (h : e.Plain ∨ e.Top) : e.toRegion.HasFrame p ↔ e.Gets p := by
  obtain ⟨hbelow, hpages⟩ := toRegion_of hlow h
  rw [e.toRegion_fresh.1.hasFrame_iff hbelow, hpages]

theorem contains_iff (hlow : e.Low) (h : e.Plain ∨ e.Top) (hp : p % pageSize = 0) :
    e.toRegion.contains p = true ↔ e.Gets p := by
  obtain ⟨hbelow, hpages⟩ := toRegion_of hlow h
  rw [← hpages, Region.contains_iff hbelow]
  exact ⟨fun hc => ⟨hp, hc⟩, fun hc => hc.2⟩

theorem hasPage_last (htop : ¬ e.Top) (hstop : wordMod ≤ e.stop) :
    e.HasPage (wordMod - pageSize) := by
  refine ⟨by decide, Nat.not_lt.mp htop, ?_, by decide⟩
  rwa [Nat.sub_add_cancel (by decide)]
theorem Gets.aligned (h : e.Gets p) : p % pageSize = 0 := by
  unfold Gets at h
  split at h
  · exact h.1
  · exact h.1

theorem HasPage.not_top (h : e.HasPage p) : ¬ e.Top := by
  obtain ⟨-, hstart, -, hlt⟩ := h
  unfold Top
  omega

theorem HasPage.gets (h : e.HasPage p) : e.Gets p := by
  rwa [Gets, if_neg h.not_top]

theorem Gets.hasPage (h : e.Gets p) (htop : ¬ e.Top) : e.HasPage p := by
  rwa [Gets, if_neg htop] at h

/-- The last page below 4 GiB belongs to no region of a plain entry or of one at the top. -/
theorem Gets.ne_last (h : e.Gets p) (hgood : e.Plain ∨ e.Top) : p ≠ wordMod - pageSize := by
  rintro rfl
  by_cases htop : e.Top
  · rw [Gets, if_pos htop] at h
    exact absurd h.2 (Nat.not_le.mpr (Nat.mod_lt _ (by decide)))
  · have hle := (h.hasPage htop).2.2.1
    exact absurd (hgood.resolve_right htop).2 (Nat.not_lt.mpr hle)

end MmapEntry

section Coverage

variable (hlow : ∀ e ∈ lowEntries entries, e.Low)

include hlow

theorem Coverable.covers (h : Coverable entries) :
    Covers entries ((lowEntries entries).map MmapEntry.toRegion) := by
  -- every usable page belongs to an entry in reach
  have hreached : ∀ p, Usable entries p → ∃ e ∈ inReach (lowEntries entries), e.Gets p := by
    intro p hp
    obtain ⟨e, he, hp⟩ := usable_iff.mp hp
    rcases mem_inReach_or.mp he with he | he
    · exact ⟨e, he, hp.gets⟩
    · obtain ⟨e', he', -, hgets⟩ := h.hidden e he p hp
      exact ⟨e', he', hgets⟩
  have husable : ∀ e ∈ lowEntries entries, ∀ p, e.Gets p → Usable entries p := by
    intro e he p hp
    by_cases htop : e.Top
    · exact h.wrapped e he htop p hp
    · exact usable_iff.mpr ⟨e, he, hp.hasPage htop⟩
  have hmem : ∀ e ∈ inReach (lowEntries entries), e ∈ lowEntries entries :=
    fun e he => mem_inReach_or.mpr (.inl he)
  refine ⟨fun p _ hp => ?_, fun p => ?_⟩
  · rw [pmmExists_map hp]
    constructor
    · rintro ⟨e, he, hc⟩
      by_cases hgood : e.Plain ∨ e.Top
      · exact husable e he p ((MmapEntry.contains_iff (hlow e he) hgood hp).mp hc)
      · obtain ⟨hplain, htop⟩ := not_or.mp hgood
        by_cases hshort : e.stop < e.firstPage
        · rw [(MmapEntry.toRegion_short (hlow e he) htop hshort).1 p] at hc
          exact absurd hc (by decide)
        · -- the entry has the last page, which no entry in reach has
          have hstop : wordMod ≤ e.stop := by
            by_contra hlt
            exact hplain ⟨Nat.not_lt.mp hshort, Nat.not_le.mp hlt⟩
          obtain ⟨e', he', hgets⟩ := hreached _
            (usable_iff.mpr ⟨e, he, MmapEntry.hasPage_last htop hstop⟩)
          exact absurd rfl (hgets.ne_last (h.plain e' he'))
    · intro hp'
      obtain ⟨e, he, hgets⟩ := hreached p hp'
      exact ⟨e, hmem e he,
        (MmapEntry.contains_iff (hlow e (hmem e he)) (h.plain e he) hp).mpr hgets⟩
  · rw [returns_map hlow]
    constructor
    · rintro ⟨e, he, hframe⟩
      rw [MmapEntry.hasFrame_iff (hlow e (hmem e he)) (h.plain e he)] at hframe
      exact husable e (hmem e he) p hframe
    · intro hp
      obtain ⟨e, he, hgets⟩ := hreached p hp
      exact ⟨e, he, (MmapEntry.hasFrame_iff (hlow e (hmem e he)) (h.plain e he)).mpr hgets⟩

theorem Covers.coverable
    (hdisj : (lowEntries entries).Pairwise fun e e' =>
      Disjoint (Set.Ico e.start e.stop) (Set.Ico e'.start e'.stop))
    (h : Covers entries ((lowEntries entries).map MmapEntry.toRegion)) : Coverable entries := by
  have hmem : ∀ e ∈ inReach (lowEntries entries), e ∈ lowEntries entries :=
    fun e he => mem_inReach_or.mpr (.inl he)
  have hlast : ¬ Usable entries (wordMod - pageSize) := by
    intro hu
    obtain ⟨e, -, hc⟩ :=
      (pmmExists_map (by decide)).mp ((h.exists_iff _ (by decide) (by decide)).mpr hu)
    rw [e.toRegion_fresh.1.contains_last] at hc
    exact absurd hc (by decide)
  have hplain : ∀ e ∈ inReach (lowEntries entries), e.Plain ∨ e.Top := by
    intro e he
    have hl := hlow e (hmem e he)
    by_cases htop : e.Top
    · exact .inr htop
    refine .inl ⟨?_, ?_⟩
    · by_contra hshort
      obtain ⟨-, i, hi, hframe⟩ := MmapEntry.toRegion_short hl htop (Nat.not_le.mp hshort)
      exact hlast ((h.returns_iff _).mp ((returns_map hlow).mpr ⟨e, he, i, hi, hframe.symm⟩))
    · by_contra hstop
      exact hlast (usable_iff.mpr
        ⟨e, hmem e he, MmapEntry.hasPage_last htop (Nat.not_lt.mp hstop)⟩)
  refine ⟨hplain, fun e he htop p hp => ?_, fun e he p hp => ?_⟩
  · have hlt : p < wordMod := by
      rw [MmapEntry.Gets, if_pos htop] at hp
      have := Nat.mod_lt e.stop (show wordMod > 0 by decide)
      omega
    refine (h.exists_iff p hlt hp.aligned).mp ((pmmExists_map hp.aligned).mpr ⟨e, he, ?_⟩)
    exact (MmapEntry.contains_iff (hlow e he) (.inr htop) hp.aligned).mpr hp
  · have hu : Usable entries p := usable_iff.mpr ⟨e, mem_inReach_or.mpr (.inr he), hp⟩
    obtain ⟨e', he', hframe⟩ := (returns_map hlow).mp ((h.returns_iff p).mpr hu)
    have hgets := (MmapEntry.hasFrame_iff (hlow e' (hmem e' he')) (hplain e' he')).mp hframe
    refine ⟨e', he', ?_, hgets⟩
    -- otherwise the page lies in two entries
    by_contra htop
    rw [← inReach_append_beyond (lowEntries entries), List.pairwise_append] at hdisj
    have hin : ∀ x : MmapEntry, x.HasPage p → p ∈ Set.Ico x.start x.stop := by
      rintro x ⟨-, hstart, hstop, -⟩
      refine ⟨hstart, lt_of_lt_of_le ?_ hstop⟩
      exact Nat.lt_add_of_pos_right (by decide)
    exact Set.disjoint_left.mp (hdisj.2.2 e' he' e he) (hin e' (hgets.hasPage htop)) (hin e hp)

end Coverage

theorem pairwise_lowEntries
    (hdisj : entries.Pairwise fun e e' =>
      Disjoint (Set.Ico e.start e.stop) (Set.Ico e'.start e'.stop)) :
    (lowEntries entries).Pairwise fun e e' =>
      Disjoint (Set.Ico e.start e.stop) (Set.Ico e'.start e'.stop) := by
  rw [lowEntries, List.pairwise_reverse]
  exact (hdisj.filter _).imp fun h => h.symm

/-- **Memory map coverage.** -/
theorem covers_iff
    (hdisj : entries.Pairwise fun e e' =>
      Disjoint (Set.Ico e.start e.stop) (Set.Ico e'.start e'.stop)) :
    ∃ regions₀, pmmInit entries = .ok regions₀ ∧
      (Covers entries regions₀ ↔ Coverable entries) := by
  have hlow : ∀ e ∈ lowEntries entries, e.Low := fun e he => (mem_lowEntries.mp he).2
  exact ⟨_, pmmInit_eq entries, fun h => h.coverable hlow (pairwise_lowEntries hdisj),
    fun h => h.covers hlow⟩

/-- Conventional memory, and 128 KiB from 1 MiB on. -/
def twoEntries : List MmapEntry := [⟨0, 0x9FC00, 1⟩, ⟨0x100000, 0x20000, 1⟩]

theorem covers_twoEntries :
    ∃ regions₀, pmmInit twoEntries = .ok regions₀ ∧ Covers twoEntries regions₀ := by
  have hdisj : twoEntries.Pairwise fun e e' =>
      Disjoint (Set.Ico e.start e.stop) (Set.Ico e'.start e'.stop) := by
    refine List.pairwise_pair.mpr (Set.disjoint_left.mpr fun a ha ha' => ?_)
    exact absurd (ha'.1.trans_lt ha.2) (by decide)
  have htop : ∀ e ∈ lowEntries twoEntries, ¬ e.Top := by decide
  have hbeyond : beyond (lowEntries twoEntries) = [] := by decide
  obtain ⟨regions₀, h₀, hiff⟩ := covers_iff hdisj
  refine ⟨regions₀, h₀, hiff.mpr ⟨by decide, fun e he ht => absurd ht (htop e he), ?_⟩⟩
  rw [hbeyond]
  nofun

/-- 16 bytes behind a page boundary become a region from the next page on. -/
theorem not_covers : ¬ ∀ (entries : List MmapEntry) (regions₀ : List Region),
    (entries.Pairwise fun e e' =>
      Disjoint (Set.Ico e.start e.stop) (Set.Ico e'.start e'.stop)) →
    pmmInit entries = .ok regions₀ → Covers entries regions₀ := by
  intro hall
  have hcovers := hall [⟨0x1001, 0x10, 1⟩] _ (List.pairwise_singleton _ _) (pmmInit_eq _)
  have hlow : ∀ e ∈ lowEntries [⟨0x1001, 0x10, 1⟩], e.Low := fun e he => (mem_lowEntries.mp he).2
  have hframe : ∃ e ∈ inReach (lowEntries [⟨0x1001, 0x10, 1⟩]), e.toRegion.HasFrame 0x2000 :=
    ⟨⟨0x1001, 0x10, 1⟩, by decide, 0, by decide, by decide⟩
  obtain ⟨e, he, -, -, -, hstop, -⟩ := (hcovers.returns_iff 0x2000).mp ((returns_map hlow).mpr hframe)
  cases List.mem_singleton.mp he
  exact absurd hstop (by decide)

end Rastapopoulos.Pmm
