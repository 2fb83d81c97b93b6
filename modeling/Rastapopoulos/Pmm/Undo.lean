import Rastapopoulos.Pmm.Exhaustion

/-!
# Freeing a frame undoes its allocation

`pmm_alloc` computes the address of a frame from its region and its bit. `pmm_free` looks for the
region by the address. Its test `page < region->addr + region->len` is in 32 bits, so that a region
that ends at 4 GiB or above has no page as far as the test is concerned
(`Region.Sound.contains_eq`). For the frames of all other regions the two agree, and `pmm_free`
gives back the bitmaps as they were (`undone_iff`).
-/

namespace Rastapopoulos.Pmm

open KernelHeap (pageSize)

variable {regions regions' pre post : List Region} {region : Region} {p i : ℕ}

/-! ## Regions in the list -/

/-- The range test of the source, for all regions. -/
theorem Region.Sound.contains_eq (h : region.Sound) (p : ℕ) :
    region.contains p = decide (region.Below ∧ region.addr ≤ p ∧ p < region.addr + region.len) := by
  by_cases hbelow : region.Below
  · rw [Bool.eq_iff_iff, Region.contains_iff hbelow, decide_eq_true_iff]
    exact ⟨fun hp => ⟨hbelow, hp⟩, fun hp => hp.2⟩
  · have haddr := h.addr_lt
    have hlen := h.len_lt
    have hwrap : addW region.addr region.len < region.addr := by
      unfold Region.Below at hbelow
      unfold addW wordMod at *
      omega
    rw [Region.contains, decide_eq_decide]
    constructor
    · exact fun hp => absurd (hp.2.trans hwrap) (Nat.not_lt.mpr hp.1)
    · exact fun hp => absurd hp.1 hbelow

/-- Regions that end below 4 GiB have no address in common. -/
def Region.Apart (r s : Region) : Prop := r.Below → s.Below → Disjoint r.range s.range

theorem Region.Apart.contains_eq_false {r : Region} (h : r.Apart region) (hr : r.Sound)
    (hbelow : region.Below) (hp : region.HasPage p) : r.contains p = false := by
  rw [hr.contains_eq, decide_eq_false_iff_not]
  rintro ⟨hr', hp'⟩
  exact Set.disjoint_left.mp (h hr' hbelow) hp' hp.2

/-- Whether regions are apart depends on where they are only. -/
theorem pairwise_apart_of_shape (hs : ∀ r ∈ regions, r.Sound) (hs' : ∀ r ∈ regions', r.Sound)
    (hshape : regions'.map Region.shape = regions.map Region.shape)
    (h : regions.Pairwise Region.Apart) : regions'.Pairwise Region.Apart := by
  -- the relation, on the addresses and the numbers of pages
  let apart : ℕ × ℕ → ℕ × ℕ → Prop := fun x y =>
    x.1 + x.2 * pageSize < wordMod → y.1 + y.2 * pageSize < wordMod →
      Disjoint (Set.Ico x.1 (x.1 + x.2 * pageSize)) (Set.Ico y.1 (y.1 + y.2 * pageSize))
  have happly : ∀ r s : Region, r.Sound → s.Sound → (apart r.shape s.shape ↔ r.Apart s) := by
    intro r s hr hs
    simp only [apart, Region.shape, Region.Apart, Region.Below, Region.range, hr.len_eq, hs.len_eq]
  have hmap : (regions.map Region.shape).Pairwise apart :=
    List.pairwise_map.mpr (h.imp_of_mem fun hr ht hapart =>
      (happly _ _ (hs _ hr) (hs _ ht)).mpr hapart)
  rw [← hshape, List.pairwise_map] at hmap
  exact hmap.imp_of_mem fun hr ht hapart => (happly _ _ (hs' _ hr) (hs' _ ht)).mp hapart

/-- A region that does not contain the page keeps its place and its bits. -/
theorem onRegion_keeps {f : Region → Except Fault Region}
    (h : onRegion p f (pre ++ region :: post) = .ok regions') (hregion : region.contains p = false) :
    ∃ pre' post', regions' = pre' ++ region :: post' ∧ pre'.length = pre.length := by
  induction pre generalizing regions' with
  | nil =>
    rw [List.nil_append, onRegion, if_neg (by simp [hregion]), bind_eq_ok] at h
    obtain ⟨post', -, h⟩ := h
    cases h
    exact ⟨[], post', rfl, rfl⟩
  | cons r pre ih =>
    rw [List.cons_append, onRegion] at h
    split at h
    · rw [bind_eq_ok] at h
      obtain ⟨r', -, h⟩ := h
      cases h
      exact ⟨r' :: pre, post, rfl, rfl⟩
    · rw [bind_eq_ok] at h
      obtain ⟨rest, hrest, h⟩ := h
      cases h
      obtain ⟨pre', post', rfl, hlen⟩ := ih hrest
      exact ⟨r :: pre', post', rfl, by rw [List.length_cons, List.length_cons, hlen]⟩

/-! ## Undoing -/

/-- The frame is a page, is reserved, and freeing it leads from `regions'` back to `regions`. -/
structure Undone (regions regions' : List Region) (frame : ℕ) : Prop where
  page : pmmExists regions' frame = .ok true
  reserved : pmmReserved regions' frame = .ok true
  free : pmmFree regions' frame = .ok regions

/-- The first region with a free page. -/
def firstFree (regions : List Region) : Option Region :=
  regions.find? fun region => !decide region.Full

theorem Region.Sound.unmark_mark (h : region.Sound) (hi : i < region.bitmap.size)
    (hbit : region.bitmap.bit i = false) : (region.mark i).unmark i = region := by
  have hdata : Bitmap.clear (Bitmap.set region.bitmap.data i) i = region.bitmap.data :=
    Bitmap.clear_set (by decide) (h.bitmap.div_lt hi) hbit
  change Region.mk region.addr region.len
    (Bitset.mk region.bitmap.size (Bitmap.clear (Bitmap.set region.bitmap.data i) i)) = region
  rw [hdata]

/-- A frame of a region that ends below 4 GiB is found in that region again. -/
theorem undone_of_below (hr : region.Sound) (hbelow : region.Below)
    (hpre : ∀ r ∈ pre, r.contains (region.addr + i * pageSize) = false)
    (hi : i < region.bitmap.size) (hbit : region.bitmap.bit i = false) :
    Undone (pre ++ region :: post) (pre ++ region.mark i :: post)
      (region.addr + i * pageSize) := by
  obtain ⟨hpage, hindex⟩ := hr.hasPage_index hi
  have hmark : (region.mark i).Sound := hr.mark hi
  have hcontains : (region.mark i).contains (region.addr + i * pageSize) = true :=
    (Region.contains_iff hbelow).mpr hpage.2
  have hidx : (region.mark i).index (region.addr + i * pageSize) = i :=
    (Region.index_eq hbelow hpage).trans hindex
  have htest : bitsetTest (region.mark i).bitmap i = .ok true := by
    rw [bitsetTest_eq (show i < (region.mark i).bitmap.size from hi)]
    congr 1
    exact (hr.bitmap.mark_bit hi).trans (by simp)
  refine ⟨?_, ?_, ?_⟩
  · rw [pmmExists, check_of _ hpage.1, ok_bind, pure_eq_ok]
    simp [hcontains]
  · have hfind : (pre ++ region.mark i :: post).find?
        (fun r => r.contains (region.addr + i * pageSize)) = some (region.mark i) :=
      List.find?_eq_some_iff_append.mpr
        ⟨hcontains, pre, post, rfl, fun r hr => by simp [hpre r hr]⟩
    rw [pmmReserved, check_of _ hpage.1, ok_bind, hfind]
    simp only [hidx, htest]
  · rw [pmmFree, check_of _ hpage.1, ok_bind, onRegion_eq hpre hcontains]
    simp only [hidx, htest, ok_bind, check_of _ trivial,
      bitsetClear_eq (show i < (region.mark i).bitmap.size from hi), pure_eq_ok]
    exact congrArg (fun r => Except.ok (pre ++ r :: post)) (hr.unmark_mark hi hbit)

/-- **Freeing undoes allocating**, in every state of every run from `pmm_init`, if and only if the
first region with a free page ends below 4 GiB. -/
theorem undone_iff {entries : List MmapEntry} {regions₀ : List Region} {s : Owned} {frame : ℕ}
    (h₀ : pmmInit entries = .ok regions₀) (hapart : regions₀.Pairwise Region.Apart)
    (hrun : Reach step (fun _ _ => True) ⟨regions₀, [], []⟩ s)
    (halloc : pmmAlloc s.regions = .ok (regions', some frame)) :
    Undone s.regions regions' frame ↔
      ∀ region, firstFree s.regions = some region → region.Below := by
  have hfresh := pmmInit_fresh h₀
  obtain ⟨hshape, hs⟩ := regions_of_reach (fun r hr => (hfresh r hr).1) hrun
  have hapart' := pairwise_apart_of_shape (fun r hr => (hfresh r hr).1) hs hshape hapart
  generalize s.regions = regions at *
  rcases pmmAlloc_cases hs with ⟨pre, region, post, i, rfl, hpre, hi, hbit, -, heq⟩ | ⟨-, heq⟩ |
    ⟨_, _, _, -, -, -, -, heq⟩
  · cases halloc.symm.trans heq
    have hr := hs region (by simp)
    have hnot : ¬ region.Full := fun hfull => by simp [hfull i hi] at hbit
    have hfirst : firstFree (pre ++ region :: post) = some region :=
      List.find?_eq_some_iff_append.mpr
        ⟨by simpa using hnot, pre, post, rfl, fun r hr => by simp [(hpre r hr).1]⟩
    constructor
    · intro hundone r hr'
      cases hfirst.symm.trans hr'
      by_contra hbelow
      -- the region of the frame is out of reach of the test, so its bit is not cleared
      have hmark := hr.mark hi
      have hout : (region.mark i).contains (addW region.addr (i * pageSize)) = false := by
        rw [hmark.contains_eq, decide_eq_false_iff_not]
        exact fun h => hbelow h.1
      have hfree := hundone.free
      rw [pmmFree, bind_eq_ok] at hfree
      obtain ⟨_, -, hfree⟩ := hfree
      obtain ⟨pre', post', hlist, hlen⟩ := onRegion_keeps hfree hout
      obtain ⟨-, htail⟩ := List.append_inj hlist hlen.symm
      have hsame : region = region.mark i := (List.cons.inj htail).1
      have hset : (region.mark i).bitmap.bit i = true :=
        (hr.bitmap.mark_bit hi).trans (by simp)
      rw [← hsame, hbit] at hset
      cases hset
    · intro hbelow
      have hb := hbelow region hfirst
      obtain ⟨hpage, -⟩ := hr.hasPage_index hi
      have hlt : region.addr + i * pageSize < wordMod := hpage.2.2.trans hb
      rw [addW_of_lt hlt]
      refine undone_of_below hr hb (fun r hr' => ?_) hi hbit
      have hpair := (List.pairwise_append.mp hapart').2.2 r hr' region (.head _)
      exact hpair.contains_eq_false (hs r (List.mem_append_left _ hr')) hb hpage
  · cases halloc.symm.trans heq
  · cases halloc.symm.trans heq

theorem undone_two_regions : ∃ regions₀ s regions',
    pmmInit [⟨0x1000, 0x4000, 1⟩, ⟨0x10000, 0x2000, 1⟩] = .ok regions₀ ∧
    Reach step (fun _ _ => True) ⟨regions₀, [], []⟩ s ∧
    pmmAlloc s.regions = .ok (regions', some 0x11000) ∧ Undone s.regions regions' 0x11000 := by
  have hinit : pmmInit [⟨0x1000, 0x4000, 1⟩, ⟨0x10000, 0x2000, 1⟩] =
      .ok [⟨0x10000, 0x2000, ⟨2, [0]⟩⟩, ⟨0x1000, 0x4000, ⟨4, [0]⟩⟩] := by decide +kernel
  obtain ⟨s, hrun, hregions⟩ := Reach.exists_of_run step (fun _ _ => True)
    ⟨[⟨0x10000, 0x2000, ⟨2, [0]⟩⟩, ⟨0x1000, 0x4000, ⟨4, [0]⟩⟩], [], []⟩
    [.alloc, .reserve 0x1000]
    (fun s => s.regions = [⟨0x10000, 0x2000, ⟨2, [1]⟩⟩, ⟨0x1000, 0x4000, ⟨4, [1]⟩⟩])
    (by decide +kernel)
  have halloc : pmmAlloc s.regions =
      .ok ([⟨0x10000, 0x2000, ⟨2, [3]⟩⟩, ⟨0x1000, 0x4000, ⟨4, [1]⟩⟩], some 0x11000) := by
    rw [hregions]
    decide +kernel
  refine ⟨_, s, _, hinit, hrun, halloc, (undone_iff hinit ?_ hrun halloc).mpr ?_⟩
  · refine List.pairwise_pair.mpr fun _ _ => Set.disjoint_left.mpr fun x hx hx' => ?_
    simp only [Region.range, Set.mem_Ico] at hx hx'
    omega
  · intro region hfirst
    rw [hregions] at hfirst
    have hregion : firstFree [⟨0x10000, 0x2000, ⟨2, [1]⟩⟩, ⟨0x1000, 0x4000, ⟨4, [1]⟩⟩] =
        some ⟨0x10000, 0x2000, ⟨2, [1]⟩⟩ := by decide +kernel
    cases hregion.symm.trans hfirst
    decide

/-- The last two pages below 4 GiB: the frame that `pmm_alloc` returns is no page for `pmm_exists`,
and `pmm_free` aborts. -/
theorem alloc_top_not_undone : ∃ regions₀ regions' frame,
    pmmInit [⟨0xFFFFE000, 0x2000, 1⟩] = .ok regions₀ ∧
    regions₀.Pairwise (fun r s => Disjoint r.range s.range) ∧
    pmmAlloc regions₀ = .ok (regions', some frame) ∧
    pmmExists regions' frame = .ok false ∧ ¬ Undone regions₀ regions' frame := by
  refine ⟨[⟨0xFFFFE000, 0x2000, ⟨2, [0]⟩⟩], [⟨0xFFFFE000, 0x2000, ⟨2, [1]⟩⟩], 0xFFFFE000,
    by decide +kernel, List.pairwise_singleton .., by decide +kernel, by decide +kernel, ?_⟩
  intro hundone
  have habort : pmmFree [⟨0xFFFFE000, 0x2000, ⟨2, [1]⟩⟩] 0xFFFFE000 ≠
      .ok [⟨0xFFFFE000, 0x2000, ⟨2, [0]⟩⟩] := by decide +kernel
  exact habort hundone.free

end Rastapopoulos.Pmm
