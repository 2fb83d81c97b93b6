import Rastapopoulos.Pmm.Regions

/-!
# Who owns a frame

Runs of `pmm_reserve`, `pmm_alloc` and `pmm_free` from the regions that `pmm_init` makes. The lists
of frames allocated and of pages reserved so far, less those freed, are kept beside the regions; the
bits are set for exactly the pages on the two lists (`owned_of_reach`).
-/

namespace Rastapopoulos.Pmm

open KernelHeap (pageSize)

variable {regions regions' : List Region} {p : ℕ}

/-! ## The regions that `pmm_init` makes -/

theorem alignUp_page (v : ℕ) : alignUp v pageSize = addW v 4095 / pageSize * pageSize :=
  alignUp_eq v (k := 12) (by decide)

/-- A region whose pages are all free. -/
def Region.Fresh (region : Region) : Prop := region.Sound ∧ ∀ i, region.bitmap.bit i = false

theorem addRegion_ok {addr len : ℕ} (h : addRegion addr len regions = .ok regions') :
    ∃ region : Region, regions' = region :: regions ∧ region.Fresh ∧
      region.addr = alignUp addr pageSize ∧
      region.len = subW len (subW (alignUp addr pageSize) addr) / pageSize * pageSize := by
  simp only [addRegion, bind_eq_ok, check_eq_ok, pure_inj] at h
  obtain ⟨-, haddr, -, -, _, -, rfl⟩ := h
  have hlt := subW_lt len (subW (alignUp addr pageSize) addr)
  generalize subW len (subW (alignUp addr pageSize) addr) = l at hlt
  have hsize : l / pageSize * pageSize / pageSize = l / pageSize :=
    Nat.mul_div_cancel _ (by decide)
  refine ⟨_, rfl, ⟨⟨haddr, ?_, ?_, ?_, ?_⟩, fun i => bitsetInit_bit⟩, rfl, rfl⟩
  · simp only [alignUp_page]
    have := addW_lt addr 4095
    unfold pageSize wordMod at *
    omega
  · simp only [bitsetInit, hsize]
  · simp only
    exact (Nat.div_mul_le_self _ _).trans_lt hlt
  · refine bitsetInit_sound ?_
    rw [hsize]
    unfold pageSize bitPerElement wordMod at *
    omega

theorem initEntry_fresh {entry : MmapEntry} (hs : ∀ region ∈ regions, region.Fresh)
    (h : initEntry regions entry = .ok regions') : ∀ region ∈ regions', region.Fresh := by
  unfold initEntry at h
  split at h
  · obtain ⟨region, rfl, hfresh, -⟩ := addRegion_ok h
    exact List.forall_mem_cons.mpr ⟨hfresh, hs⟩
  · cases h
    exact hs

theorem pmmInit_fresh {entries : List MmapEntry} (h : pmmInit entries = .ok regions) :
    ∀ region ∈ regions, region.Fresh := by
  have hfold : ∀ {entries : List MmapEntry} {regions₁ : List Region},
      (∀ region ∈ regions₁, region.Fresh) → entries.foldlM initEntry regions₁ = .ok regions →
      ∀ region ∈ regions, region.Fresh := by
    intro entries
    induction entries with
    | nil =>
      intro regions₁ hs h
      cases h
      exact hs
    | cons entry entries ih =>
      intro regions₁ hs h
      rw [List.foldlM_cons, bind_eq_ok] at h
      obtain ⟨regions₂, hentry, hrest⟩ := h
      exact ih (initEntry_fresh hs hentry) hrest
  exact hfold (by simp) h

theorem not_taken_of_fresh (h : ∀ region ∈ regions, region.Fresh) : ¬ Taken regions p := by
  rintro ⟨region, hmem, -, htaken⟩
  rw [Region.taken, (h region hmem).2] at htaken
  cases htaken

/-! ## Runs -/

/-- The regions, with the frames and pages handed out and not yet freed. -/
structure Owned where
  regions : List Region
  allocated : List ℕ
  reserved : List ℕ
  deriving DecidableEq

inductive Op
  | reserve (page : ℕ)
  | alloc
  | free (page : ℕ)
  deriving DecidableEq

def step (s : Owned) : Op → Except Fault Owned
  | .reserve page => do
    let regions ← pmmReserve s.regions page
    return { s with regions := regions, reserved := page :: s.reserved }
  | .alloc => do
    let (regions, frame) ← pmmAlloc s.regions
    return { s with regions := regions, allocated := frame.toList ++ s.allocated }
  | .free page => do
    let regions ← pmmFree s.regions page
    return ⟨regions, s.allocated.erase page, s.reserved.erase page⟩

/-- The pages in use are those on the lists, each once. -/
structure Owned.Inv (regions₀ : List Region) (s : Owned) : Prop where
  layout : Layout s.regions
  page_iff : ∀ q, Page s.regions q ↔ Page regions₀ q
  nodup : (s.allocated ++ s.reserved).Nodup
  taken_iff : ∀ q, Taken s.regions q ↔ q ∈ s.allocated ++ s.reserved

namespace Owned.Inv

variable {regions₀ : List Region} {s s' : Owned}

/-- A page that was free has a new owner. -/
theorem takes {allocated reserved : List ℕ} (h : s.Inv regions₀) (ht : Takes s.regions p regions')
    (hperm : (allocated ++ reserved).Perm (p :: (s.allocated ++ s.reserved))) :
    (⟨regions', allocated, reserved⟩ : Owned).Inv regions₀ where
  layout := ht.layout
  page_iff := fun q => (ht.page_iff q).trans (h.page_iff q)
  nodup := by
    rw [hperm.nodup_iff, List.nodup_cons, ← h.taken_iff]
    exact ⟨ht.free, h.nodup⟩
  taken_iff := fun q => by rw [ht.taken_iff, h.taken_iff, hperm.mem_iff, List.mem_cons]

theorem step {op : Op} (h : s.Inv regions₀) (hs : step s op = .ok s') : s'.Inv regions₀ := by
  cases op with
  | reserve page =>
    simp only [Pmm.step, bind_eq_ok, pure_inj] at hs
    obtain ⟨regions', hreserve, rfl⟩ := hs
    exact h.takes (pmmReserve_ok h.layout hreserve) List.perm_middle
  | alloc =>
    simp only [Pmm.step, bind_eq_ok, pure_inj, Prod.exists] at hs
    obtain ⟨regions', found, halloc, rfl⟩ := hs
    cases found with
    | some frame => exact h.takes (pmmAlloc_some h.layout halloc) (.refl _)
    | none =>
      obtain ⟨rfl, -⟩ := pmmAlloc_none h.layout halloc
      exact h
  | free page =>
    simp only [Pmm.step, bind_eq_ok, pure_inj] at hs
    obtain ⟨regions', hfree, rfl⟩ := hs
    have hf := pmmFree_ok h.layout hfree
    obtain ⟨hnd₁, hnd₂, hdisj⟩ := List.nodup_append.mp h.nodup
    refine ⟨hf.layout, fun q => (hf.page_iff q).trans (h.page_iff q), ?_, fun q => ?_⟩
    · exact h.nodup.sublist (List.Sublist.append List.erase_sublist List.erase_sublist)
    · rw [hf.taken_iff, h.taken_iff, List.mem_append, List.mem_append, hnd₁.mem_erase_iff,
        hnd₂.mem_erase_iff, and_or_left]

end Owned.Inv

/-- **Ownership.** In every run from `pmm_init` on disjoint regions that end below 4 GiB, the frames
allocated and not yet freed are different pages of the regions, none of them reserved, and
`pmm_reserved` says of every page of the regions whether it has an owner. -/
theorem owned_of_reach {entries : List MmapEntry} {regions₀ : List Region} {s : Owned}
    (h₀ : pmmInit entries = .ok regions₀)
    (hdisj : regions₀.Pairwise fun r s => Disjoint r.range s.range)
    (hbelow : ∀ region ∈ regions₀, region.addr + region.len < wordMod)
    (hrun : Reach step (fun _ _ => True) ⟨regions₀, [], []⟩ s) :
    s.allocated.Nodup ∧
      (∀ frame ∈ s.allocated, frame % pageSize = 0 ∧ (∃ region ∈ regions₀, region.HasPage frame) ∧
        frame ∉ s.reserved) ∧
      ∀ page, (∃ region ∈ regions₀, region.HasPage page) →
        pmmReserved s.regions page = .ok (decide (page ∈ s.allocated ∨ page ∈ s.reserved)) := by
  have hfresh := pmmInit_fresh h₀
  have hinv : s.Inv regions₀ := by
    refine hrun.invariant ?_ fun s op s' h _ hs => h.step hs
    exact ⟨⟨fun r hr => (hfresh r hr).1, hbelow, hdisj⟩, fun q => Iff.rfl, by simp,
      fun q => by simp [not_taken_of_fresh hfresh]⟩
  obtain ⟨hnd, -, hne⟩ := List.nodup_append.mp hinv.nodup
  refine ⟨hnd, fun frame hf => ?_, fun page hp => ?_⟩
  · have hpage := ((hinv.taken_iff frame).mpr (List.mem_append_left _ hf)).page
    have hpage₀ := (hinv.page_iff frame).mp hpage
    obtain ⟨region, hmem, hp⟩ := id hpage₀
    exact ⟨hp.1, hpage₀, fun hres => hne frame hf frame hres rfl⟩
  · rw [pmmReserved_eq hinv.layout ((hinv.page_iff page).mpr hp)]
    simp only [hinv.taken_iff, List.mem_append]

/-- Two regions, with an allocated frame in one and a reserved page in the other. -/
theorem owned_two_regions : ∃ regions₀ s,
    pmmInit [⟨0x1000, 0x4000, 1⟩, ⟨0x10000, 0x2000, 1⟩] = .ok regions₀ ∧
    Reach step (fun _ _ => True) ⟨regions₀, [], []⟩ s ∧ s.allocated = [0x11000] ∧
    s.reserved = [0x1000] ∧ pmmReserved s.regions 0x2000 = .ok false := by
  have hinit : pmmInit [⟨0x1000, 0x4000, 1⟩, ⟨0x10000, 0x2000, 1⟩] =
      .ok [⟨0x10000, 0x2000, ⟨2, [0]⟩⟩, ⟨0x1000, 0x4000, ⟨4, [0]⟩⟩] := by decide +kernel
  obtain ⟨s, hrun, halloc, hres⟩ := Reach.exists_of_run step (fun _ _ => True)
    ⟨[⟨0x10000, 0x2000, ⟨2, [0]⟩⟩, ⟨0x1000, 0x4000, ⟨4, [0]⟩⟩], [], []⟩
    [.alloc, .reserve 0x1000, .alloc, .free 0x10000]
    (fun s => s.allocated = [0x11000] ∧ s.reserved = [0x1000]) (by decide +kernel)
  have howned := owned_of_reach hinit ?_ (by decide) hrun
  · refine ⟨_, s, hinit, hrun, halloc, hres, ?_⟩
    rw [howned.2.2 0x2000 (by decide), halloc, hres]
    rfl
  · refine List.pairwise_pair.mpr (Set.disjoint_left.mpr fun x hx hx' => ?_)
    simp only [Region.range, Set.mem_Ico] at hx hx'
    omega

end Rastapopoulos.Pmm
