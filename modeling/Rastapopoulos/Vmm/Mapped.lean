import Rastapopoulos.Vmm.Segments

/-!
# Requests for memory that are met

When `syscall_mmap_handler` returns an address, all pages of the interval have been mapped to frames
of their own, and nothing else has changed: provided that the end of the interval can be computed in
32 bits. When it wraps around, both loops are left at once, and the address is returned although
nothing has been mapped (`mmap_maps_iff`).
-/

namespace Rastapopoulos.Vmm

open Paging
open KernelHeap (pageSize)

variable {m m' : Machine} {flags : BitVec 32} {addr size f : ℕ} {page : Page} {ps : List Page}

/-! ## Statement -/

/-- The pages in `S` have been mapped, with these flags, and no others. -/
structure Mapped (m : Machine) (S : Set Page) (flags : BitVec 32) (m' : Machine) : Prop where
  unmapped : ∀ page ∈ S, m.space page = none
  /-- To frames that could be allocated, and have been. -/
  frames : ∀ page ∈ S, ∃ f, m'.space page = some (f, flags) ∧ Free m.regions f ∧
    Pmm.Taken m'.regions f
  distinct : ∀ page ∈ S, ∀ page' ∈ S, (m'.space page).map Prod.fst = (m'.space page').map Prod.fst →
    page = page'
  others : ∀ page ∉ S, m'.space page = m.space page
  /-- Frames that had been allocated stay allocated, and keep their contents, those of the
  directory and of its page tables apart. -/
  taken : ∀ f, Pmm.Taken m.regions f → Pmm.Taken m'.regions f
  content : ∀ f, Settled m f → m'.mem f = m.mem f

/-- The pages of an interval. -/
def interval (addr size : ℕ) : Set Page := {page | addr ≤ page.1 ∧ page.1 < addr + size}

/-- A request that returns an address has been met. -/
def MmapMaps (m : Machine) (addr size : ℕ) (flags : BitVec 32) : Prop :=
  ∀ m' result, syscallMmapHandler m addr size flags = .ok (m', result) → result ≠ 0 →
    result = addr ∧ userStart ≤ addr ∧ addr + size ≤ userEnd + 1 ∧
      Mapped m (interval addr size) (mmapFlags flags) m'

/-! ## The loop -/

/-- **The loop maps its pages**, when it comes to its end. -/
theorem mmapPages_true {done : List ℕ} (hflags : flags.toNat < 2 ^ 12)
    (hpresent : flags &&& vmmPagePresent ≠ 0) (h : Usable m) (hps : Unmapped m ps)
    (hok : mmapPages flags m done (ps.map Subtype.val) = .ok (m', true)) :
    Mapped m {page | page ∈ ps} flags m' := by
  obtain ⟨hpop, -, hflags', htaken, hpages⟩ := populates_of_mmapPages hflags hpresent h hps hok
  refine ⟨hps.none, fun page hp => ?_, hpop.distinct, hpop.others, htaken,
    fun f hf => (hpop.settled f hf).1⟩
  obtain ⟨p, hspace, hfree, hsettled⟩ := hpop.mapped page hp
  have hflag := hflags' page hp
  rw [hspace] at hflag
  refine ⟨p.1, hspace.trans (congrArg some (Prod.ext rfl (Option.some.inj hflag))), hfree, ?_⟩
  by_contra hnot
  exact hsettled.2.2 ⟨(hpages p.1).mpr hfree.1, hnot⟩

/-! ## Requests -/

/-- The pages that are requested, if the end does not wrap around. -/
theorem mem_requested_iff (ha : addr % pageSize = 0) (hs : size % pageSize = 0)
    (hfits : addr + size < wordMod) {va : ℕ} :
    va ∈ requested addr size ↔ va % pageSize = 0 ∧ addr ≤ va ∧ va < addr + size := by
  rw [requested, addW_of_lt hfits]
  simp only [pagesFrom, List.mem_map, List.mem_range]
  unfold pageSize at *
  constructor
  · rintro ⟨i, hi, rfl⟩
    omega
  · rintro ⟨hva, hle, hlt⟩
    exact ⟨(va - addr) / 4096, by omega, by omega⟩

/-- No page is requested if it does. -/
theorem requested_of_wrap (haddr : addr < wordMod) (hsize : size < wordMod)
    (hwrap : wordMod ≤ addr + size) : requested addr size = [] := by
  have hend : addW addr size = addr + size - wordMod := by
    rw [addW, Nat.mod_eq_sub_mod hwrap, Nat.mod_eq_of_lt (by omega)]
  have hle : addr + size - wordMod - addr = 0 := by omega
  rw [requested, hend, pagesFrom, hle]
  rfl

/-- **A request that returns an address has been met**, exactly if the interval does not reach the
end of the address space, or the request is refused at once. -/
theorem mmap_maps_iff (h : Usable m) (flags : BitVec 32) (haddr : addr < wordMod) (hpos : 0 < size)
    (hsize : size < wordMod) : MmapMaps m addr size flags ↔
      addr + size < wordMod ∨ addr % pageSize ≠ 0 ∨ size % pageSize ≠ 0 ∨ flags = 0 := by
  constructor
  · intro hmaps
    by_contra hcond
    simp only [not_or, not_lt, not_not] at hcond
    obtain ⟨hwrap, ha, hs, hflags⟩ := hcond
    have hnil := requested_of_wrap haddr hsize hwrap
    have hok : syscallMmapHandler m addr size flags = .ok (m, addr) := by
      have haccepted : Accepted m addr size flags := ⟨ha, hs, hflags, by rw [hnil]; rfl⟩
      rcases syscallMmapHandler_cases h.toRunning with ⟨hnot, -⟩ | ⟨-, heq⟩
      · exact absurd haccepted hnot
      · rw [heq, hnil]
        rfl
    obtain ⟨-, -, hend, -⟩ := hmaps m addr hok (by omega)
    exact absurd (hwrap.trans hend) (by decide)
  · intro hcond m' result hok hresult
    rcases syscallMmapHandler_cases h.toRunning with ⟨-, heq⟩ | ⟨hacc, heq⟩
    · cases hok.symm.trans heq
      exact absurd rfl hresult
    · obtain ⟨ha, hs, hflags, hcheck⟩ := hacc
      have hfits : addr + size < wordMod := hcond.resolve_right fun hc =>
        hc.elim (· ha) fun hc => hc.elim (· hs) hflags
      obtain ⟨ps, hps, hunmapped, -⟩ := Accepted.unmapped h.toRunning ⟨ha, hs, hflags, hcheck⟩
      rw [heq] at hok
      simp only [bind_eq_ok, Prod.exists, pure_inj, Prod.mk.injEq] at hok
      obtain ⟨_, mapped, hloop, rfl, rfl⟩ := hok
      cases mapped with
      | false => exact absurd rfl hresult
      | true =>
        have hmem : ∀ {va}, va ∈ requested addr size ↔ _ := mem_requested_iff ha hs hfits
        have hrange := of_mmapCheck hcheck
        have hinterval : {page | page ∈ ps} = interval addr size := by
          ext page
          have hiff : page ∈ ps ↔ page.1 ∈ requested addr size := by
            rw [hps, List.mem_map_of_injective Subtype.val_injective]
          rw [Set.mem_ofPred_eq, hiff, hmem]
          exact and_iff_right page.2.1
        rw [hps] at hloop
        have hmapped := mmapPages_true mmapFlags_lt mmapFlags_present h hunmapped hloop
        rw [hinterval] at hmapped
        refine ⟨rfl, ?_, ?_, hmapped⟩
        · exact (hrange addr (hmem.mpr ⟨ha, le_rfl, by omega⟩)).1
        · have hle : pageSize ≤ size := Nat.le_of_dvd hpos (Nat.dvd_of_mod_eq_zero hs)
          have hlast : addr + size - pageSize ∈ requested addr size := by
            unfold pageSize at *
            exact hmem.mpr ⟨by omega, by omega, by omega⟩
          have hend := (hrange _ hlast).2.1
          unfold pageSize userEnd at *
          omega

/-- A page is mapped to the last frame. -/
theorem lastFrame_mmap_maps : (∃ m', syscallMmapHandler lastFrame 0x400000 0x1000 2 =
    .ok (m', 0x400000)) ∧ MmapMaps lastFrame 0x400000 0x1000 2 := by
  constructor
  · refine syscallMmapHandler_of_supply lastFrame_usable ?_ ?_
    · exact ⟨by decide, by decide, by decide, by decide +kernel⟩
    · decide +kernel
  · exact (mmap_maps_iff lastFrame_usable 2 (by decide) (by decide) (by decide)).mpr
      (.inl (by decide))

/-- The last GiB of the address space is granted, and nothing is mapped. -/
theorem not_mmap_maps : ¬ MmapMaps lastFrame 0xC0000000 0x40000000 1 := by
  intro hmaps
  have hok : syscallMmapHandler lastFrame 0xC0000000 0x40000000 1 = .ok (lastFrame, 0xC0000000) :=
    rfl
  exact absurd (hmaps _ _ hok (by decide)).2.2.1 (by decide)

end Rastapopoulos.Vmm
