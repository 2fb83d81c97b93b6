import Rastapopoulos.Vmm.Supply
import Rastapopoulos.Vmm.Tasks

/-!
# Requests for memory that fail

`syscall_mmap_handler` maps pages one after another, and each may need a frame for a page table as
well. When a frame for a page cannot be had it unmaps the pages again, so that the address space is
as before; but the frames stay allocated, and when a frame for a page table cannot be had the kernel
stops. So a request is all or nothing exactly if it is refused at once, can be met, or does not get
the first frame (`mmap_atomic_iff`).
-/

namespace Rastapopoulos.Vmm

open Paging Function
open KernelHeap (pageSize)

variable {m m' m₁ : Machine} {flags : BitVec 32} {addr size f n pa : ℕ} {page : Page}
  {pages done : List ℕ}

/-! ## Machines that can map -/

/-- The page tables of the current directory are different frames, and they are in use. -/
structure Usable (m : Machine) : Prop extends Running m where
  layout : Pmm.Layout m.regions
  tables : ∀ d t, target (m.mem m.cr3 d) = some t → Pmm.Page m.regions t →
    Pmm.Taken m.regions t

variable {regions : List Pmm.Region} {t va : ℕ} {m₂ : Machine} {ps : List Page}

namespace Usable

theorem wellFormed (h : Usable m) : WellFormed m where
  toRunning := h.toRunning
  sound := h.layout.sound
  clear f hf d hd := by
    obtain ⟨hpage, hfree⟩ := hf.free h.layout
    exact hfree (h.tables d f hd hpage)

theorem takes (h : Usable m) (ht : Pmm.Takes m.regions f regions) :
    Usable { m with regions := regions } where
  toRunning := ⟨h.paging, h.distinct⟩
  layout := ht.layout
  tables d t hd hpage := (ht.taken_iff t).mpr (.inr (h.tables d t hd ((ht.page_iff t).mp hpage)))

/-- A store to a page table. -/
theorem write (h : Usable m) {d j : Fin 1024} {w : BitVec 32} (hd : d ≠ 1023)
    (ht : target (m.mem m.cr3 d) = some t) : Usable { m with mem := m.mem.write t j w } where
  toRunning := ⟨h.paging, h.distinct.write_table hd ht⟩
  layout := h.layout
  tables d' t' hd' := by
    have hdir : m.mem.write t j w m.cr3 = m.mem m.cr3 :=
      Memory.write_of_ne (h.distinct.ne_cr3 hd ht).symm
    apply h.tables d' t'
    rwa [← hdir]

end Usable

/-! ## One page -/

/-- A frame that can be allocated. -/
def Free (regions : List Pmm.Region) (f : ℕ) : Prop :=
  Pmm.Page regions f ∧ ¬ Pmm.Taken regions f

instance (regions : List Pmm.Region) (f : ℕ) : Decidable (Free regions f) :=
  inferInstanceAs (Decidable (_ ∧ _))

/-- A frame that is not written to: neither the directory, nor a page table, nor one that can be
allocated. -/
def Settled (m : Machine) (f : ℕ) : Prop :=
  f ≠ m.cr3 ∧ (∀ d, target (m.mem m.cr3 d) ≠ some f) ∧ ¬ Free m.regions f

/-- A page has been mapped. -/
structure Maps (m : Machine) (page : Page) (p : ℕ × BitVec 32) (m' : Machine) : Prop where
  usable : Usable m'
  space : m'.space = update m.space page (some p)
  missing : ∀ d, target (m'.mem m'.cr3 d) = none ↔
    target (m.mem m.cr3 d) = none ∧ d ≠ dirIndex page.1
  supply : ∀ n, Pmm.provides (tableCost m page.1 + n) m.regions = Pmm.provides n m'.regions
  taken : ∀ q, Pmm.Taken m.regions q → Pmm.Taken m'.regions q
  pages : ∀ q, Pmm.Page m'.regions q ↔ Pmm.Page m.regions q
  settled : ∀ f, Settled m f → m'.mem f = m.mem f ∧ Settled m' f

theorem Linked.usable (h : Usable m) (hlink : Linked m va m₁ t) : Usable m₁ := by
  have htarget := hlink.target_eq h.wellFormed
  have hrun := hlink.running h.wellFormed
  cases hlink with
  | old ht => exact h
  | new ht halloc =>
    have htakes := Pmm.pmmAlloc_some h.layout halloc
    refine ⟨hrun, htakes.layout, fun d t' hd hpage => (htakes.taken_iff t').mpr ?_⟩
    rw [htarget] at hd
    split at hd
    · exact .inl (Option.some.inj hd).symm
    · exact .inr (h.tables d t' hd ((htakes.page_iff t').mp hpage))

/-- The frames that are left. -/
theorem Linked.frames (h : Usable m) (hlink : Linked m va m₁ t) :
    (∀ n, Pmm.provides (tableCost m va + n) m.regions = Pmm.provides n m₁.regions) ∧
      (∀ q, Pmm.Taken m.regions q → Pmm.Taken m₁.regions q) ∧
      (∀ q, Pmm.Page m₁.regions q ↔ Pmm.Page m.regions q) ∧ ¬ Settled m t := by
  cases hlink with
  | old ht =>
    refine ⟨fun n => ?_, fun _ => id, fun _ => Iff.rfl, fun hc => hc.2.1 _ ht⟩
    rw [tableCost_of_some ht, Nat.zero_add]
  | new ht halloc =>
    have htakes := Pmm.pmmAlloc_some h.layout halloc
    refine ⟨fun n => ?_, fun q hq => (htakes.taken_iff q).mpr (.inr hq), htakes.page_iff,
      fun hc => hc.2.2 ⟨htakes.page, htakes.free⟩⟩
    rw [tableCost_of_missing ht, Nat.add_comm, Pmm.provides_of_alloc halloc]

section Map

variable (h : Usable m) (hpa : pa % pageSize = 0) (hlt : pa < wordMod)
  (hflags : flags.toNat < 2 ^ 12) (hpresent : flags &&& vmmPagePresent ≠ 0)

include h hpa hlt hflags hpresent

/-- The page table, and the page. -/
theorem Linked.maps (hlink : Linked m page.1 m₁ t) : Maps m page (pa, flags)
    { m₁ with mem := m₁.mem.write t (tableIndex page.1) (entry pa flags) } := by
  have hw := h.wellFormed
  obtain ⟨hdistinct, ht⟩ := hlink.distinct hw
  obtain ⟨hsupply, htaken, hpages, hsettled⟩ := hlink.frames h
  have hdir : m₁.mem.write t (tableIndex page.1) (entry pa flags) m₁.cr3 = m₁.mem m₁.cr3 :=
    Memory.write_of_ne (hdistinct.ne_cr3 page.dirIndex_ne ht).symm
  refine ⟨(hlink.usable h).write page.dirIndex_ne ht, ?_, fun d => ?_, hsupply, htaken, hpages,
    fun f hf => ?_⟩
  · rw [space_write hdistinct ht, space_entry hpa hlt hflags hpresent, hlink.space hw]
  · show target (m₁.mem.write t (tableIndex page.1) (entry pa flags) m₁.cr3 d) = none ↔ _
    rw [hdir, hlink.target_eq hw]
    by_cases hd : d = dirIndex page.1
    · simp [hd]
    · simp [hd]
  · have hft : f ≠ t := fun heq => hsettled (heq ▸ hf)
    obtain ⟨hne, htables, hfree⟩ := hf
    refine ⟨(Memory.write_of_ne hft).trans ?_, hlink.cr3_eq ▸ hne, fun d => ?_, fun hfree' => hfree
      ⟨(hpages f).mp hfree'.1, fun hc => hfree'.2 (htaken f hc)⟩⟩
    · funext d
      exact hlink.mem_eq hft fun heq => absurd heq hne
    · show target (m₁.mem.write t (tableIndex page.1) (entry pa flags) m₁.cr3 d) ≠ some f
      rw [hdir, hlink.target_eq hw]
      split
      · exact fun heq => hft (Option.some.inj heq).symm
      · exact htables d

theorem vmmMap_maps (hok : vmmMap m page.1 pa flags = .ok m') : Maps m page (pa, flags) m' := by
  obtain ⟨-, -, -, m₁, t, hlink, -, rfl⟩ := vmmMap_ok h.wellFormed hok
  exact hlink.maps h hpa hlt hflags hpresent

/-- **`vmm_map`** needs as many frames as it costs. -/
theorem exists_vmmMap (hunmapped : m.space page = none)
    (hsupply : Pmm.provides (tableCost m page.1) m.regions = true) :
    ∃ m', vmmMap m page.1 pa flags = .ok m' ∧ Maps m page (pa, flags) m' := by
  have havail : (∃ t, target (m.mem m.cr3 (dirIndex page.1)) = some t) ∨
      ∃ regions t, Pmm.pmmAlloc m.regions = .ok (regions, some t) := by
    by_cases hmissing : Missing m page.1
    · rw [tableCost_of_missing hmissing] at hsupply
      obtain ⟨regions, t, halloc, -⟩ := Pmm.exists_of_provides hsupply
      exact .inr ⟨regions, t, halloc⟩
    · exact .inl (Option.ne_none_iff_exists'.mp hmissing)
  obtain ⟨m₁, t, hlink⟩ := exists_linked havail
  have habsent := (hlink.space_eq_none_iff h.wellFormed).mp hunmapped
  exact ⟨_, hlink.vmmMap_eq h.wellFormed page.2.1 hpa hpresent habsent,
    hlink.maps h hpa hlt hflags hpresent⟩

end Map

/-! ## All pages -/

theorem framesNeeded_cons {p : ℕ × BitVec 32}
    (hmaps : Maps { m with regions := regions } page p m₂) :
    framesNeeded m (page.1 :: pages) = tableCost m page.1 + framesNeeded m₂ pages + 1 := by
  have hadded : Added [page.1] m m₂ := fun d => by
    rw [List.map_singleton, List.mem_singleton]
    exact hmaps.missing d
  rw [← List.singleton_append, framesNeeded_append hadded, framesNeeded_singleton]
  omega

/-- The map without some pages. -/
def AddressSpace.without (s : AddressSpace) (done : List Page) : AddressSpace :=
  fun page => if page ∈ done then none else s page

/-- **The roll-back** unmaps the pages, and keeps the frames. -/
theorem foldlM_vmmUnmap {done : List Page} (h : Usable m)
    (hok : (done.map Subtype.val).foldlM vmmUnmap m = .ok m') :
    m'.space = m.space.without done ∧ m'.regions = m.regions := by
  induction done generalizing m with
  | nil =>
    cases hok
    exact ⟨by funext page; simp [AddressSpace.without], rfl⟩
  | cons page done ih =>
    rw [List.map_cons, List.foldlM_cons, bind_eq_ok] at hok
    obtain ⟨m₁, hunmap, hok⟩ := hok
    obtain ⟨-, t, ht, rfl⟩ := vmmUnmap_ok h.wellFormed hunmap
    obtain ⟨hspace, hregions⟩ := ih (h.write page.dirIndex_ne ht) hok
    refine ⟨?_, hregions⟩
    rw [hspace, space_write h.distinct ht, if_neg (not_present_and_not _)]
    funext page'
    by_cases heq : page' = page
    · simp [AddressSpace.without, heq]
    · simp [AddressSpace.without, heq]

/-- One turn of the loop. -/
theorem mmapPages_cons_ok {mapped : Bool}
    (hok : mmapPages flags m done (va :: pages) = .ok (m', mapped)) :
    (∃ regions, Pmm.pmmAlloc m.regions = .ok (regions, none) ∧
        done.foldlM vmmUnmap { m with regions := regions } = .ok m' ∧ mapped = false) ∨
      ∃ regions f m₁, Pmm.pmmAlloc m.regions = .ok (regions, some f) ∧
        vmmMap { m with regions := regions } va f flags = .ok m₁ ∧
        mmapPages flags m₁ (done ++ [va]) pages = .ok (m', mapped) := by
  simp only [mmapPages, alloc, bind_eq_ok, mapError_eq_ok, Prod.exists] at hok
  obtain ⟨_, found, ⟨regions, _, halloc, ⟨⟩⟩, hok⟩ := hok
  cases found with
  | none =>
    simp only [bind_eq_ok] at hok
    obtain ⟨m₂, hunmap, rfl, rfl⟩ := hok
    exact .inl ⟨regions, halloc, hunmap, rfl⟩
  | some f =>
    obtain ⟨m₁, hmap, hok⟩ := bind_eq_ok.mp hok
    exact .inr ⟨regions, f, m₁, halloc, hmap, hok⟩

theorem Usable.alloc (h : Usable m) (halloc : Pmm.pmmAlloc m.regions = .ok (regions, some f)) :
    Usable { m with regions := regions } ∧ f % pageSize = 0 ∧ f < wordMod := by
  obtain ⟨-, hpage, hlt⟩ := pmmAlloc_clear h.layout.sound halloc
  exact ⟨h.takes (Pmm.pmmAlloc_some h.layout halloc), hpage, hlt⟩

/-- Pages that can be mapped one after another. -/
structure Unmapped (m : Machine) (ps : List Page) : Prop where
  nodup : ps.Nodup
  none : ∀ page ∈ ps, m.space page = none

theorem Unmapped.tail {p : ℕ × BitVec 32} (h : Unmapped m (page :: ps))
    (hmaps : Maps { m with regions := regions } page p m₂) : Unmapped m₂ ps := by
  obtain ⟨hpage, hnodup⟩ := List.nodup_cons.mp h.nodup
  refine ⟨hnodup, fun page' hp => ?_⟩
  have hne : page' ≠ page := fun heq => hpage (heq ▸ hp)
  rw [hmaps.space, update_of_ne hne]
  exact h.none page' (.tail _ hp)

section Loop

variable {ps done : List Page} (hflags : flags.toNat < 2 ^ 12)
  (hpresent : flags &&& vmmPagePresent ≠ 0)

include hflags hpresent

/-- **With enough frames** all pages are mapped. -/
theorem mmapPages_of_supply {done : List ℕ} (h : Usable m) (hps : Unmapped m ps)
    (hsupply : Pmm.provides (framesNeeded m (ps.map Subtype.val)) m.regions = true) :
    ∃ m', mmapPages flags m done (ps.map Subtype.val) = .ok (m', true) := by
  induction ps generalizing m done with
  | nil => exact ⟨m, rfl⟩
  | cons page ps ih =>
    have hcost : Pmm.provides (tableCost m page.1 + 1) m.regions = true := by
      rw [← framesNeeded_singleton]
      exact Pmm.provides_mono framesNeeded_le_append hsupply
    obtain ⟨regions, f, halloc, -⟩ :=
      Pmm.exists_of_provides (Pmm.provides_mono (Nat.le_add_left ..) hcost)
    obtain ⟨h₁, hpage, hlt⟩ := h.alloc halloc
    have hnone : ({ m with regions := regions } : Machine).space page = none :=
      hps.none page (.head _)
    rw [Pmm.provides_of_alloc halloc] at hcost
    obtain ⟨m₂, hmap, hmaps⟩ := exists_vmmMap h₁ hpage hlt hflags hpresent hnone hcost
    rw [List.map_cons, framesNeeded_cons hmaps, Pmm.provides_of_alloc halloc] at hsupply
    have hrest := (hmaps.supply _).symm.trans hsupply
    obtain ⟨m', hok⟩ : ∃ m', mmapPages flags m₂ (done ++ [page.1]) (ps.map Subtype.val) =
        .ok (m', true) := ih hmaps.usable (hps.tail hmaps) hrest
    refine ⟨m', ?_⟩
    rw [List.map_cons, mmapPages, alloc, halloc]
    show vmmMap { m with regions := regions } page.1 f flags >>= _ = _
    rw [hmap]
    exact hok

/-- What a turn of the loop does that gets its frames. -/
theorem maps_of_turn (h : Usable m) (halloc : Pmm.pmmAlloc m.regions = .ok (regions, some f))
    (hmap : vmmMap { m with regions := regions } page.1 f flags = .ok m₂) :
    Maps { m with regions := regions } page (f, flags) m₂ := by
  obtain ⟨h₁, hpage, hlt⟩ := h.alloc halloc
  exact vmmMap_maps h₁ hpage hlt hflags hpresent hmap

/-- **Only with enough frames.** -/
theorem supply_of_mmapPages {done : List ℕ} (h : Usable m) (hps : Unmapped m ps)
    (hok : mmapPages flags m done (ps.map Subtype.val) = .ok (m', true)) :
    Pmm.provides (framesNeeded m (ps.map Subtype.val)) m.regions = true := by
  induction ps generalizing m done with
  | nil =>
    rw [List.map_nil, framesNeeded_nil]
    rfl
  | cons page ps ih =>
    rcases mmapPages_cons_ok hok with ⟨_, _, _, hfalse⟩ | ⟨regions, f, m₂, halloc, hmap, hok⟩
    · exact nomatch hfalse
    · have hmaps := maps_of_turn hflags hpresent h halloc hmap
      rw [List.map_cons, framesNeeded_cons hmaps, Pmm.provides_of_alloc halloc]
      exact (hmaps.supply _).trans (ih hmaps.usable (hps.tail hmaps) hok)

/-- **Without enough frames** the address space is as before, and nothing that was in use is
free. -/
theorem mmapPages_false (h : Usable m) (hps : Unmapped m ps)
    (hok : mmapPages flags m (done.map Subtype.val) (ps.map Subtype.val) = .ok (m', false)) :
    m'.space = m.space.without done ∧ ∀ q, Pmm.Taken m.regions q → Pmm.Taken m'.regions q := by
  induction ps generalizing m done with
  | nil => exact nomatch hok
  | cons page ps ih =>
    rcases mmapPages_cons_ok hok with ⟨regions, halloc, hunmap, -⟩ | ⟨regions, f, m₂, halloc, hmap, hok⟩
    · obtain ⟨rfl, -⟩ := Pmm.pmmAlloc_none h.layout halloc
      obtain ⟨hspace, hregions⟩ := foldlM_vmmUnmap h hunmap
      exact ⟨hspace, fun q hq => hregions ▸ hq⟩
    · have hmaps := maps_of_turn hflags hpresent h halloc hmap
      have hdone : done.map Subtype.val ++ [page.1] = (done ++ [page]).map Subtype.val := by simp
      rw [hdone] at hok
      obtain ⟨hspace, htaken⟩ := ih hmaps.usable (hps.tail hmaps) hok
      have htakes := Pmm.pmmAlloc_some h.layout halloc
      refine ⟨?_, fun q hq => htaken q (hmaps.taken q ((htakes.taken_iff q).mpr (.inr hq)))⟩
      rw [hspace, hmaps.space]
      funext page'
      by_cases heq : page' = page
      · simp [AddressSpace.without, heq, hps.none page (.head _)]
      · simp only [AddressSpace.without, List.mem_append, List.mem_singleton, heq, or_false,
          update_of_ne heq]
        rfl

/-- A frame that was allocated first stays allocated. -/
theorem taken_of_mmapPages (h : Usable m)
    (hps : Unmapped m (page :: ps)) (halloc : Pmm.pmmAlloc m.regions = .ok (regions, some f))
    (hok : mmapPages flags m [] ((page :: ps).map Subtype.val) = .ok (m', false)) :
    Pmm.Taken m'.regions f := by
  rcases mmapPages_cons_ok hok with ⟨_, hnone, -⟩ | ⟨regions', f', m₂, halloc', hmap, hok⟩
  · exact nomatch halloc.symm.trans hnone
  · cases halloc.symm.trans halloc'
    have hmaps := maps_of_turn hflags hpresent h halloc hmap
    have hok : mmapPages flags m₂ ([page].map Subtype.val) (ps.map Subtype.val) = .ok (m', false) :=
      hok
    refine (mmapPages_false hflags hpresent hmaps.usable (hps.tail hmaps) hok).2 f ?_
    exact hmaps.taken f (((Pmm.pmmAlloc_some h.layout halloc).taken_iff f).mpr (.inl rfl))

end Loop

/-! ## Requests -/

/-- The pages of a request. -/
def requested (addr size : ℕ) : List ℕ := pagesFrom addr (addW addr size)

/-- The request passes the checks that are made before anything is mapped. -/
def Accepted (m : Machine) (addr size : ℕ) (flags : BitVec 32) : Prop :=
  addr % pageSize = 0 ∧ size % pageSize = 0 ∧ flags ≠ 0 ∧
    mmapCheck m (requested addr size) = .ok true

theorem mod_of_mem_requested (ha : addr % pageSize = 0) (h : va ∈ requested addr size) :
    va % pageSize = 0 := by
  simp only [requested, pagesFrom, List.mem_map] at h
  obtain ⟨i, -, rfl⟩ := h
  rw [Nat.add_mul_mod_self_right, ha]

theorem mem_requested (h : requested addr size ≠ []) : addr ∈ requested addr size := by
  obtain ⟨va, hva⟩ := List.exists_mem_of_ne_nil _ h
  simp only [requested, pagesFrom, List.mem_map, List.mem_range] at hva ⊢
  exact ⟨0, by omega, by simp⟩

theorem nodup_requested : (requested addr size).Nodup := by
  refine List.nodup_range.map fun i j heq => ?_
  have hpos : 0 < pageSize := by decide
  exact Nat.eq_of_mul_eq_mul_right hpos (Nat.add_left_cancel heq)

theorem exists_mmapCheck (h : Running m) (ha : ∀ va ∈ pages, va % pageSize = 0) :
    ∃ free, mmapCheck m pages = .ok free := by
  induction pages with
  | nil => exact ⟨true, rfl⟩
  | cons va pages ih =>
    rw [List.forall_mem_cons] at ha
    obtain ⟨free, hfree⟩ := ih ha.2
    rw [mmapCheck, vmmGetFlags_eq h ha.1, ok_bind]
    split
    · exact ⟨false, rfl⟩
    · split
      · exact ⟨false, rfl⟩
      · exact ⟨free, hfree⟩

/-- Pages that pass the check are pages of the user's half that are not mapped. -/
theorem of_mmapCheck (hok : mmapCheck m pages = .ok true) :
    ∀ va ∈ pages, userStart ≤ va ∧ va ≤ userEnd ∧
      ∃ flags, vmmGetFlags m va = .ok flags ∧ ¬ Present flags := by
  induction pages with
  | nil => exact List.forall_mem_nil _
  | cons va pages ih =>
    obtain ⟨flags, hflags, hok⟩ := bind_eq_ok.mp hok
    split at hok
    · cases hok
    · rename_i habsent
      split at hok
      · cases hok
      · rename_i hrange
        rw [not_or, Nat.not_lt, Nat.not_lt] at hrange
        exact List.forall_mem_cons.mpr ⟨⟨hrange.1, hrange.2, flags, hflags, habsent⟩, ih hok⟩

theorem lt_of_mmapCheck (hok : mmapCheck m pages = .ok true) : ∀ va ∈ pages, va < kernelStart :=
  fun va hva => Nat.lt_of_le_of_lt (of_mmapCheck hok va hva).2.1 (by decide)

/-- An accepted request, as a list of pages that can be mapped. -/
theorem Accepted.unmapped (h : Running m) (hacc : Accepted m addr size flags) :
    ∃ ps : List Page, requested addr size = ps.map Subtype.val ∧ Unmapped m ps ∧
      (ps ≠ [] → addr ≠ 0) := by
  obtain ⟨ha, -, -, hcheck⟩ := hacc
  have hpages := of_mmapCheck hcheck
  have hlift : ∀ va ∈ requested addr size, va % pageSize = 0 ∧ va < 0xFFC00000 := fun va hva =>
    ⟨mod_of_mem_requested ha hva, Nat.lt_of_le_of_lt (hpages va hva).2.1 (by decide)⟩
  have hnodup : (requested addr size).Nodup := nodup_requested
  have hzero : requested addr size ≠ [] → addr ≠ 0 := by
    intro hne heq
    have hstart := (hpages addr (mem_requested hne)).1
    rw [heq] at hstart
    exact absurd hstart (by decide)
  generalize requested addr size = pages at *
  lift pages to List Page using hlift
  refine ⟨pages, rfl, ⟨hnodup.of_map _, fun page hp => ?_⟩, fun hne => hzero (by rwa [Ne, List.map_eq_nil_iff])⟩
  obtain ⟨-, -, flags, hflags, habsent⟩ := hpages page.1 (List.mem_map_of_mem hp)
  rw [vmmGetFlags_eq h page.2.1, Except.ok.injEq] at hflags
  cases hlookup : lookup m.mem m.cr3 (dirIndex page.1) (tableIndex page.1) with
  | none =>
    rw [Machine.space, hlookup]
    rfl
  | some e =>
    rw [← hflags, hlookup] at habsent
    exact absurd (present_flagsOf.mpr (present_of_lookup hlookup)) habsent

/-- The flags of the pages of a request. -/
def mmapFlags (flags : BitVec 32) : BitVec 32 :=
  vmmPagePresent ||| vmmPageUser ||| if flags &&& 0x2 ≠ 0 then vmmPageWritable else 0

theorem mmapFlags_lt : (mmapFlags flags).toNat < 2 ^ 12 := by
  unfold mmapFlags
  split <;> decide

theorem mmapFlags_present : mmapFlags flags &&& vmmPagePresent ≠ 0 := by
  unfold mmapFlags
  split <;> decide

/-- What a request comes to. -/
theorem syscallMmapHandler_cases (h : Running m) :
    (¬ Accepted m addr size flags ∧ syscallMmapHandler m addr size flags = .ok (m, 0)) ∨
      (Accepted m addr size flags ∧ syscallMmapHandler m addr size flags = do
        let (m, mapped) ← mmapPages (mmapFlags flags) m [] (requested addr size)
        return (m, if mapped then addr else 0)) := by
  by_cases haligned : addr % pageSize ≠ 0 ∨ size % pageSize ≠ 0
  · refine .inl ⟨fun hacc => ?_, by rw [syscallMmapHandler, if_pos haligned]; rfl⟩
    rcases haligned with ha | hs
    · exact ha hacc.1
    · exact hs hacc.2.1
  · by_cases hzero : flags = 0
    · refine .inl ⟨fun hacc => hacc.2.2.1 hzero, ?_⟩
      rw [syscallMmapHandler, if_neg haligned, if_pos hzero]
      rfl
    · rw [syscallMmapHandler, if_neg haligned, if_neg hzero]
      rw [not_or, not_not, not_not] at haligned
      have hmod : ∀ va ∈ requested addr size, va % pageSize = 0 := fun va hva =>
        mod_of_mem_requested haligned.1 hva
      obtain ⟨free, hfree⟩ := exists_mmapCheck h hmod
      cases free with
      | false =>
        have hrefused : ¬ Accepted m addr size flags := fun hacc =>
          nomatch hfree.symm.trans hacc.2.2.2
        refine .inl ⟨hrefused, ?_⟩
        show (mmapCheck m (requested addr size) >>= _) = _
        rw [hfree]
        rfl
      | true =>
        refine .inr ⟨⟨haligned.1, haligned.2, hzero, hfree⟩, ?_⟩
        show (mmapCheck m (requested addr size) >>= _) = _
        rw [hfree]
        rfl

/-- What a request has come to. -/
theorem syscallMmapHandler_eq_ok {result : ℕ}
    (hok : syscallMmapHandler m addr size flags = .ok (m', result)) : m' = m ∧ result = 0 ∨
      ∃ mapped, mmapCheck m (requested addr size) = .ok true ∧
        mmapPages (mmapFlags flags) m [] (requested addr size) = .ok (m', mapped) ∧
        result = if mapped then addr else 0 := by
  unfold syscallMmapHandler at hok
  split at hok
  · cases hok
    exact .inl ⟨rfl, rfl⟩
  · split at hok
    · cases hok
      exact .inl ⟨rfl, rfl⟩
    · obtain ⟨free, hcheck, hok⟩ := bind_eq_ok.mp hok
      cases free with
      | false =>
        cases hok
        exact .inl ⟨rfl, rfl⟩
      | true =>
        simp only [if_true, bind_eq_ok, Prod.exists] at hok
        obtain ⟨_, mapped, hloop, rfl, rfl⟩ := hok
        exact .inr ⟨mapped, hcheck, hloop, rfl⟩

/-- A request that can be met is met. -/
theorem syscallMmapHandler_of_supply (h : Usable m) (hacc : Accepted m addr size flags)
    (hsupply : Pmm.provides (framesNeeded m (requested addr size)) m.regions = true) :
    ∃ m', syscallMmapHandler m addr size flags = .ok (m', addr) := by
  rcases syscallMmapHandler_cases h.toRunning with ⟨hnot, -⟩ | ⟨-, heq⟩
  · exact absurd hacc hnot
  · obtain ⟨ps, hps, hunmapped, -⟩ := hacc.unmapped h.toRunning
    rw [hps] at hsupply
    obtain ⟨m', hloop⟩ :
        ∃ m', mmapPages (mmapFlags flags) m [] (ps.map Subtype.val) = .ok (m', true) :=
      mmapPages_of_supply mmapFlags_lt mmapFlags_present h hunmapped hsupply
    refine ⟨m', ?_⟩
    rw [heq, hps, hloop]
    rfl

/-! ## All or nothing -/

/-- A request that returns 0 has changed neither the address space nor the free frames, and one that
runs out of frames returns 0. -/
structure Atomic (m : Machine) (addr size : ℕ) (flags : BitVec 32) : Prop where
  unchanged : ∀ m', syscallMmapHandler m addr size flags = .ok (m', 0) →
    (∀ page : Page, page.1 ≤ userEnd → m'.space page = m.space page) ∧
      ∀ f, Free m'.regions f ↔ Free m.regions f
  returns : Accepted m addr size flags →
    Pmm.provides (framesNeeded m (requested addr size)) m.regions = false →
    ∃ m', syscallMmapHandler m addr size flags = .ok (m', 0)

theorem Atomic.of_unchanged (hok : syscallMmapHandler m addr size flags = .ok (m, 0)) :
    Atomic m addr size flags where
  unchanged m' hok' := by
    cases hok.symm.trans hok'
    exact ⟨fun _ _ => rfl, fun _ => Iff.rfl⟩
  returns _ _ := ⟨m, hok⟩

section Requests

variable {ps : List Page} (h : Usable m) (hunmapped : Unmapped m ps)
  (hps : requested addr size = ps.map Subtype.val)
  (heq : syscallMmapHandler m addr size flags = do
    let (m, mapped) ← mmapPages (mmapFlags flags) m [] (requested addr size)
    return (m, if mapped then addr else 0))

include h hunmapped hps heq

/-- A request that can be met. -/
theorem atomic_of_supply (hzero : ps ≠ [] → addr ≠ 0)
    (hsupply : Pmm.provides (framesNeeded m (requested addr size)) m.regions = true) :
    Atomic m addr size flags := by
  obtain ⟨m', hloop⟩ :
      ∃ m', mmapPages (mmapFlags flags) m [] (requested addr size) = .ok (m', true) := by
    rw [hps] at hsupply ⊢
    exact mmapPages_of_supply mmapFlags_lt mmapFlags_present h hunmapped hsupply
  have hok : syscallMmapHandler m addr size flags = .ok (m', addr) := by
    rw [heq, hloop]
    rfl
  refine ⟨fun m'' hok' => ?_, fun _ hshort => nomatch hsupply.symm.trans hshort⟩
  cases hok.symm.trans hok'
  obtain rfl : ps = [] := by
    by_contra hne
    exact hzero hne rfl
  rw [hps] at hloop
  cases hloop
  exact ⟨fun _ _ => rfl, fun _ => Iff.rfl⟩

omit hunmapped in
/-- A request that does not get the first frame. -/
theorem atomic_of_none (hne : ps ≠ [])
    (hnone : Pmm.pmmAlloc m.regions = .ok (regions, none)) : Atomic m addr size flags := by
  obtain ⟨page, ps, rfl⟩ := List.exists_cons_of_ne_nil hne
  obtain ⟨rfl, -⟩ := Pmm.pmmAlloc_none h.layout hnone
  apply Atomic.of_unchanged
  rw [heq, hps, List.map_cons, mmapPages, alloc, hnone]
  rfl

/-- A request that gets its first frame, and not all. -/
theorem not_atomic (hacc : Accepted m addr size flags)
    (hsupply : Pmm.provides (framesNeeded m (requested addr size)) m.regions = false)
    (hsome : ∀ regions, Pmm.pmmAlloc m.regions ≠ .ok (regions, none)) :
    ¬ Atomic m addr size flags := by
  intro hatomic
  -- the request returns 0, so it has been rolled back
  obtain ⟨m', hok⟩ := hatomic.returns hacc hsupply
  have hfree := (hatomic.unchanged m' hok).2
  simp only [heq, hps, bind_eq_ok, Prod.exists, pure_inj, Prod.mk.injEq] at hok
  obtain ⟨_, mapped, hloop, rfl, -⟩ := hok
  cases mapped with
  | true =>
    rw [hps, supply_of_mmapPages mmapFlags_lt mmapFlags_present h hunmapped hloop] at hsupply
    exact nomatch hsupply
  | false =>
    cases ps with
    | nil => exact nomatch hloop
    | cons page ps =>
      -- but its first frame is not free any more
      rcases mmapPages_cons_ok hloop with ⟨_, hnone, -⟩ | ⟨_, f, _, halloc, -⟩
      · exact hsome _ hnone
      · have htakes := Pmm.pmmAlloc_some h.layout halloc
        have htaken :=
          taken_of_mmapPages mmapFlags_lt mmapFlags_present h hunmapped halloc hloop
        exact ((hfree f).mpr ⟨htakes.page, htakes.free⟩).2 htaken

end Requests

/-- **Requests are all or nothing** exactly if they are refused at once, or can be met, or do not
get the first frame. -/
theorem mmap_atomic_iff (h : Usable m) (addr size : ℕ) (flags : BitVec 32) :
    Atomic m addr size flags ↔ ¬ Accepted m addr size flags ∨
      Pmm.provides (framesNeeded m (requested addr size)) m.regions = true ∨
      ∃ regions, Pmm.pmmAlloc m.regions = .ok (regions, none) := by
  rcases syscallMmapHandler_cases h.toRunning with ⟨hacc, hok⟩ | ⟨hacc, heq⟩
  · exact ⟨fun _ => .inl hacc, fun _ => .of_unchanged hok⟩
  · obtain ⟨ps, hps, hunmapped, hzero⟩ := hacc.unmapped h.toRunning
    constructor
    · intro hatomic
      by_contra hcond
      rw [not_or, not_or, Bool.not_eq_true, not_exists] at hcond
      exact not_atomic h hunmapped hps heq hacc hcond.2.1 hcond.2.2 hatomic
    · rintro (hrefused | hsupply | ⟨regions, hnone⟩)
      · exact absurd hacc hrefused
      · exact atomic_of_supply h hunmapped hps heq hzero hsupply
      · by_cases hne : ps = []
        · have hsupply : Pmm.provides (framesNeeded m (requested addr size)) m.regions = true := by
            rw [hps, hne, List.map_nil, framesNeeded_nil]
            rfl
          exact atomic_of_supply h hunmapped hps heq hzero hsupply
        · exact atomic_of_none h hps heq hne hnone

/-- A machine with one page table in the user's half, and one frame left. -/
def lastFrame : Machine where
  mem f i := if f = 0x1000 ∧ i = 1 then 0x2007 else if f = 0x1000 ∧ i = 1023 then 0x1003 else 0
  cr3 := 0x1000
  pagingEnabled := true
  regions := [⟨0x3000, 0x20000, ⟨32, [0xFFFFFFFE]⟩⟩]

theorem lastFrame_pde (i : Fin 1024) : target (lastFrame.mem 0x1000 i) =
    if i = 1 then some 0x2000 else if i = 1023 then some 0x1000 else none := by
  simp only [lastFrame, true_and]
  split
  · decide
  · split <;> decide

theorem lastFrame_usable : Usable lastFrame where
  paging := rfl
  distinct := by
    refine ⟨lastFrame_pde 1023, fun d d' t hd hd' => ?_⟩
    rw [show lastFrame.cr3 = 0x1000 from rfl, lastFrame_pde] at hd hd'
    grind
  layout := by
    refine ⟨List.forall_mem_singleton.mpr ⟨by decide, by decide, by decide, by decide, ?_⟩,
      List.forall_mem_singleton.mpr (by unfold Pmm.Region.Below; decide), List.pairwise_singleton _ _⟩
    refine ⟨by decide, by decide, fun i (hi : 32 ≤ i) => ?_⟩
    have hword : [0xFFFFFFFE#32].length ≤ i / 32 := by
      rw [List.length_singleton]
      omega
    show ([0xFFFFFFFE#32].getD (i / 32) 0#32).getLsbD (i % 32) = false
    rw [List.getD_eq_default _ _ hword, BitVec.getLsbD_zero]
  tables d t ht hpage := by
    rw [show lastFrame.cr3 = 0x1000 from rfl, lastFrame_pde] at ht
    have hlow : t < 0x3000 := by grind
    obtain ⟨region, hregion, hp⟩ := hpage
    rw [List.mem_singleton.mp hregion] at hp
    have hhigh : 0x3000 ≤ t := hp.2.1
    omega

theorem mmap_atomic_refused : Usable lastFrame ∧ Atomic lastFrame 0x400001 0x1000 2 :=
  ⟨lastFrame_usable,
    (mmap_atomic_iff lastFrame_usable _ _ _).mpr (.inl fun h => absurd h.1 (by decide))⟩

/-- Of a request for two pages, the first gets the last frame and keeps it. -/
theorem not_mmap_atomic :
    ¬ ∀ (m : Machine) (addr size : ℕ) (flags : BitVec 32), Usable m → Atomic m addr size flags := by
  intro hall
  have hatomic := hall lastFrame 0x400000 0x2000 2 lastFrame_usable
  have hok : (syscallMmapHandler lastFrame 0x400000 0x2000 2).map (fun r => (r.1.regions, r.2)) =
      .ok ([⟨0x3000, 0x20000, ⟨32, [0xFFFFFFFF]⟩⟩], 0) := by decide +kernel
  cases hrun : syscallMmapHandler lastFrame 0x400000 0x2000 2 with
  | error e =>
    rw [hrun] at hok
    exact nomatch hok
  | ok r =>
    obtain ⟨m', a⟩ := r
    simp only [hrun, Except.map, Except.ok.injEq, Prod.mk.injEq] at hok
    obtain ⟨hregions, rfl⟩ := hok
    have hfree := (hatomic.unchanged m' hrun).2 0x3000
    rw [hregions] at hfree
    exact absurd hfree (by decide +kernel)

end Rastapopoulos.Vmm
