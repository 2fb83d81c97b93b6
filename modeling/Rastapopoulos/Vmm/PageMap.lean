import Rastapopoulos.Vmm.Basic
import Rastapopoulos.Pmm.Exhaustion

/-!
# Page tables implement a map

What the functions of the virtual memory manager do to memory, and that this is an update of the
partial map from pages to frames and flags (`Machine.space`).
-/

namespace Rastapopoulos.Vmm

open Paging Function
open KernelHeap (pageSize)

variable {m m' : Machine} {va pa f t : ℕ} {flags w : BitVec 32}

/-! ## Accesses -/

theorem vaInfo_eq (va : ℕ) : vaInfo va = ⟨dirIndex va, tableIndex va⟩ := by
  rw [vaInfo, Nat.shiftRight_eq_div_pow, Nat.shiftRight_eq_div_pow, dirIndex, tableIndex]

theorem readWord_of (h : translate m.mem m.cr3 va = some f) :
    readWord m va = .ok (m.mem f (wordIndex va)) := by
  rw [readWord, h]

theorem writeWord_of (h : translate m.mem m.cr3 va = some f) :
    writeWord m va w = .ok { m with mem := m.mem.write f (wordIndex va) w } := by
  rw [writeWord, h]

/-- Words stored one after another into a frame that the stores do not unmap. -/
theorem foldlM_writeWord {c : Fin 1024 → BitVec 32} {l : List (Fin 1024)}
    (h : ∀ mem : Memory, (∀ g, g ≠ f → mem g = m.mem g) → ∀ i : Fin 1024,
      translate mem m.cr3 (va + 4 * i) = some f ∧ wordIndex (va + 4 * i) = i) :
    l.foldlM (fun m (i : Fin 1024) => writeWord m (va + 4 * i) (c i)) m = .ok { m with
      mem := update m.mem f fun i => if i ∈ l then c i else m.mem f i } := by
  induction l generalizing m with
  | nil =>
    simp
  | cons i l ih =>
    obtain ⟨htr, hidx⟩ := h m.mem (fun _ _ => rfl) i
    rw [List.foldlM_cons, writeWord_of htr, ok_bind, hidx, ih]
    · congr 2
      funext g
      by_cases hg : g = f
      · subst hg
        simp only [update_self]
        funext k
        by_cases hk : k ∈ l
        · simp [hk]
        · by_cases hki : k = i
          · simp [hki]
          · simp [hk, hki, Memory.write_of_index_ne hki]
      · simp [hg, Memory.write_of_ne hg]
    · intro mem hmem
      refine h mem fun g hg => (hmem g hg).trans ?_
      exact Memory.write_of_ne hg

theorem bzero_of (h : ∀ mem : Memory, (∀ g, g ≠ f → mem g = m.mem g) → ∀ i : Fin 1024,
      translate mem m.cr3 (va + 4 * i) = some f ∧ wordIndex (va + 4 * i) = i) :
    bzero m va = .ok { m with mem := m.mem.clear f } := by
  rw [bzero, foldlM_writeWord h]
  simp [Memory.clear]

section Window

variable (hself : target (m.mem m.cr3 1023) = some m.cr3) (d j : Fin 1024)

include hself

theorem readWord_pagedirEntry : readWord m (pagedirEntry d) = .ok (m.mem m.cr3 d) := by
  obtain ⟨htr, hidx⟩ := translate_directory hself d
  rw [pagedirEntry, readWord_of htr, hidx]

theorem writeWord_pagedirEntry :
    writeWord m (pagedirEntry d) w = .ok { m with mem := m.mem.write m.cr3 d w } := by
  obtain ⟨htr, hidx⟩ := translate_directory hself d
  rw [pagedirEntry, writeWord_of htr, hidx]

variable {d} (ht : target (m.mem m.cr3 d) = some t)

include ht

theorem readWord_pagetableEntry : readWord m (pagetableEntry ⟨d, j⟩) = .ok (m.mem t j) := by
  obtain ⟨htr, hidx⟩ := translate_window hself d j
  rw [pagetableEntry, getPagetable, pageSize, readWord_of (htr.trans ht), hidx]

theorem writeWord_pagetableEntry :
    writeWord m (pagetableEntry ⟨d, j⟩) w = .ok { m with mem := m.mem.write t j w } := by
  obtain ⟨htr, hidx⟩ := translate_window hself d j
  rw [pagetableEntry, getPagetable, pageSize, writeWord_of (htr.trans ht), hidx]

theorem bzero_getPagetable (hne : t ≠ m.cr3) :
    bzero m (getPagetable ⟨d, j⟩) = .ok { m with mem := m.mem.clear t } := by
  refine bzero_of fun mem hmem i => ?_
  have hdir := hmem m.cr3 hne.symm
  have hself' : target (mem m.cr3 1023) = some m.cr3 := by rw [hdir]; exact hself
  obtain ⟨htr, hidx⟩ := translate_window hself' d i
  rw [hdir] at htr
  exact ⟨htr.trans ht, hidx⟩

end Window

theorem allocFrame_eq_ok {m₁ : Machine} : allocFrame m = .ok (m₁, t) ↔
    ∃ regions, Pmm.pmmAlloc m.regions = .ok (regions, some t) ∧
      m₁ = { m with regions := regions } := by
  unfold allocFrame alloc
  cases h : Pmm.pmmAlloc m.regions with
  | error e => simp [Except.mapError]
  | ok r =>
    obtain ⟨regions, _ | frame⟩ := r
    · simp [Except.mapError]
    · simp [Except.mapError, eq_comm, and_comm]

/-! ## Well-formed machines -/

/-- A page that a search of the bitmaps can find. -/
def Clear (regions : List Pmm.Region) (f : ℕ) : Prop :=
  ∃ region ∈ regions, ∃ i < region.bitmap.size, region.bitmap.bit i = false ∧
    f = addW region.addr (i * pageSize)

variable {regions : List Pmm.Region}

/-- Under a layout, these are the pages that are not in use. -/
theorem Clear.free (hl : Pmm.Layout regions) (h : Clear regions f) :
    Pmm.Page regions f ∧ ¬ Pmm.Taken regions f := by
  obtain ⟨region, hr, i, hi, hbit, rfl⟩ := h
  obtain ⟨hpage, hidx⟩ := (hl.sound region hr).hasPage_index hi
  rw [addW_of_lt (hpage.2.2.trans (hl.below region hr))]
  refine ⟨⟨region, hr, hpage⟩, ?_⟩
  rw [hl.taken_iff hr hpage, Pmm.Region.taken, hidx, hbit]
  decide

theorem pmmAlloc_clear {regions' : List Pmm.Region}
    (hs : ∀ region ∈ regions, region.Sound) (h : Pmm.pmmAlloc regions = .ok (regions', some f)) :
    Clear regions f ∧ f % pageSize = 0 ∧ f < wordMod := by
  rcases Pmm.pmmAlloc_cases hs with
    ⟨pre, region, post, i, hr, -, hi, hbit, -, heq⟩ | ⟨-, heq⟩ | ⟨_, _, _, _, _, _, _, heq⟩
  · cases h.symm.trans heq
    have hmem : region ∈ regions := by simp [hr]
    refine ⟨⟨region, hmem, i, hi, hbit, rfl⟩, ?_, addW_lt _ _⟩
    have haddr := (hs region hmem).addr_page
    rw [addW]
    unfold pageSize wordMod at *
    omega
  · exact nomatch h.symm.trans heq
  · exact nomatch h.symm.trans heq

/-- Paging is enabled, and the page tables of the current directory are different frames. -/
structure Running (m : Machine) : Prop where
  paging : m.pagingEnabled = true
  distinct : Distinct m.mem m.cr3

/-- Besides, the frames that can be allocated are not among them. -/
structure WellFormed (m : Machine) : Prop extends Running m where
  sound : ∀ region ∈ m.regions, region.Sound
  clear : ∀ f, Clear m.regions f → ∀ d, target (m.mem m.cr3 d) ≠ some f

/-! ## What the functions do to memory -/

section Effects

variable (h : Running m)

include h

/-- What `get_va_info_ex` reports of a page. -/
theorem exists_vaInfoEx (va : ℕ) : ∃ info, vaInfoEx m va = .ok info ∧
    info.frame.toNat = (lookup m.mem m.cr3 (dirIndex va) (tableIndex va)).elim 0 frameOf ∧
    info.flags = (lookup m.mem m.cr3 (dirIndex va) (tableIndex va)).elim 0 flagsOf := by
  rw [vaInfoEx, vaInfo_eq, check_of _ h.paging, ok_bind, lookup]
  simp only [readWord_pagedirEntry h.distinct.self, ok_bind]
  cases ht : target (m.mem m.cr3 (dirIndex va)) with
  | none =>
    rw [if_neg (target_eq_none.mp ht)]
    exact ⟨_, rfl, rfl, rfl⟩
  | some t =>
    simp only [if_pos (target_eq_some.mp ht).1, readWord_pagetableEntry h.distinct.self _ ht, ok_bind,
      Option.bind_some]
    split <;> exact ⟨_, rfl, rfl, rfl⟩

variable (ha : va % pageSize = 0)

include ha

theorem vmmGetPhysical_eq : vmmGetPhysical m va =
    .ok ((lookup m.mem m.cr3 (dirIndex va) (tableIndex va)).elim 0 frameOf) := by
  obtain ⟨info, hinfo, hframe, -⟩ := exists_vaInfoEx h va
  rw [vmmGetPhysical, check_of _ ha, ok_bind, hinfo, ← hframe]
  rfl

theorem vmmGetFlags_eq : vmmGetFlags m va =
    .ok ((lookup m.mem m.cr3 (dirIndex va) (tableIndex va)).elim 0 flagsOf) := by
  obtain ⟨info, hinfo, -, hflags⟩ := exists_vaInfoEx h va
  rw [vmmGetFlags, check_of _ ha, ok_bind, hinfo, ← hflags]
  rfl

section Map

variable (hpa : pa % pageSize = 0) (hflags : flags &&& vmmPagePresent ≠ 0)

include hpa hflags

/-- `vmm_map`, where there is a page table. -/
theorem vmmMap_of_some (ht : target (m.mem m.cr3 (dirIndex va)) = some t) :
    vmmMap m va pa flags = if Present (m.mem t (tableIndex va)) then .error .abort else
      .ok { m with mem := m.mem.write t (tableIndex va) (entry pa flags) } := by
  rw [vmmMap, vaInfo_eq, check_of _ h.paging, check_of _ hflags, check_of _ ha, check_of _ hpa]
  simp only [ok_bind, readWord_pagedirEntry h.distinct.self, if_pos (target_eq_some.mp ht).1,
    readWord_pagetableEntry h.distinct.self _ ht, writeWord_pagetableEntry h.distinct.self _ ht]
  split
  · rw [check_of_not _ (not_not.mpr ‹_›)]
    rfl
  · rw [check_of _ ‹_›]
    rfl

/-- `vmm_map`, where a page table is added. -/
theorem vmmMap_of_none (hsound : ∀ region ∈ m.regions, region.Sound)
    (hclear : ∀ f, Clear m.regions f → ∀ d, target (m.mem m.cr3 d) ≠ some f)
    (ht : target (m.mem m.cr3 (dirIndex va)) = none)
    (halloc : Pmm.pmmAlloc m.regions = .ok (regions, some t)) :
    vmmMap m va pa flags = .ok { m with
      regions := regions
      mem := ((m.mem.write m.cr3 (dirIndex va) (entry t pdeFlags)).clear t).write t
        (tableIndex va) (entry pa flags) } := by
  obtain ⟨ht', hpage, hlt⟩ := pmmAlloc_clear hsound halloc
  have hself := h.distinct.self
  have hne : t ≠ m.cr3 := fun heq => hclear t ht' 1023 (heq ▸ hself)
  have hd : (1023 : Fin 1024) ≠ dirIndex va := by
    intro heq
    rw [← heq, hself] at ht
    exact nomatch ht
  have hentry : BitVec.ofNat 32 t ||| pdeFlags = entry t pdeFlags := by
    rw [entry, ofNat_and_mask hpage hlt]
  have htarget : target (entry t pdeFlags) = some t :=
    target_entry hpage hlt (by decide) (by decide)
  rw [vmmMap, vaInfo_eq, check_of _ h.paging, check_of _ hflags, check_of _ ha, check_of _ hpa]
  simp only [ok_bind, readWord_pagedirEntry hself, if_neg (target_eq_none.mp ht),
    allocFrame_eq_ok.mpr ⟨regions, halloc, rfl⟩, hentry]
  -- the entry of the directory, which leads to the new table
  rw [writeWord_pagedirEntry (by exact hself), ok_bind]
  have hself₁ : target (m.mem.write m.cr3 (dirIndex va) (entry t pdeFlags) m.cr3 1023) =
      some m.cr3 := by
    rw [Memory.write_of_index_ne hd]
    exact hself
  have ht₁ : target (m.mem.write m.cr3 (dirIndex va) (entry t pdeFlags) m.cr3 (dirIndex va)) =
      some t := by
    rw [Memory.write_same]
    exact htarget
  rw [readWord_pagedirEntry (by exact hself₁), ok_bind, check_of _ (target_eq_some.mp ht₁).1,
    ok_bind, bzero_getPagetable (by exact hself₁) _ (by exact ht₁) (by exact hne), ok_bind]
  have hdir : (m.mem.write m.cr3 (dirIndex va) (entry t pdeFlags)).clear t m.cr3 =
      m.mem.write m.cr3 (dirIndex va) (entry t pdeFlags) m.cr3 := Memory.clear_of_ne hne.symm
  rw [← hdir] at hself₁ ht₁
  exact writeWord_pagetableEntry (by exact hself₁) _ (by exact ht₁)

end Map

/-- `vmm_remap`. -/
theorem vmmRemap_of_some (hflags : flags &&& vmmPagePresent ≠ 0)
    (ht : target (m.mem m.cr3 (dirIndex va)) = some t)
    (hp : Present (m.mem t (tableIndex va))) :
    vmmRemap m va flags = .ok { m with
      mem := m.mem.write t (tableIndex va)
        ((m.mem t (tableIndex va) &&& 0xFFFFF000) ||| flags) } := by
  rw [vmmRemap, vaInfo_eq, check_of _ h.paging, check_of _ ha, check_of _ hflags]
  simp only [ok_bind, readWord_pagedirEntry h.distinct.self, check_of _ (target_eq_some.mp ht).1,
    readWord_pagetableEntry h.distinct.self _ ht, check_of _ hp,
    writeWord_pagetableEntry h.distinct.self _ ht]

/-- `vmm_unmap`. -/
theorem vmmUnmap_of_some (ht : target (m.mem m.cr3 (dirIndex va)) = some t)
    (hp : Present (m.mem t (tableIndex va))) :
    vmmUnmap m va = .ok { m with
      mem := m.mem.write t (tableIndex va) (m.mem t (tableIndex va) &&& ~~~1) } := by
  rw [vmmUnmap, vaInfo_eq, check_of _ h.paging, check_of _ ha]
  simp only [ok_bind, readWord_pagedirEntry h.distinct.self, check_of _ (target_eq_some.mp ht).1,
    readWord_pagetableEntry h.distinct.self _ ht, check_of _ hp,
    writeWord_pagetableEntry h.distinct.self _ ht]

end Effects

/-! ## Inversion -/

/-- `t` is the page table for `va`: it was there, or it has been added. -/
inductive Linked (m : Machine) (va : ℕ) : Machine → ℕ → Prop
  | old {t : ℕ} : target (m.mem m.cr3 (dirIndex va)) = some t → Linked m va m t
  | new {t : ℕ} {regions : List Pmm.Region} : target (m.mem m.cr3 (dirIndex va)) = none →
      Pmm.pmmAlloc m.regions = .ok (regions, some t) →
      Linked m va { m with
        regions := regions
        mem := (m.mem.write m.cr3 (dirIndex va) (entry t pdeFlags)).clear t } t

theorem exists_linked (havail : (∃ t, target (m.mem m.cr3 (dirIndex va)) = some t) ∨
    ∃ regions t, Pmm.pmmAlloc m.regions = .ok (regions, some t)) : ∃ m' t, Linked m va m' t := by
  cases ht : target (m.mem m.cr3 (dirIndex va)) with
  | some t => exact ⟨m, t, .old ht⟩
  | none =>
    obtain ⟨regions, t, halloc⟩ := havail.resolve_left (by simp [ht])
    exact ⟨_, t, .new ht halloc⟩

theorem Linked.cr3_eq (hlink : Linked m va m' t) : m'.cr3 = m.cr3 := by cases hlink <;> rfl

section Inversion

variable (h : WellFormed m)

include h

/-- A frame that is allocated for a page table. -/
theorem new_table (halloc : Pmm.pmmAlloc m.regions = .ok (regions, some t)) :
    (∀ d, target (m.mem m.cr3 d) ≠ some t) ∧ target (entry t pdeFlags) = some t ∧ m.cr3 ≠ t := by
  obtain ⟨hclear, hpage, hlt⟩ := pmmAlloc_clear h.sound halloc
  have hnew := h.clear t hclear
  exact ⟨hnew, target_entry hpage hlt (by decide) (by decide), fun heq =>
    hnew 1023 (heq ▸ h.distinct.self)⟩

theorem Linked.vmmMap_eq (hlink : Linked m va m' t) (ha : va % pageSize = 0)
    (hpa : pa % pageSize = 0) (hflags : flags &&& vmmPagePresent ≠ 0)
    (habsent : ¬ Present (m'.mem t (tableIndex va))) : vmmMap m va pa flags =
      .ok { m' with mem := m'.mem.write t (tableIndex va) (entry pa flags) } := by
  cases hlink with
  | old ht => exact (vmmMap_of_some h.toRunning ha hpa hflags ht).trans (if_neg habsent)
  | new ht halloc => exact vmmMap_of_none h.toRunning ha hpa hflags h.sound h.clear ht halloc

theorem vmmMap_ok (hmap : vmmMap m va pa flags = .ok m') :
    va % pageSize = 0 ∧ pa % pageSize = 0 ∧ flags &&& vmmPagePresent ≠ 0 ∧
      ∃ m₁ t, Linked m va m₁ t ∧ ¬ Present (m₁.mem t (tableIndex va)) ∧
        m' = { m₁ with mem := m₁.mem.write t (tableIndex va) (entry pa flags) } := by
  have hchecks := hmap
  simp only [vmmMap, vaInfo_eq, bind_eq_ok, check_eq_ok] at hchecks
  obtain ⟨-, -, -, hflags, -, ha, -, hpa, pde, hpde, hrest⟩ := hchecks
  refine ⟨ha, hpa, hflags, ?_⟩
  cases ht : target (m.mem m.cr3 (dirIndex va)) with
  | some t =>
    rw [vmmMap_of_some h.toRunning ha hpa hflags ht] at hmap
    split at hmap
    · exact nomatch hmap
    · cases hmap
      exact ⟨m, t, .old ht, ‹_›, rfl⟩
  | none =>
    rw [readWord_pagedirEntry h.distinct.self] at hpde
    cases hpde
    rw [if_neg (target_eq_none.mp ht), bind_eq_ok] at hrest
    obtain ⟨⟨m₁, t⟩, halloc, -⟩ := hrest
    obtain ⟨regions, halloc, -⟩ := allocFrame_eq_ok.mp halloc
    rw [vmmMap_of_none h.toRunning ha hpa hflags h.sound h.clear ht halloc] at hmap
    cases hmap
    refine ⟨_, t, .new ht halloc, fun hp => not_present_zero ?_, rfl⟩
    dsimp only at hp
    rwa [Memory.clear_same] at hp

/-- Why `vmm_map` stops. -/
theorem vmmMap_error {e : Fault} (hpa : pa % pageSize = 0) (hflags : flags &&& vmmPagePresent ≠ 0)
    (he : vmmMap m va pa flags = .error e) : va % pageSize ≠ 0 ∧ e = .assertion ∨
      (∃ t, target (m.mem m.cr3 (dirIndex va)) = some t ∧ Present (m.mem t (tableIndex va)) ∧
        e = .abort) ∨
      target (m.mem m.cr3 (dirIndex va)) = none ∧ allocFrame m = .error e := by
  by_cases ha : va % pageSize = 0
  · refine .inr ?_
    cases ht : target (m.mem m.cr3 (dirIndex va)) with
    | some t =>
      rw [vmmMap_of_some h.toRunning ha hpa hflags ht] at he
      split at he
      · exact .inl ⟨t, rfl, ‹_›, (Except.error.inj he).symm⟩
      · cases he
    | none =>
      refine .inr ⟨rfl, ?_⟩
      cases halloc : allocFrame m with
      | error e' =>
        rw [vmmMap, vaInfo_eq, check_of _ h.paging, check_of _ hflags, check_of _ ha,
          check_of _ hpa] at he
        simp only [ok_bind, readWord_pagedirEntry h.distinct.self, if_neg (target_eq_none.mp ht),
          halloc, error_bind, Except.error.injEq] at he
        rw [he]
      | ok r =>
        obtain ⟨regions, halloc, -⟩ := allocFrame_eq_ok.mp halloc
        rw [vmmMap_of_none h.toRunning ha hpa hflags h.sound h.clear ht halloc] at he
        cases he
  · rw [vmmMap, check_of _ h.paging, check_of _ hflags, check_of_not _ ha] at he
    exact .inl ⟨ha, (Except.error.inj he).symm⟩

theorem vmmUnmap_ok (hunmap : vmmUnmap m va = .ok m') :
    va % pageSize = 0 ∧ ∃ t, target (m.mem m.cr3 (dirIndex va)) = some t ∧
      m' = { m with mem := m.mem.write t (tableIndex va) (m.mem t (tableIndex va) &&& ~~~1) } := by
  have hchecks := hunmap
  simp only [vmmUnmap, vaInfo_eq, bind_eq_ok, check_eq_ok] at hchecks
  obtain ⟨-, -, -, ha, pde, hpde, -, hp, pte, hpte, -, hp', -⟩ := hchecks
  rw [readWord_pagedirEntry h.distinct.self] at hpde
  cases hpde
  have ht : target (m.mem m.cr3 (dirIndex va)) = some (frameOf (m.mem m.cr3 (dirIndex va))) :=
    hp.target
  rw [readWord_pagetableEntry h.distinct.self _ ht] at hpte
  cases hpte
  rw [vmmUnmap_of_some h.toRunning ha ht hp'] at hunmap
  cases hunmap
  exact ⟨ha, _, ht, rfl⟩

theorem vmmRemap_ok (hremap : vmmRemap m va flags = .ok m') :
    flags &&& vmmPagePresent ≠ 0 ∧ ∃ t, target (m.mem m.cr3 (dirIndex va)) = some t ∧
      Present (m.mem t (tableIndex va)) ∧
      m' = { m with
        mem := m.mem.write t (tableIndex va)
          ((m.mem t (tableIndex va) &&& 0xFFFFF000) ||| flags) } := by
  have hchecks := hremap
  simp only [vmmRemap, vaInfo_eq, bind_eq_ok, check_eq_ok] at hchecks
  obtain ⟨-, -, -, ha, -, hflags, pde, hpde, -, hp, pte, hpte, -, hp', -⟩ := hchecks
  rw [readWord_pagedirEntry h.distinct.self] at hpde
  cases hpde
  have ht : target (m.mem m.cr3 (dirIndex va)) = some (frameOf (m.mem m.cr3 (dirIndex va))) :=
    hp.target
  rw [readWord_pagetableEntry h.distinct.self _ ht] at hpte
  cases hpte
  rw [vmmRemap_of_some h.toRunning ha hflags ht hp'] at hremap
  cases hremap
  exact ⟨hflags, _, ht, hp', rfl⟩

omit h in
/-- The page of a mapped page is exchanged: what is left of the two steps is one entry. -/
theorem exchange (h : Running m) (ha : va % pageSize = 0) (hva : dirIndex va ≠ 1023)
    (hpa : pa % pageSize = 0) (hflags : flags &&& vmmPagePresent ≠ 0)
    (ht : target (m.mem m.cr3 (dirIndex va)) = some t) (hp : Present (m.mem t (tableIndex va))) :
    ∃ m₁, vmmUnmap m va = .ok m₁ ∧ vmmMap m₁ va pa flags =
      .ok { m with mem := m.mem.write t (tableIndex va) (entry pa flags) } := by
  refine ⟨_, vmmUnmap_of_some h ha ht hp, ?_⟩
  have hne := h.distinct.ne_cr3 hva ht
  have hrun : Running { m with
      mem := m.mem.write t (tableIndex va) (m.mem t (tableIndex va) &&& ~~~1) } :=
    ⟨h.paging, h.distinct.write_table hva ht⟩
  have ht₁ : target (m.mem.write t (tableIndex va) (m.mem t (tableIndex va) &&& ~~~1) m.cr3
      (dirIndex va)) = some t := by
    rw [Memory.write_of_ne hne.symm]
    exact ht
  have habsent : ¬ Present (m.mem.write t (tableIndex va) (m.mem t (tableIndex va) &&& ~~~1) t
      (tableIndex va)) := by
    rw [Memory.write_same]
    exact not_present_and_not _
  rw [vmmMap_of_some hrun ha hpa hflags ht₁, if_neg habsent]
  dsimp only
  rw [Memory.write_write]

variable {d j : Fin 1024}

/-- Adding a page table changes no look-up. -/
theorem Linked.lookup_eq (hlink : Linked m va m' t) (hd : d ≠ 1023) :
    lookup m'.mem m'.cr3 d j = lookup m.mem m.cr3 d j := by
  cases hlink with
  | old ht => rfl
  | @new t regions ht halloc =>
    obtain ⟨hnew, htarget, -⟩ := new_table h halloc
    exact h.distinct.lookup_link ht hnew htarget hd

omit h in
/-- Other frames, and other entries of the directory, are the same. -/
theorem Linked.mem_eq {g : ℕ} (hlink : Linked m va m' t) (hg : g ≠ t)
    (hd : g = m.cr3 → d ≠ dirIndex va) : m'.mem g d = m.mem g d := by
  cases hlink with
  | old ht => rfl
  | new ht halloc =>
    show (m.mem.write m.cr3 (dirIndex va) (entry t pdeFlags)).clear t g d = m.mem g d
    rw [Memory.clear_of_ne hg, Memory.write_apply, if_neg fun hc => hd hc.1 hc.2]

/-- The page tables once there is one for `va`. -/
theorem Linked.target_eq (hlink : Linked m va m' t) (d : Fin 1024) :
    target (m'.mem m'.cr3 d) = if d = dirIndex va then some t else target (m.mem m.cr3 d) := by
  by_cases hd : d = dirIndex va
  · rw [if_pos hd, hd]
    cases hlink with
    | old ht => exact ht
    | new ht halloc =>
      obtain ⟨-, htarget, hne⟩ := new_table h halloc
      show target ((m.mem.write m.cr3 (dirIndex va) (entry t pdeFlags)).clear t m.cr3 _) = some t
      rw [Memory.clear_of_ne hne, Memory.write_same, htarget]
  · rw [if_neg hd]
    cases hlink with
    | old ht => rfl
    | new ht halloc =>
      exact congrArg target ((Linked.new ht halloc).mem_eq (new_table h halloc).2.2 fun _ => hd)

theorem Linked.target_of_some (hlink : Linked m va m' t)
    (hd : target (m.mem m.cr3 d) = some f) : target (m'.mem m'.cr3 d) = some f := by
  rw [hlink.target_eq h]
  split
  · subst d
    cases hlink with
    | old ht => exact ht.symm.trans hd
    | new ht => cases ht.symm.trans hd
  · exact hd

theorem Linked.running (hlink : Linked m va m' t) : Running m' := by
  cases hlink with
  | old ht => exact h.toRunning
  | new ht halloc =>
    obtain ⟨hnew, htarget, -⟩ := new_table h halloc
    exact ⟨h.paging, h.distinct.link ht hnew htarget⟩

theorem Linked.distinct (hlink : Linked m va m' t) :
    Distinct m'.mem m'.cr3 ∧ target (m'.mem m'.cr3 (dirIndex va)) = some t :=
  ⟨(hlink.running h).distinct, (hlink.target_eq h _).trans (if_pos rfl)⟩

/-- Mapping a page does not change the translation of others. -/
theorem Linked.translate_of_ne {va' : ℕ} (hlink : Linked m va m' t) (hva : dirIndex va ≠ 1023)
    (hva' : dirIndex va' ≠ 1023)
    (hne : ¬ (dirIndex va' = dirIndex va ∧ tableIndex va' = tableIndex va)) :
    translate (m'.mem.write t (tableIndex va) w) m'.cr3 va' = translate m.mem m.cr3 va' := by
  obtain ⟨hdistinct, ht⟩ := hlink.distinct h
  rw [translate_eq_lookup, translate_eq_lookup, hdistinct.lookup_write hva ht, if_neg hne,
    hlink.lookup_eq h hva']

end Inversion

/-! ## The map -/

/-- The pages below the window of page tables. -/
abbrev Page := { va : ℕ // va % pageSize = 0 ∧ va < 0xFFC00000 }

/-- A partial map from pages to frames and flags. -/
abbrev AddressSpace := Page → Option (ℕ × BitVec 32)

/-- The map that the current page directory stands for. -/
def Machine.space (m : Machine) : AddressSpace := fun page =>
  (lookup m.mem m.cr3 (dirIndex page.1) (tableIndex page.1)).map fun e => (frameOf e, flagsOf e)

variable {page : Page}

theorem Page.dirIndex_ne (page : Page) : dirIndex page.1 ≠ 1023 := by
  obtain ⟨va, ha, hlt⟩ := page
  intro hd
  have := congrArg Fin.val hd
  simp only [dirIndex, Fin.val_ofNat] at this
  omega

theorem Page.ext_iff (page page' : Page) : page' = page ↔
    dirIndex page'.1 = dirIndex page.1 ∧ tableIndex page'.1 = tableIndex page.1 := by
  constructor
  · rintro rfl
    exact ⟨rfl, rfl⟩
  · rintro ⟨hd, hj⟩
    obtain ⟨va, ha, hlt⟩ := page
    obtain ⟨va', ha', hlt'⟩ := page'
    have hw : (0xFFC00000 : ℕ) < wordMod := by decide
    exact Subtype.ext (page_ext ha' (hlt'.trans hw) ha (hlt.trans hw) hd hj)

/-- A write to the entry of a page. -/
theorem space_write (h : Distinct m.mem m.cr3) (ht : target (m.mem m.cr3 (dirIndex page.1)) = some t) :
    ({ m with mem := m.mem.write t (tableIndex page.1) w } : Machine).space =
      update m.space page (if Present w then some (frameOf w, flagsOf w) else none) := by
  funext page'
  rw [Machine.space, h.lookup_write page.dirIndex_ne ht]
  by_cases heq : page' = page
  · rw [heq, update_self, if_pos ⟨rfl, rfl⟩]
    split <;> rfl
  · rw [update_of_ne heq, if_neg (mt (Page.ext_iff page page').mpr heq)]
    rfl

/-- What an entry says about its page. -/
theorem space_entry (hpa : pa % pageSize = 0) (hlt : pa < wordMod) (hflags : flags.toNat < 2 ^ 12)
    (hpresent : flags &&& vmmPagePresent ≠ 0) : (if Present (entry pa flags) then
      some (frameOf (entry pa flags), flagsOf (entry pa flags)) else none) = some (pa, flags) := by
  rw [if_pos ((present_entry hpa hlt hflags).mpr hpresent), frameOf_entry hpa hlt hflags,
    flagsOf_entry hpa hlt hflags]

theorem space_eq_of_some (ht : target (m.mem m.cr3 (dirIndex page.1)) = some t) :
    m.space page = if Present (m.mem t (tableIndex page.1)) then
      some (frameOf (m.mem t (tableIndex page.1)), flagsOf (m.mem t (tableIndex page.1)))
    else none := by
  rw [Machine.space, lookup, ht, Option.bind_some]
  split <;> rfl

theorem exists_of_space {frame : ℕ} (hs : m.space page = some (frame, flags)) :
    ∃ t, target (m.mem m.cr3 (dirIndex page.1)) = some t ∧
      Present (m.mem t (tableIndex page.1)) ∧ frameOf (m.mem t (tableIndex page.1)) = frame ∧
      flagsOf (m.mem t (tableIndex page.1)) = flags := by
  obtain ⟨e, he, heq⟩ := Option.map_eq_some_iff.mp hs
  obtain ⟨t, ht, rfl, hpresent⟩ := lookup_eq_some.mp he
  cases heq
  exact ⟨t, ht, hpresent, rfl, rfl⟩

/-- What `vmm_get_physical` and `vmm_get_flags` report. -/
theorem report_of_space (h : Running m) (page : Page) :
    vmmGetPhysical m page.1 = .ok ((m.space page).elim 0 Prod.fst) ∧
      vmmGetFlags m page.1 = .ok ((m.space page).elim 0 Prod.snd) := by
  rw [vmmGetPhysical_eq h page.2.1, vmmGetFlags_eq h page.2.1, Machine.space]
  cases lookup m.mem m.cr3 (dirIndex page.1) (tableIndex page.1) with
  | none => exact ⟨rfl, rfl⟩
  | some e => exact ⟨rfl, rfl⟩

theorem space_eq_none_iff (h : Running m) :
    m.space page = none ↔ vmmGetFlags m page.1 = .ok 0 := by
  rw [(report_of_space h page).2]
  cases hs : m.space page with
  | none => simp
  | some p =>
    obtain ⟨t, -, hp, -, hflags⟩ := exists_of_space hs
    have hne : p.2 ≠ 0 := by
      intro hzero
      have hnat := flagsOf_eq (m.mem t (tableIndex page.1))
      rw [hflags, hzero] at hnat
      rw [present_iff] at hp
      have hzero : (0 : BitVec 32).toNat = 0 := rfl
      omega
    exact ⟨fun hc => (nomatch hc), fun hc => absurd (Except.ok.inj hc) hne⟩

section Refinement

variable (h : WellFormed m)

include h

theorem Linked.space (hlink : Linked m va m' t) : m'.space = m.space := by
  funext page
  exact congrArg _ (hlink.lookup_eq h page.dirIndex_ne)

theorem Linked.space_eq_none_iff (hlink : Linked m page.1 m' t) :
    m.space page = none ↔ ¬ Present (m'.mem t (tableIndex page.1)) := by
  rw [← hlink.space h, space_eq_of_some (hlink.distinct h).2]
  simp

/-- **`vmm_map`** adds a page to the map. -/
theorem vmmMap_space (hunmapped : m.space page = none) (hpa : pa % pageSize = 0)
    (hlt : pa < wordMod) (hflags : flags.toNat < 2 ^ 12) (hpresent : flags &&& vmmPagePresent ≠ 0)
    (havail : (∃ t, target (m.mem m.cr3 (dirIndex page.1)) = some t) ∨
      ∃ regions t, Pmm.pmmAlloc m.regions = .ok (regions, some t)) :
    ∃ m', vmmMap m page.1 pa flags = .ok m' ∧ Running m' ∧
      m'.space = update m.space page (some (pa, flags)) := by
  obtain ⟨m₁, t, hlink⟩ := exists_linked havail
  obtain ⟨hdistinct, ht⟩ := hlink.distinct h
  have habsent := (hlink.space_eq_none_iff h).mp hunmapped
  refine ⟨_, hlink.vmmMap_eq h page.2.1 hpa hpresent habsent,
    ⟨(hlink.running h).paging, hdistinct.write_table page.dirIndex_ne ht⟩, ?_⟩
  rw [space_write hdistinct ht, space_entry hpa hlt hflags hpresent, hlink.space h]

/-- **`vmm_remap`** changes the flags of a page. -/
theorem vmmRemap_space {old : BitVec 32} (hmapped : m.space page = some (f, old))
    (hflags : flags.toNat < 2 ^ 12) (hpresent : flags &&& vmmPagePresent ≠ 0) :
    ∃ m', vmmRemap m page.1 flags = .ok m' ∧ Running m' ∧
      m'.space = update m.space page (some (f, flags)) := by
  obtain ⟨t, ht, hp, hf, -⟩ := exists_of_space hmapped
  refine ⟨_, vmmRemap_of_some h.toRunning page.2.1 hpresent ht hp,
    ⟨h.paging, h.distinct.write_table page.dirIndex_ne ht⟩, ?_⟩
  have hframe := frameOf_mod (m.mem t (tableIndex page.1))
  rw [space_write h.distinct ht, and_mask_or,
    if_pos ((present_entry hframe frameOf_lt hflags).mpr hpresent),
    frameOf_entry hframe frameOf_lt hflags, flagsOf_entry hframe frameOf_lt hflags, hf]

/-- **`vmm_unmap`** removes a page from the map. -/
theorem vmmUnmap_space {p : ℕ × BitVec 32} (hmapped : m.space page = some p) :
    ∃ m', vmmUnmap m page.1 = .ok m' ∧ Running m' ∧
      m'.space = update m.space page none := by
  obtain ⟨t, ht, hp, -, -⟩ := exists_of_space hmapped
  refine ⟨_, vmmUnmap_of_some h.toRunning page.2.1 ht hp,
    ⟨h.paging, h.distinct.write_table page.dirIndex_ne ht⟩, ?_⟩
  rw [space_write h.distinct ht, if_neg (not_present_and_not _)]

end Refinement

/-- The same frame and flags are reported for every other page. -/
def SameElsewhere (m m' : Machine) (page : Page) : Prop :=
  ∀ page' : Page, page' ≠ page → vmmGetPhysical m' page'.1 = vmmGetPhysical m page'.1 ∧
    vmmGetFlags m' page'.1 = vmmGetFlags m page'.1

/-- What is reported after an update of the map. -/
theorem report_of_update {p : Option (ℕ × BitVec 32)} (h : Running m) (h' : Running m')
    (hspace : m'.space = update m.space page p) :
    vmmGetPhysical m' page.1 = .ok (p.elim 0 Prod.fst) ∧
      vmmGetFlags m' page.1 = .ok (p.elim 0 Prod.snd) ∧ SameElsewhere m m' page := by
  have hpage := report_of_space h' page
  rw [hspace, update_self] at hpage
  refine ⟨hpage.1, hpage.2, fun page' hne => ?_⟩
  have hpage' := report_of_space h' page'
  rw [hspace, update_of_ne hne] at hpage'
  rw [hpage'.1, hpage'.2, (report_of_space h page').1, (report_of_space h page').2]
  exact ⟨rfl, rfl⟩

/-- **Page tables implement a map.** Where there is no page table yet, `vmm_map` needs a frame for
it; without one it does not return. -/
theorem vmm_implements_map (h : WellFormed m) (page : Page) :
    (∀ (pa : ℕ) (flags : BitVec 32), pa % pageSize = 0 → pa < wordMod → flags.toNat < 2 ^ 12 →
      flags &&& vmmPagePresent ≠ 0 → vmmGetFlags m page.1 = .ok 0 →
      ((∃ t, target (m.mem m.cr3 (dirIndex page.1)) = some t) ∨
        ∃ regions t, Pmm.pmmAlloc m.regions = .ok (regions, some t)) →
      ∃ m', vmmMap m page.1 pa flags = .ok m' ∧ vmmGetPhysical m' page.1 = .ok pa ∧
        vmmGetFlags m' page.1 = .ok flags ∧ SameElsewhere m m' page) ∧
    (vmmGetFlags m page.1 ≠ .ok 0 →
      ∃ m', vmmUnmap m page.1 = .ok m' ∧ vmmGetPhysical m' page.1 = .ok 0 ∧
        vmmGetFlags m' page.1 = .ok 0 ∧ SameElsewhere m m' page) ∧
    (∀ flags : BitVec 32, flags.toNat < 2 ^ 12 → flags &&& vmmPagePresent ≠ 0 →
      vmmGetFlags m page.1 ≠ .ok 0 →
      ∃ m', vmmRemap m page.1 flags = .ok m' ∧
        vmmGetPhysical m' page.1 = vmmGetPhysical m page.1 ∧
        vmmGetFlags m' page.1 = .ok flags ∧ SameElsewhere m m' page) := by
  have hrun := h.toRunning
  have hmapped : vmmGetFlags m page.1 ≠ .ok 0 → ∃ p, m.space page = some p :=
    fun hne => Option.ne_none_iff_exists'.mp (mt (space_eq_none_iff hrun).mp hne)
  refine ⟨fun pa flags hpa hlt hflags hpresent hunmapped havail => ?_, fun hne => ?_,
    fun flags hflags hpresent hne => ?_⟩
  · obtain ⟨m', hmap, hrun', hspace⟩ := vmmMap_space h ((space_eq_none_iff hrun).mpr hunmapped)
      hpa hlt hflags hpresent havail
    exact ⟨m', hmap, report_of_update hrun hrun' hspace⟩
  · obtain ⟨p, hp⟩ := hmapped hne
    obtain ⟨m', hunmap, hrun', hspace⟩ := vmmUnmap_space h hp
    exact ⟨m', hunmap, report_of_update hrun hrun' hspace⟩
  · obtain ⟨⟨f, old⟩, hp⟩ := hmapped hne
    obtain ⟨m', hremap, hrun', hspace⟩ := vmmRemap_space h hp hflags hpresent
    obtain ⟨hphys, hreport⟩ := report_of_update hrun hrun' hspace
    refine ⟨m', hremap, hphys.trans ?_, hreport⟩
    rw [(report_of_space hrun page).1, hp]
    rfl

/-- A directory without page tables, one free frame, and stale data in all other frames. -/
def emptyMachine : Machine where
  mem := fun f i => if f = 0x1000 then (if i = 1023 then 0x1003 else 0) else 0xDEADBEEF
  cr3 := 0x1000
  pagingEnabled := true
  regions := [⟨0x2000, 0x1000, ⟨1, [0]⟩⟩]

theorem emptyMachine_wellFormed : WellFormed emptyMachine := by
  have htarget : ∀ d, target (emptyMachine.mem 0x1000 d) =
      if d = 1023 then some 0x1000 else none := by
    intro d
    by_cases hd : d = 1023
    · subst hd
      decide
    · rw [if_neg hd]
      simp only [emptyMachine, if_true, if_neg hd]
      decide
  refine ⟨⟨rfl, htarget 1023, fun d d' t hd hd' => ?_⟩, ?_, ?_⟩
  · rw [show emptyMachine.cr3 = 0x1000 from rfl, htarget] at hd hd'
    split at hd <;> split at hd' <;> simp_all
  · have hinit : Pmm.pmmInit [⟨0x2000, 0x1000, 1⟩] = .ok emptyMachine.regions := by decide +kernel
    exact fun region hr => (Pmm.pmmInit_fresh hinit region hr).1
  · rintro f ⟨region, hr, i, hi, -, rfl⟩ d hd
    cases List.mem_singleton.mp hr
    obtain rfl : i = 0 := Nat.lt_one_iff.mp hi
    rw [show emptyMachine.cr3 = 0x1000 from rfl, htarget] at hd
    split at hd
    · exact absurd (Option.some.inj hd) (by decide)
    · exact nomatch hd

/-- In it, page `0x400000` gets a new page table. -/
theorem emptyMachine_map : ∃ m', vmmMap emptyMachine 0x400000 0x5000 3 = .ok m' ∧
    vmmGetPhysical m' 0x400000 = .ok 0x5000 ∧ vmmGetFlags m' 0x400000 = .ok 3 ∧
    SameElsewhere emptyMachine m' ⟨0x400000, by decide⟩ := by
  refine (vmm_implements_map emptyMachine_wellFormed ⟨0x400000, by decide⟩).1 0x5000 3 (by decide)
    (by decide) (by decide) (by decide) (by decide) (.inr ⟨[⟨0x2000, 0x1000, ⟨1, [1]⟩⟩], 0x2000, ?_⟩)
  decide +kernel

end Rastapopoulos.Vmm
