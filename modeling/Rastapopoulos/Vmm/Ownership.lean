import Rastapopoulos.Vmm.Supply

/-!
# Who owns a frame

Every frame has one role. The entries of page directories and page tables lead to frames whose role
names the entry, so that no two of them lead to the same frame (`Refs`); and the frames without a
role are those that can be allocated (`Frames`). Roles are not part of the state: an operation keeps
the invariant `Inv` if roles can be found for the frames afterwards.

Entries of the kernel's half are shared by all directories. Pages of the heap that are in use as a
whole (`Kernel.held`) may lead to frames with another role: page directories, and frames that are
mapped for a while. Those that are accessed through such a page are listed in `pins`.
-/

namespace Rastapopoulos.Vmm

open Paging Function
open KernelHeap (pageSize)

/-- What a frame is used for. -/
inductive Role
  | free
  /-- Allocated, and not referenced yet. -/
  | loose
  | directory
  /-- The page table of an entry in the user's half of a directory. -/
  | table (dir : ℕ) (i : Fin 1024)
  /-- The page of an entry in a page table. -/
  | page (table : ℕ) (j : Fin 1024)
  | kernelTable (i : Fin 1024)
  | kernelPage (va : ℕ)
  deriving DecidableEq

/-- The roles of frames that have been allocated, those of the kernel's half apart. -/
def Role.Owned : Role → Prop
  | .loose | .table _ _ | .page _ _ => True
  | _ => False

/-- The roles of frames of the kernel's half. -/
def Role.Kernel : Role → Prop
  | .kernelTable _ | .kernelPage _ => True
  | _ => False

/-- The page of an entry. -/
def pageAddr (i j : Fin 1024) : ℕ := i * 2 ^ 22 + j * 2 ^ 12

/-- The entries of the kernel's half, except for the last one. -/
def KernelIndex (i : Fin 1024) : Prop := 768 ≤ i ∧ i ≤ 1022

instance (i : Fin 1024) : Decidable (KernelIndex i) := inferInstanceAs (Decidable (_ ∧ _))

/-- Roles and the physical memory manager. -/
structure Frames (role : ℕ → Role) (regions : List Pmm.Region) : Prop where
  layout : Pmm.Layout regions
  free : ∀ f, Pmm.Page regions f → ¬ Pmm.Taken regions f → role f = .free
  taken : ∀ f, (role f).Owned → Pmm.Taken regions f
  used : ∀ f, Pmm.Taken regions f → role f ≠ .free

/-- Roles and entries. `live` says which entries of the user's half count. -/
structure Refs (role : ℕ → Role) (live : ℕ → Fin 1024 → Prop) (dirs : List ℕ)
    (pins : List (ℕ × ℕ)) (k : Kernel) : Prop where
  self : target (k.mem k.cr3 1023) = some k.cr3
  cr3_mem : k.cr3 ∈ dirs
  live : ∀ d i, live d i → i < 768 ∧ role d = .directory ∧
    ∀ t, target (k.mem d i) = some t → role t = .table d i
  dirs : ∀ d ∈ dirs, role d = .directory ∧
    ∀ i, KernelIndex i → ∀ t, target (k.mem d i) = some t → role t = .kernelTable i
  page : ∀ t d i, role t = .table d i → ∀ j f, target (k.mem t j) = some f → role f = .page t j
  kernelPage : ∀ t i, role t = .kernelTable i → ∀ j f, target (k.mem t j) = some f →
    KernelPage (pageAddr i j) ∧ (pageAddr i j ∉ k.held → role f = .kernelPage (pageAddr i j))
  pins : ∀ p ∈ pins, p.1 ∈ k.held ∧ KernelPage p.1 ∧ translate k.mem k.cr3 p.1 = some p.2
  maps : ∀ x ∈ k.transientMaps, x.address ∈ k.held ∧ role x.frame = .kernelPage x.address ∧
    x.frame < wordMod ∧ x.flags.toNat < 2 ^ 12
  nodup : (k.transientMaps.map TransientMap.address).Nodup

/-- `f` is the frame of a page of the kernel: it is mapped, unless a transient map is in its
place. -/
structure Backs (k : Kernel) (f va : ℕ) : Prop where
  page : KernelPage va
  maps : ∀ x ∈ k.transientMaps, x.address = va → x.frame = f
  mapped : (∀ x ∈ k.transientMaps, x.address ≠ va) → translate k.mem k.cr3 va = some f

structure Inv (role : ℕ → Role) (live : ℕ → Fin 1024 → Prop) (dirs : List ℕ)
    (pins : List (ℕ × ℕ)) (k : Kernel) : Prop where
  paging : k.pagingEnabled = true
  frames : Frames role k.regions
  refs : Refs role live dirs pins k
  /-- The page tables of the kernel are those of the current directory. -/
  kernel : ∀ t i, role t = .kernelTable i → KernelIndex i ∧ target (k.mem k.cr3 i) = some t
  backs : ∀ f va, role f = .kernelPage va → Backs k f va

variable {role role' : ℕ → Role} {live live' : ℕ → Fin 1024 → Prop} {dirs : List ℕ}
  {pins : List (ℕ × ℕ)} {k : Kernel} {m : Machine} {f g t va : ℕ} {i j : Fin 1024}
  {w flags : BitVec 32}

/-! ## Indices -/

theorem index_cases (i : Fin 1024) : i < 768 ∨ KernelIndex i ∨ i = 1023 := by
  simp only [KernelIndex, Fin.lt_def, Fin.le_def]
  omega

theorem KernelIndex.not_lt (h : KernelIndex i) : ¬ i < 768 := Fin.not_lt.mpr h.1

theorem KernelIndex.ne (h : KernelIndex i) : i ≠ 1023 := by
  rintro rfl
  exact absurd h.2 (by decide)

theorem KernelPage.index (h : KernelPage va) : KernelIndex (dirIndex va) := by
  obtain ⟨hle, hlt, -⟩ := h
  simp only [KernelIndex, Fin.le_def, dirIndex, Fin.val_ofNat]
  unfold kernelImage at hle
  omega

theorem dirIndex_lt (h : va < kernelStart) : dirIndex va < 768 := by
  simp only [Fin.lt_def, dirIndex, Fin.val_ofNat]
  unfold kernelStart at h
  omega

theorem pageAddr_eq (ha : va % pageSize = 0) (hlt : va < wordMod) :
    pageAddr (dirIndex va) (tableIndex va) = va := by
  simp only [pageAddr, dirIndex, tableIndex, Fin.val_ofNat]
  unfold pageSize at ha
  unfold wordMod at hlt
  omega

theorem KernelPage.lt (h : KernelPage va) : va < wordMod := h.2.1.trans (by decide)

theorem KernelPage.pageAddr_eq (h : KernelPage va) :
    pageAddr (dirIndex va) (tableIndex va) = va :=
  Vmm.pageAddr_eq h.2.2 h.lt

theorem dirIndex_pageAddr (i j : Fin 1024) : dirIndex (pageAddr i j) = i := by
  apply Fin.ext
  simp only [pageAddr, dirIndex, Fin.val_ofNat]
  omega

theorem tableIndex_pageAddr (i j : Fin 1024) : tableIndex (pageAddr i j) = j := by
  apply Fin.ext
  simp only [pageAddr, tableIndex, Fin.val_ofNat]
  omega

/-! ## Changes of roles -/

/-- No entry leads to the frame. -/
structure Unref (role : ℕ → Role) (live : ℕ → Fin 1024 → Prop) (dirs : List ℕ) (k : Kernel)
    (f : ℕ) : Prop where
  live : ∀ d i, live d i → d ≠ f ∧ target (k.mem d i) ≠ some f
  dirs : ∀ d ∈ dirs, d ≠ f ∧ ∀ i, KernelIndex i → target (k.mem d i) ≠ some f
  page : ∀ t d i, role t = .table d i → ∀ j, target (k.mem t j) ≠ some f
  kernelPage : ∀ t i, role t = .kernelTable i → ∀ j, target (k.mem t j) = some f →
    pageAddr i j ∈ k.held
  maps : ∀ x ∈ k.transientMaps, x.frame ≠ f

variable {r : Role} {d : ℕ} {c : Fin 1024 → BitVec 32}

namespace Refs

variable (h : Refs role live dirs pins k)

include h

theorem cr3_dir : role k.cr3 = .directory := (h.dirs k.cr3 h.cr3_mem).1

theorem kernelTable (hi : KernelIndex i) (ht : target (k.mem k.cr3 i) = some t) :
    role t = .kernelTable i :=
  (h.dirs k.cr3 h.cr3_mem).2 i hi t ht

theorem congr {k' : Kernel} (hmem : k'.mem = k.mem) (hcr3 : k'.cr3 = k.cr3)
    (hheld : k'.held = k.held) (hmaps : k'.transientMaps = k.transientMaps) :
    Refs role live dirs pins k' := by
  refine ⟨?_, ?_, ?_, ?_, ?_, ?_, ?_, ?_, ?_⟩
  · rw [hmem, hcr3]
    exact h.self
  · rw [hcr3]
    exact h.cr3_mem
  · rw [hmem]
    exact h.live
  · rw [hmem]
    exact h.dirs
  · rw [hmem]
    exact h.page
  · rw [hmem, hheld]
    exact h.kernelPage
  · rw [hmem, hcr3, hheld]
    exact h.pins
  · rw [hmaps, hheld]
    exact h.maps
  · rw [hmaps]
    exact h.nodup

/-- A frame without references gets another role. New page tables are empty. -/
theorem relabel (hf : Unref role live dirs k f)
    (hnew : (∃ d i, r = .table d i) ∨ (∃ i, r = .kernelTable i) → ∀ j, target (k.mem f j) = none) :
    Refs (update role f r) live dirs pins k := by
  have hne : ∀ {g}, g ≠ f → update role f r g = role g :=
    fun hg => update_of_ne hg _ _
  refine ⟨h.self, h.cr3_mem, ?_, ?_, ?_, ?_, h.pins, ?_, h.nodup⟩
  · intro d i hl
    obtain ⟨hi, hd, ht⟩ := h.live d i hl
    obtain ⟨hdf, htf⟩ := hf.live d i hl
    refine ⟨hi, (hne hdf).trans hd, fun t htarget => ?_⟩
    rw [hne fun heq => htf (heq ▸ htarget)]
    exact ht t htarget
  · intro d hd
    obtain ⟨hrole, ht⟩ := h.dirs d hd
    obtain ⟨hdf, htf⟩ := hf.dirs d hd
    refine ⟨(hne hdf).trans hrole, fun i hi t htarget => ?_⟩
    rw [hne fun heq => htf i hi (heq ▸ htarget)]
    exact ht i hi t htarget
  · intro t d i ht j g hg
    by_cases heq : t = f
    · subst heq
      rw [update_self] at ht
      rw [hnew (.inl ⟨d, i, ht⟩) j] at hg
      exact nomatch hg
    · rw [hne heq] at ht
      rw [hne fun heq => hf.page t d i ht j (heq ▸ hg)]
      exact h.page t d i ht j g hg
  · intro t i ht j g hg
    by_cases heq : t = f
    · subst heq
      rw [update_self] at ht
      rw [hnew (.inr ⟨i, ht⟩) j] at hg
      exact nomatch hg
    · rw [hne heq] at ht
      obtain ⟨hpage, hrole⟩ := h.kernelPage t i ht j g hg
      refine ⟨hpage, fun hheld => ?_⟩
      rw [hne fun heq => hheld (hf.kernelPage t i ht j (heq ▸ hg))]
      exact hrole hheld
  · intro x hx
    rw [hne (hf.maps x hx)]
    exact h.maps x hx

/-- References lead to frames with a role of their own. -/
theorem unref_of
    (hdir : role f = .directory → (∀ d i, live d i → d ≠ f) ∧ ∀ d ∈ dirs, d ≠ f)
    (htable : ∀ d i, role f = .table d i → live d i → target (k.mem d i) ≠ some f)
    (hpage : ∀ t j, role f = .page t j → ∀ d i, role t ≠ .table d i)
    (hktable : ∀ i, role f ≠ .kernelTable i)
    (hkpage : ∀ va, role f = .kernelPage va →
      va ∈ k.held ∧ ∀ x ∈ k.transientMaps, x.address ≠ va) :
    Unref role live dirs k f where
  live := by
    intro d i hl
    obtain ⟨-, hd, ht⟩ := h.live d i hl
    exact ⟨fun heq => (hdir (heq ▸ hd)).1 d i hl heq, fun hc => htable d i (ht f hc) hl hc⟩
  dirs := by
    intro d hd
    obtain ⟨hrole, ht⟩ := h.dirs d hd
    exact ⟨fun heq => (hdir (heq ▸ hrole)).2 d hd heq, fun i hi hc => hktable i (ht i hi f hc)⟩
  page := fun t d i ht j hc => hpage t j (h.page t d i ht j f hc) d i ht
  kernelPage := by
    intro t i ht j hc
    by_contra hheld
    exact hheld (hkpage _ ((h.kernelPage t i ht j f hc).2 hheld)).1
  maps := fun x hx heq => (hkpage _ (heq ▸ (h.maps x hx).2.1)).2 x hx rfl

theorem unref_of_free (hf : role f = .free ∨ role f = .loose) : Unref role live dirs k f := by
  rcases hf with hf | hf <;> refine h.unref_of ?_ ?_ ?_ ?_ ?_ <;> simp [hf]

theorem unref_page (hf : role f = .page t j) (ht : ∀ d i, role t ≠ .table d i) :
    Unref role live dirs k f := by
  refine h.unref_of ?_ ?_ ?_ ?_ ?_ <;> simp [hf]
  exact ht

theorem unref_table (hf : role f = .table d i)
    (hd : live d i → target (k.mem d i) ≠ some f) : Unref role live dirs k f := by
  refine h.unref_of ?_ ?_ ?_ ?_ ?_ <;> simp [hf]
  exact hd

theorem unref_directory (hf : role f = .directory) (hlive : ∀ d i, live d i → d ≠ f)
    (hdirs : ∀ d ∈ dirs, d ≠ f) : Unref role live dirs k f := by
  refine h.unref_of ?_ ?_ ?_ ?_ ?_ <;> simp [hf]
  exact ⟨hlive, hdirs⟩

theorem unref_kernelPage (hf : role f = .kernelPage va) (hheld : va ∈ k.held)
    (hmaps : ∀ x ∈ k.transientMaps, x.address ≠ va) : Unref role live dirs k f := by
  refine h.unref_of ?_ ?_ ?_ ?_ ?_ <;> simp [hf]
  exact ⟨hheld, hmaps⟩

/-! ## Changes of memory -/

/-- A change of a frame that is no directory, and of no entry of the page, does not change the
translation of a page of the kernel. -/
theorem translate_update (hva : KernelPage va) (hdir : role g ≠ .directory)
    (hsame : role g = .kernelTable (dirIndex va) →
      target (c (tableIndex va)) = target (k.mem g (tableIndex va))) :
    translate (update k.mem g c) k.cr3 va = translate k.mem k.cr3 va := by
  have hcr3 : update k.mem g c k.cr3 = k.mem k.cr3 :=
    update_of_ne (fun heq : k.cr3 = g => hdir (heq ▸ h.cr3_dir)) _ _
  refine translate_congr (by rw [hcr3]) fun t ht => ?_
  by_cases heq : t = g
  · subst heq
    rw [update_self]
    exact hsame (h.kernelTable hva.index ht)
  · rw [update_of_ne heq]

/-- Nor does another entry in a directory that leads to the same frame. -/
theorem translate_write_dir (hva : KernelPage va) (hd : role d = .directory)
    (hsame : d = k.cr3 → dirIndex va = i → target w = target (k.mem d i)) :
    translate (k.mem.write d i w) k.cr3 va = translate k.mem k.cr3 va := by
  have htarget : target (k.mem.write d i w k.cr3 (dirIndex va)) =
      target (k.mem k.cr3 (dirIndex va)) := by
    refine Memory.write_rec (P := fun w => target w = _) ?_ rfl
    rintro rfl rfl
    exact hsame rfl rfl
  refine translate_congr htarget fun t ht => ?_
  have hrole := h.kernelTable hva.index ht
  have hne : t ≠ d := fun heq => nomatch (heq ▸ hd).symm.trans hrole
  rw [Memory.write_of_ne hne]

/-- Another content of a frame that is no directory. -/
theorem update_mem (hdir : role g ≠ .directory)
    (htable : ∀ d i, role g = .table d i → ∀ j f, target (c j) = some f → role f = .page g j)
    (hkernel : ∀ i, role g = .kernelTable i → ∀ j f, target (c j) = some f →
      KernelPage (pageAddr i j) ∧ (pageAddr i j ∉ k.held → role f = .kernelPage (pageAddr i j)))
    (hpins : ∀ p ∈ pins, role g = .kernelTable (dirIndex p.1) →
      target (c (tableIndex p.1)) = target (k.mem g (tableIndex p.1))) :
    Refs role live dirs pins (k.set { k.toMachine with mem := update k.mem g c }) := by
  have hmem : ∀ {d}, role d = .directory → update k.mem g c d = k.mem d := by
    intro d hd
    exact update_of_ne (fun heq : d = g => hdir (heq ▸ hd)) _ _
  have hcr3 := hmem h.cr3_dir
  refine ⟨?_, h.cr3_mem, ?_, ?_, ?_, ?_, ?_, h.maps, h.nodup⟩
  · show target (update k.mem g c k.cr3 1023) = _
    rw [hcr3]
    exact h.self
  · intro d i hl
    obtain ⟨hi, hd, ht⟩ := h.live d i hl
    refine ⟨hi, hd, fun t htarget => ht t ?_⟩
    rwa [← hmem hd]
  · intro d hd
    obtain ⟨hrole, ht⟩ := h.dirs d hd
    refine ⟨hrole, fun i hi t htarget => ht i hi t ?_⟩
    rwa [← hmem hrole]
  · intro t d i ht j f hf
    by_cases heq : t = g
    · subst heq
      exact htable d i ht j f (by simpa [Kernel.set] using hf)
    · exact h.page t d i ht j f (by simpa [Kernel.set, heq] using hf)
  · intro t i ht j f hf
    by_cases heq : t = g
    · subst heq
      exact hkernel i ht j f (by simpa [Kernel.set] using hf)
    · exact h.kernelPage t i ht j f (by simpa [Kernel.set, heq] using hf)
  · intro p hp
    obtain ⟨hheld, hpage, htr⟩ := h.pins p hp
    exact ⟨hheld, hpage, (h.translate_update hpage hdir (hpins p hp)).trans htr⟩

/-- Another entry in a directory. -/
theorem write_dir (hd : role d = .directory) (hself : d = k.cr3 → i = 1023 → target w = some d)
    (hlive : live d i → ∀ t, target w = some t → role t = .table d i)
    (hkernel : KernelIndex i → ∀ t, target w = some t → role t = .kernelTable i)
    (hpins : d = k.cr3 → ∀ p ∈ pins, dirIndex p.1 = i → target w = target (k.mem d i)) :
    Refs role live dirs pins (k.set { k.toMachine with mem := k.mem.write d i w }) := by
  have hframe : ∀ {t}, role t ≠ .directory → k.mem.write d i w t = k.mem t := by
    intro t ht
    exact Memory.write_of_ne fun heq => ht (heq ▸ hd)
  refine ⟨?_, h.cr3_mem, ?_, ?_, ?_, ?_, ?_, h.maps, h.nodup⟩
  · refine Memory.write_rec (P := fun w => target w = some k.cr3) (fun heq hi => ?_) h.self
    exact heq ▸ hself heq.symm hi.symm
  · intro e i' hl
    obtain ⟨hi', he, ht⟩ := h.live e i' hl
    refine ⟨hi', he,
      Memory.write_rec (P := fun w => ∀ t, target w = some t → role t = .table e i') ?_ ht⟩
    rintro rfl rfl
    exact hlive hl
  · intro e he
    obtain ⟨hrole, ht⟩ := h.dirs e he
    refine ⟨hrole, fun i' hi' => Memory.write_rec
      (P := fun w => ∀ t, target w = some t → role t = .kernelTable i') ?_ (ht i' hi')⟩
    rintro rfl rfl
    exact hkernel hi'
  · intro t e i' ht j f hf
    refine h.page t e i' ht j f ?_
    rwa [← hframe (by rw [ht]; nofun)]
  · intro t i' ht j f hf
    refine h.kernelPage t i' ht j f ?_
    rwa [← hframe (by rw [ht]; nofun)]
  · intro p hp
    obtain ⟨hheld, hpage, htr⟩ := h.pins p hp
    exact ⟨hheld, hpage, (h.translate_write_dir hpage hd fun heq => hpins heq p hp).trans htr⟩

/-- Another entry in a page table of the kernel's half, for a page that is not pinned. -/
theorem write_kernel_pte (ht : role t = .kernelTable i)
    (hw : ∀ f, target w = some f →
      KernelPage (pageAddr i j) ∧ (pageAddr i j ∉ k.held → role f = .kernelPage (pageAddr i j)))
    (hpins : ∀ p ∈ pins, p.1 ≠ pageAddr i j) :
    Refs role live dirs pins (k.set { k.toMachine with mem := k.mem.write t j w }) := by
  refine h.update_mem (by rw [ht]; nofun)
    (fun d i' ht' => by rw [ht] at ht'; exact nomatch ht') (fun i' ht' j' f hf => ?_)
    (fun p hp ht' => ?_)
  · obtain rfl : i = i' := by
      rw [ht] at ht'
      exact Role.kernelTable.inj ht'
    by_cases heq : j' = j
    · subst heq
      rw [update_self] at hf
      exact hw f hf
    · rw [update_of_ne heq] at hf
      exact h.kernelPage t i ht j' f hf
  · obtain rfl : i = dirIndex p.1 := by
      rw [ht] at ht'
      exact Role.kernelTable.inj ht'
    rw [update_of_ne]
    rintro rfl
    exact hpins p hp (h.pins p hp).2.1.pageAddr_eq.symm

/-- Frames that the entries of page directories and page tables do not depend on. -/
theorem update_data (hdir : role g ≠ .directory)
    (htable : ∀ d i, role g ≠ .table d i) (hkernel : ∀ i, role g ≠ .kernelTable i) :
    Refs role live dirs pins (k.set { k.toMachine with mem := update k.mem g c }) :=
  h.update_mem hdir (fun d i hg => absurd hg (htable d i)) (fun i hg => absurd hg (hkernel i))
    fun _ _ hg => absurd hg (hkernel _)

end Refs

/-! ## Frames and the memory manager -/

namespace Frames

variable {regions regions' : List Pmm.Region} (h : Frames role regions)

include h

theorem assign (hl : Pmm.Layout regions') (hpage : ∀ q, Pmm.Page regions' q → Pmm.Page regions q)
    (hne : ∀ q, q ≠ f → (Pmm.Taken regions' q ↔ Pmm.Taken regions q))
    (hfree : Pmm.Page regions' f → ¬ Pmm.Taken regions' f → r = .free)
    (htaken : r.Owned → Pmm.Taken regions' f) (hused : Pmm.Taken regions' f → r ≠ .free) :
    Frames (update role f r) regions' := by
  refine ⟨hl, fun q hq hfree' => ?_, fun q => ?_, fun q hq => ?_⟩
  · refine update_rec (P := fun r : Role => r = .free) ?_ fun hqf => ?_
    · rintro rfl
      exact hfree hq hfree'
    · exact h.free q (hpage q hq) fun hc => hfree' ((hne q hqf).mpr hc)
  · refine update_rec (P := fun r : Role => r.Owned → _) ?_ fun hqf hq => (hne q hqf).mpr (h.taken q hq)
    rintro rfl
    exact htaken
  · refine update_rec (P := fun r : Role => r ≠ .free) ?_ fun hqf => h.used q ((hne q hqf).mp hq)
    rintro rfl
    exact hused hq

theorem takes (ht : Pmm.Takes regions f regions') (hr : r ≠ .free) :
    Frames (update role f r) regions' := by
  have htaken := (ht.taken_iff f).mpr (.inl rfl)
  refine h.assign ht.layout (fun q => (ht.page_iff q).mp) (fun q hq => ?_)
    (fun _ hc => absurd htaken hc) (fun _ => htaken) fun _ => hr
  rw [ht.taken_iff, or_iff_right hq]

theorem frees (hf : Pmm.Frees regions f regions') :
    Frames (update role f .free) regions' := by
  refine h.assign hf.layout (fun q => (hf.page_iff q).mp) (fun q hq => ?_) (fun _ _ => rfl)
    False.elim fun hc => absurd rfl ((hf.taken_iff f).mp hc).1
  rw [hf.taken_iff, and_iff_right hq]

theorem relabel (hf : role f ≠ .free) (hr : r.Owned → (role f).Owned) (hr' : r ≠ .free) :
    Frames (update role f r) regions :=
  h.assign h.layout (fun _ => id) (fun _ _ => Iff.rfl) (fun hp hc => absurd (h.free f hp hc) hf)
    (fun ho => h.taken f (hr ho)) fun _ => hr'

/-- Pages that can be allocated have no role. -/
theorem free_of_clear (hf : Clear regions f) : role f = .free := by
  obtain ⟨hpage, hfree⟩ := hf.free h.layout
  exact h.free f hpage hfree

end Frames

/-! ## The invariant -/

/-- Roles are kept, except for those of free frames. -/
def Extends (role role' : ℕ → Role) : Prop := ∀ g, role g ≠ .free → role' g = role g

theorem Extends.refl (role : ℕ → Role) : Extends role role := fun _ _ => rfl

/-- All entries of the user's half of the current directory count. -/
def Current (live : ℕ → Fin 1024 → Prop) (m : Machine) : Prop := ∀ i, i < 768 → live m.cr3 i

/-- What an allocation does. -/
structure Allocates (role : ℕ → Role) (k : Kernel) (m : Machine) (f : ℕ) : Prop where
  free : role f = .free
  aligned : f % pageSize = 0
  lt : f < wordMod
  takes : Pmm.Takes k.regions f m.regions
  alloc : Pmm.pmmAlloc k.regions = .ok (m.regions, some f)
  machine : m = { k.toMachine with regions := m.regions }

theorem Allocates.cr3 (h : Allocates role k m f) : m.cr3 = k.cr3 := by
  rw [h.machine]

theorem Backs.congr {k' : Kernel} (h : Backs k f va) (hmaps : k'.transientMaps = k.transientMaps)
    (htr : translate k'.mem k'.cr3 va = translate k.mem k.cr3 va) : Backs k' f va := by
  refine ⟨h.page, ?_, ?_⟩
  · rw [hmaps]
    exact h.maps
  · rw [hmaps, htr]
    exact h.mapped

/-- The role of the page table of an entry. -/
def pdeRole (d : ℕ) (i : Fin 1024) : Role := if i < 768 then .table d i else .kernelTable i

namespace Inv

variable (h : Inv role live dirs pins k)

include h

theorem kernel_update (hr : ∀ i, r ≠ .kernelTable i) (t : ℕ) (i : Fin 1024)
    (ht : update role f r t = .kernelTable i) :
    KernelIndex i ∧ target (k.mem k.cr3 i) = some t :=
  update_rec (P := fun r : Role => r = .kernelTable i → _) (fun _ ht => absurd ht (hr i))
    (fun _ => h.kernel t i) ht

theorem backs_update (hr : ∀ va, r = .kernelPage va → Backs k f va) (g va : ℕ)
    (hg : update role f r g = .kernelPage va) : Backs k g va := by
  refine update_rec (P := fun r : Role => r = .kernelPage va → _) ?_ (fun _ => h.backs g va) hg
  rintro rfl
  exact hr va

/-- **A frame is allocated.** -/
theorem alloc : Ends (allocFrame k.toMachine) (Lacks 1 [] k.toMachine) fun r =>
    Allocates role k r.1 r.2 ∧
      Inv (update role r.2 .loose) live dirs pins (k.set r.1) := by
  refine (allocFrame_ends h.frames.layout.sound).mono (fun _ => id) ?_
  rintro ⟨m, f⟩ ⟨regions, halloc, rfl⟩
  have htakes := Pmm.pmmAlloc_some h.frames.layout halloc
  obtain ⟨region, hr, hpage⟩ := htakes.page
  have hfree := h.frames.free f htakes.page htakes.free
  refine ⟨⟨hfree, hpage.1, hpage.2.2.trans (h.frames.layout.below region hr), htakes, halloc, rfl⟩,
    h.paging, h.frames.takes htakes (by nofun), ?_, h.kernel_update (by nofun),
    fun g va hg => (h.backs_update (r := .loose) nofun g va hg).congr rfl rfl⟩
  have hrefs := h.refs.relabel (h.refs.unref_of_free (.inl hfree)) (r := .loose) (by simp)
  exact hrefs.congr rfl rfl rfl rfl

/-- A frame that no entry leads to gets another role. New page tables are empty. -/
theorem relabel_of (hf : Unref role live dirs k f) (hfree : role f ≠ .free)
    (hr : r ≠ .free) (hkernel : ∀ i, r ≠ .kernelTable i) (howned : r.Owned → (role f).Owned)
    (hbacks : ∀ va, r = .kernelPage va → Backs k f va)
    (hnew : (∃ d i, r = .table d i) → ∀ j, target (k.mem f j) = none) :
    Inv (update role f r) live dirs pins k := by
  refine ⟨h.paging, h.frames.relabel hfree howned hr, h.refs.relabel hf ?_,
    h.kernel_update hkernel, h.backs_update hbacks⟩
  rintro (hr | ⟨i, hr⟩)
  · exact hnew hr
  · exact absurd hr (hkernel i)

/-- A frame in hand gets a role. -/
theorem relabel (hf : role f = .loose) (hr : r.Owned)
    (hnew : (∃ d i, r = .table d i) → ∀ j, target (k.mem f j) = none) :
    Inv (update role f r) live dirs pins k := by
  refine h.relabel_of (h.refs.unref_of_free (.inr hf)) (by rw [hf]; nofun) ?_ ?_
    (fun _ => by rw [hf]; trivial) ?_ hnew
  · rintro rfl
    exact hr
  · rintro i rfl
    exact hr
  · rintro va rfl
    exact hr.elim

/-- A change of a frame that is no directory does not concern the kernel's page tables. -/
theorem kernel_write (hdir : role g ≠ .directory) (t : ℕ)
    (i : Fin 1024) (ht : role t = .kernelTable i) :
    KernelIndex i ∧ target (update k.mem g c k.cr3 i) = some t := by
  have hne : k.cr3 ≠ g := fun heq => hdir (heq ▸ h.refs.cr3_dir)
  rw [update_of_ne hne]
  exact h.kernel t i ht

/-- Another content of a frame that is neither a directory nor a page table of the kernel. -/
theorem update_mem (hdir : role g ≠ .directory) (hkernel : ∀ i, role g ≠ .kernelTable i)
    (htable : ∀ d i, role g = .table d i → ∀ j f, target (c j) = some f → role f = .page g j) :
    Inv role live dirs pins (k.set { k.toMachine with mem := update k.mem g c }) where
  paging := h.paging
  frames := h.frames
  refs := h.refs.update_mem hdir htable (fun i hg => absurd hg (hkernel i))
    fun _ _ hg => absurd hg (hkernel _)
  kernel := h.kernel_write hdir
  backs f va hf := by
    have hbacks := h.backs f va hf
    exact hbacks.congr rfl
      (h.refs.translate_update hbacks.page hdir fun hg => absurd hg (hkernel _))

theorem update_data (hdir : role g ≠ .directory)
    (htable : ∀ d i, role g ≠ .table d i) (hkernel : ∀ i, role g ≠ .kernelTable i) :
    Inv role live dirs pins (k.set { k.toMachine with mem := update k.mem g c }) :=
  h.update_mem hdir hkernel fun d i hg => absurd hg (htable d i)

theorem write_pte (ht : role t = .table d i) (hw : ∀ f, target w = some f → role f = .page t j) :
    Inv role live dirs pins (k.set { k.toMachine with mem := k.mem.write t j w }) := by
  refine h.update_mem (by rw [ht]; nofun) (by rw [ht]; nofun) fun _ _ _ j' f hf => ?_
  by_cases heq : j' = j
  · subst heq
    rw [update_self] at hf
    exact hw f hf
  · rw [update_of_ne heq] at hf
    exact h.refs.page t d i ht j' f hf

theorem write_dir (hd : role d = .directory) (hself : d = k.cr3 → i = 1023 → target w = some d)
    (hlive : live d i → ∀ t, target w = some t → role t = .table d i)
    (hkernel : KernelIndex i → ∀ t, target w = some t → role t = .kernelTable i)
    (hkeep : d = k.cr3 → KernelIndex i → target w = target (k.mem d i)) :
    Inv role live dirs pins (k.set { k.toMachine with mem := k.mem.write d i w }) := by
  refine ⟨h.paging, h.frames, h.refs.write_dir hd hself hlive hkernel fun heq p hp hi =>
    hkeep heq (hi ▸ (h.refs.pins p hp).2.1.index), fun t i' ht => ?_, fun f va hf => ?_⟩
  · obtain ⟨hi', hti⟩ := h.kernel t i' ht
    refine ⟨hi', Memory.write_rec (P := fun w => target w = some t) (fun heq hii => ?_) hti⟩
    rw [hkeep heq.symm (hii ▸ hi'), ← hti, hii, ← heq]
    rfl
  · have hbacks := h.backs f va hf
    exact hbacks.congr rfl (h.refs.translate_write_dir hbacks.page hd fun heq hi =>
      hkeep heq (hi ▸ hbacks.page.index))

/-- Another entry in the user's half of a directory. -/
theorem write_pde (hd : role d = .directory) (hi : i < 768)
    (hw : live d i → ∀ t, target w = some t → role t = .table d i) :
    Inv role live dirs pins (k.set { k.toMachine with mem := k.mem.write d i w }) :=
  h.write_dir hd (fun _ heq => absurd (heq ▸ hi) (by decide)) hw
    (fun hk => absurd hi hk.not_lt) fun _ hk => absurd hi hk.not_lt

/-- Another entry in the kernel's half of a directory: that of the current directory. -/
theorem write_kernel_pde (hd : role d = .directory) (hi : KernelIndex i) :
    Inv role live dirs pins
      (k.set { k.toMachine with mem := k.mem.write d i (k.mem k.cr3 i) }) :=
  h.write_dir hd (fun _ heq => absurd heq hi.ne)
    (fun hl => absurd (h.refs.live d i hl).1 hi.not_lt)
    (fun hi t ht => h.refs.kernelTable hi ht) fun heq _ => by rw [heq]

/-- The entry of a directory that leads to the directory itself. -/
theorem write_last (hd : role d = .directory) (hw : target w = some d) :
    Inv role live dirs pins (k.set { k.toMachine with mem := k.mem.write d 1023 w }) :=
  h.write_dir hd (fun _ _ => hw) (fun hl => absurd (h.refs.live d _ hl).1 (by decide))
    (fun hi => absurd rfl hi.ne) fun _ hi => absurd rfl hi.ne

/-- Another entry for a page of the kernel that a transient map is in place of. -/
theorem write_held {a : ℕ} {x : TransientMap} (hx : x ∈ k.transientMaps) (hxa : x.address = a)
    (hpage : KernelPage a) (hpins : ∀ p ∈ pins, p.1 ≠ a)
    (ht : target (k.mem k.cr3 (dirIndex a)) = some t) :
    Inv role live dirs pins (k.set { k.toMachine with mem := k.mem.write t (tableIndex a) w }) := by
  have hrole := h.refs.kernelTable hpage.index ht
  have hheld : a ∈ k.held := hxa ▸ (h.refs.maps x hx).1
  have hdir : role t ≠ .directory := by
    rw [hrole]
    nofun
  refine ⟨h.paging, h.frames, h.refs.write_kernel_pte hrole (fun f _ => ?_) fun p hp => ?_,
    h.kernel_write hdir, fun f va hf => ?_⟩
  · rw [hpage.pageAddr_eq]
    exact ⟨hpage, fun hc => absurd hheld hc⟩
  · rw [hpage.pageAddr_eq]
    exact hpins p hp
  · have hbacks := h.backs f va hf
    by_cases hva : va = a
    · refine ⟨hbacks.page, hbacks.maps, fun hnone => absurd (hxa.trans hva.symm) (hnone x hx)⟩
    · refine hbacks.congr rfl (h.refs.translate_update hbacks.page hdir fun htable => ?_)
      have hi := Role.kernelTable.inj (hrole.symm.trans htable)
      have hj : tableIndex va ≠ tableIndex a := fun hj =>
        hva (page_ext hbacks.page.2.2 hbacks.page.lt hpage.2.2 hpage.lt hi.symm hj)
      rw [update_of_ne hj]

theorem pde_role (hcur : Current live k.toMachine) (hi : i ≠ 1023)
    (ht : target (k.mem k.cr3 i) = some t) : role t = pdeRole k.cr3 i := by
  rcases index_cases i with hi' | hi' | hi'
  · rw [pdeRole, if_pos hi']
    exact (h.refs.live k.cr3 i (hcur i hi')).2.2 t ht
  · rw [pdeRole, if_neg hi'.not_lt]
    exact h.refs.kernelTable hi' ht
  · exact absurd hi' hi

theorem wellFormed (hcur : Current live k.toMachine) : WellFormed k.toMachine := by
  have hdir := h.refs.cr3_dir
  have hrole : ∀ i t, target (k.mem k.cr3 i) = some t →
      role t = if i = 1023 then .directory else pdeRole k.cr3 i := by
    intro i t ht
    by_cases hi : i = 1023
    · subst hi
      rw [h.refs.self] at ht
      rw [← Option.some.inj ht, hdir]
      rfl
    · rw [if_neg hi]
      exact h.pde_role hcur hi ht
  refine ⟨⟨h.paging, h.refs.self, fun d d' t hd hd' => ?_⟩, h.frames.layout.sound,
    fun f hf d hd => ?_⟩
  · have heq := (hrole d t hd).symm.trans (hrole d' t hd')
    unfold pdeRole at heq
    split at heq <;> split at heq <;> (try split at heq) <;> (try split at heq) <;> simp_all
  · have hfree := h.frames.free_of_clear hf
    rw [hrole d f hd] at hfree
    unfold pdeRole at hfree
    split at hfree
    · exact nomatch hfree
    · split at hfree
      · exact nomatch hfree
      · exact nomatch hfree

/-- The page table for a page, with a role for it if it is new. -/
theorem link (hcur : Current live k.toMachine) (hva : dirIndex va ≠ 1023)
    (hlink : Linked k.toMachine va m t) :
    ∃ role', Extends role role' ∧ (∀ g, role g = .free → g ≠ t → role' g = .free) ∧
      Inv role' live dirs pins (k.set m) ∧ role' t = pdeRole k.cr3 (dirIndex va) ∧
      m.cr3 = k.cr3 ∧ target (m.mem m.cr3 (dirIndex va)) = some t := by
  have hw := h.wellFormed hcur
  have htable := hlink.target_eq hw
  have hlinked := (hlink.distinct hw).2
  have hlookup : ∀ {va'}, KernelPage va' → translate m.mem m.cr3 va' = translate k.mem k.cr3 va' := by
    intro va' hpage
    rw [translate_eq_lookup, translate_eq_lookup, hlink.lookup_eq hw hpage.index.ne]
  cases hlink with
  | old ht =>
    exact ⟨role, .refl role, fun g hg _ => hg, h, h.pde_role hcur hva ht, rfl, ht⟩
  | @new t regions ht halloc =>
    have htakes := Pmm.pmmAlloc_some h.frames.layout halloc
    obtain ⟨-, htarget, hne⟩ := new_table hw halloc
    have hfree := h.frames.free t htakes.page htakes.free
    have hdir := h.refs.cr3_dir
    -- the frame is cleared, gets its role, and is linked
    have hclear : Refs role live dirs pins (k.set { k.toMachine with mem := k.mem.clear t }) :=
      h.refs.update_data (by simp [hfree]) (by simp [hfree]) (by simp [hfree])
    have hlabel := hclear.relabel (hclear.unref_of_free (.inl hfree))
      (r := pdeRole k.cr3 (dirIndex va)) fun _ j => by
        show target (k.mem.clear t t j) = none
        rw [Memory.clear_same]
        rfl
    have hdir' : update role t (pdeRole k.cr3 (dirIndex va)) k.cr3 = .directory := by
      rw [update_of_ne hne, hdir]
    have hrefs : Refs (update role t (pdeRole k.cr3 (dirIndex va))) live dirs pins (k.set
        { k.toMachine with mem := (k.mem.clear t).write k.cr3 (dirIndex va) (entry t pdeFlags) }) := by
      refine hlabel.write_dir hdir' (fun _ hi => absurd hi hva) (fun hl t' ht' => ?_)
        (fun hi t' ht' => ?_) fun _ p hp hpi => ?_
      · rw [htarget] at ht'
        rw [← Option.some.inj ht', update_self, pdeRole, if_pos (h.refs.live _ _ hl).1]
      · rw [htarget] at ht'
        rw [← Option.some.inj ht', update_self, pdeRole, if_neg hi.not_lt]
      · -- no page without a page table is pinned
        obtain ⟨-, -, htr⟩ := h.refs.pins p hp
        rw [Paging.translate, hpi, ht] at htr
        cases htr
    have hmem : (k.mem.write k.cr3 (dirIndex va) (entry t pdeFlags)).clear t =
        (k.mem.clear t).write k.cr3 (dirIndex va) (entry t pdeFlags) := by
      funext g
      by_cases hg : g = t
      · subst hg
        funext j
        rw [Memory.clear_same, Memory.write_of_ne hne.symm, Memory.clear_same]
      · rw [Memory.clear_of_ne hg]
        funext j
        rw [Memory.write_apply, Memory.write_apply, Memory.clear_of_ne hg]
    have hframes : Frames (update role t (pdeRole k.cr3 (dirIndex va))) regions :=
      h.frames.takes htakes (by unfold pdeRole; split <;> simp)
    refine ⟨_, fun g hg => update_of_ne (fun heq : g = t => hg (heq ▸ hfree)) _ _,
      fun g hg hgt => (update_of_ne hgt _ _).trans hg,
      ⟨h.paging, hframes, hrefs.congr hmem rfl rfl rfl, fun t' i ht' => ?_, fun f va' hf => ?_⟩,
      update_self .., rfl, hlinked⟩
    · by_cases heq : t' = t
      · subst heq
        rw [update_self, pdeRole] at ht'
        split at ht'
        · cases ht'
        · obtain rfl := Role.kernelTable.inj ht'
          refine ⟨?_, hlinked⟩
          rcases index_cases (dirIndex va) with hi | hi | hi
          · exact absurd hi ‹_›
          · exact hi
          · exact absurd hi hva
      · rw [update_of_ne heq] at ht'
        obtain ⟨hi, hti⟩ := h.kernel t' i ht'
        refine ⟨hi, (htable i).trans ((if_neg ?_).trans hti)⟩
        rintro rfl
        cases ht.symm.trans hti
    · have hbacks := h.backs_update (r := pdeRole k.cr3 (dirIndex va))
        (by unfold pdeRole; split <;> simp) f va' hf
      exact hbacks.congr rfl (hlookup hbacks.page)

section Mapping

variable {m₁ : Machine} (hcur : Current live k.toMachine) (hf : role f = .loose)
  (hlt : f < wordMod) (haligned : f % pageSize = 0) (hflags : flags.toNat < 2 ^ 12)
  (hpresent : flags &&& vmmPagePresent ≠ 0) (hlink : Linked k.toMachine va m₁ t)

include hcur hf hlt haligned hflags hpresent hlink

/-- **A page is mapped in the user's half**, to a frame in hand. -/
theorem map_user (hva : va < kernelStart) :
    ∃ role', (∀ g, g ≠ f → role g ≠ .free → role' g = role g) ∧
      (∀ g, role g = .free → g ≠ t → role' g = .free) ∧
      role' t = .table k.cr3 (dirIndex va) ∧ role' f = .page t (tableIndex va) ∧
      Inv role' live dirs pins (k.set
        { m₁ with mem := m₁.mem.write t (tableIndex va) (entry f flags) }) ∧ m₁.cr3 = k.cr3 := by
  have hi := dirIndex_lt hva
  have hva' : dirIndex va ≠ 1023 := fun heq => absurd (heq ▸ hi) (by decide)
  obtain ⟨role₁, hext, hnew, h₁, ht, hcr3, -⟩ := h.link hcur hva' hlink
  rw [pdeRole, if_pos hi] at ht
  have hf₁ : role₁ f = .loose := by rw [hext f (by rw [hf]; nofun), hf]
  have hne : t ≠ f := fun heq => by rw [heq, hf₁] at ht; exact nomatch ht
  have h₂ := h₁.relabel hf₁ (r := .page t (tableIndex va)) trivial (by simp)
  have ht₂ : update role₁ f (.page t (tableIndex va)) t = .table k.cr3 (dirIndex va) := by
    rw [update_of_ne hne, ht]
  refine ⟨_, fun g hg hg' => (update_of_ne hg _ _).trans (hext g hg'), fun g hg hgt => ?_,
    ht₂, update_self .., h₂.write_pte ht₂ fun f' hf' => ?_, hcr3⟩
  · rw [update_of_ne fun heq : g = f => by rw [heq, hf] at hg; exact nomatch hg]
    exact hnew g hg hgt
  · rw [target_entry haligned hlt hflags hpresent] at hf'
    rw [← Option.some.inj hf', update_self]

/-- **A page is mapped in the kernel's half**, to a frame in hand. -/
theorem map_kernel (hva : KernelPage va) (hheld : va ∉ k.held)
    (habsent : ¬ Present (m₁.mem t (tableIndex va))) :
    ∃ role', (∀ g, g ≠ f → role g ≠ .free → role' g = role g) ∧
      (∀ g, role g = .free → g ≠ t → role' g = .free) ∧
      role' t = .kernelTable (dirIndex va) ∧ role' f = .kernelPage va ∧
      Inv role' live dirs pins (k.set
        { m₁ with mem := m₁.mem.write t (tableIndex va) (entry f flags) }) ∧ m₁.cr3 = k.cr3 := by
  obtain ⟨role₁, hext, hnew, h₁, ht, hcr3, htarget⟩ := h.link hcur hva.index.ne hlink
  rw [pdeRole, if_neg hva.index.not_lt] at ht
  have hentry := target_entry haligned hlt hflags hpresent
  have hf₁ : role₁ f = .loose := by rw [hext f (by rw [hf]; nofun), hf]
  have hne : t ≠ f := fun heq => by rw [heq, hf₁] at ht; exact nomatch ht
  have hdir : role₁ t ≠ .directory := by
    rw [ht]
    nofun
  have hne' : m₁.cr3 ≠ t := fun heq => hdir (heq ▸ h₁.refs.cr3_dir)
  set role₂ := update role₁ f (.kernelPage va) with hrole₂
  have ht₂ : role₂ t = .kernelTable (dirIndex va) := (update_of_ne hne _ _).trans ht
  have hf₂ : role₂ f = .kernelPage va := update_self ..
  have hrefs : Refs role₂ live dirs pins (k.set m₁) :=
    h₁.refs.relabel (h₁.refs.unref_of_free (.inr hf₁)) (by simp)
  refine ⟨role₂, fun g hg hg' => (update_of_ne hg _ _).trans (hext g hg'),
    fun g hg hgt => ?_, ht₂, hf₂, ⟨h₁.paging, ?_, ?_, ?_, fun g va' hg => ?_⟩, hcr3⟩
  · rw [hrole₂, update_of_ne fun heq : g = f => by rw [heq, hf] at hg; exact nomatch hg]
    exact hnew g hg hgt
  · exact h₁.frames.relabel (by rw [hf₁]; nofun) nofun nofun
  · refine hrefs.write_kernel_pte ht₂ (fun f' hf' => ?_) fun p hp heq => ?_
    · rw [hentry] at hf'
      rw [hva.pageAddr_eq, ← Option.some.inj hf']
      exact ⟨hva, fun _ => hf₂⟩
    · rw [hva.pageAddr_eq] at heq
      obtain ⟨-, -, htr⟩ := h₁.refs.pins p hp
      replace htr : translate m₁.mem m₁.cr3 p.1 = some p.2 := htr
      rw [heq, translate_of_target htarget, target_eq_none.mpr habsent] at htr
      exact nomatch htr
  · intro t' i ht'
    obtain ⟨hi, hti⟩ := h₁.kernel_update (by nofun) t' i ht'
    refine ⟨hi, ?_⟩
    show target (m₁.mem.write t (tableIndex va) (entry f flags) m₁.cr3 i) = some t'
    rw [Memory.write_of_ne hne']
    exact hti
  · have hmaps : ∀ x ∈ k.transientMaps, x.address ≠ va :=
      fun x hx heq => hheld (heq ▸ (h.refs.maps x hx).1)
    by_cases hgf : g = f
    · subst hgf
      obtain rfl : va = va' := Role.kernelPage.inj (hf₂.symm.trans hg)
      refine ⟨hva, fun x hx heq => absurd heq (hmaps x hx), fun _ => ?_⟩
      show translate (m₁.mem.write t (tableIndex va) (entry g flags)) m₁.cr3 va = some g
      rw [translate_write htarget hne', hentry]
    · rw [hrole₂, update_of_ne hgf] at hg
      have hbacks := h₁.backs g va' hg
      -- no other frame belongs to the page
      have hva' : va' ≠ va := by
        rintro rfl
        have htr : translate m₁.mem m₁.cr3 va' = some g := hbacks.mapped hmaps
        rw [translate_of_target htarget, target_eq_none.mpr habsent] at htr
        exact nomatch htr
      refine hbacks.congr rfl (h₁.refs.translate_update hbacks.page hdir fun htable => ?_)
      have hi := Role.kernelTable.inj (ht.symm.trans htable)
      have hj : tableIndex va' ≠ tableIndex va := fun hj =>
        hva' (page_ext hbacks.page.2.2 hbacks.page.lt hva.2.2 hva.lt hi.symm hj)
      rw [update_of_ne hj]
      rfl

end Mapping

/-- A page of the user's half is unmapped. -/
theorem unmap (hcur : Current live k.toMachine) (hva : va < kernelStart)
    (hunmap : vmmUnmap k.toMachine va = .ok m) :
    Inv role live dirs pins (k.set m) ∧ m.cr3 = k.cr3 := by
  obtain ⟨-, t, ht, rfl⟩ := vmmUnmap_ok (h.wellFormed hcur) hunmap
  have hrole := (h.refs.live _ _ (hcur _ (dirIndex_lt hva))).2.2 t ht
  refine ⟨h.write_pte hrole fun f hf => ?_, rfl⟩
  rw [target_eq_none.mpr (not_present_and_not _)] at hf
  exact nomatch hf

/-- A page of the user's half gets other flags. -/
theorem remap (hcur : Current live k.toMachine) (hva : va < kernelStart)
    (hflags : flags.toNat < 2 ^ 12) (hremap : vmmRemap k.toMachine va flags = .ok m) :
    Inv role live dirs pins (k.set m) ∧ m.cr3 = k.cr3 := by
  obtain ⟨hpresent, t, ht, hp, rfl⟩ := vmmRemap_ok (h.wellFormed hcur) hremap
  have hrole := (h.refs.live _ _ (hcur _ (dirIndex_lt hva))).2.2 t ht
  refine ⟨h.write_pte hrole fun f hf => ?_, rfl⟩
  rw [and_mask_or, target_entry (frameOf_mod _) frameOf_lt hflags hpresent] at hf
  exact h.refs.page t _ _ hrole _ f (target_eq_some.mpr ⟨hp, Option.some.inj hf⟩)

/-- **A frame that no entry leads to is freed.** -/
theorem free (hf : Unref role live dirs k f) (howned : (role f).Owned) :
    ∃ regions, freeFrame k.toMachine f = .ok { k.toMachine with regions := regions } ∧
      Pmm.Frees k.regions f regions ∧ Inv (update role f .free) live dirs pins
        (k.set { k.toMachine with regions := regions }) := by
  obtain ⟨regions, hfree, hfrees⟩ := Pmm.pmmFree_of_taken h.frames.layout (h.frames.taken f howned)
  refine ⟨regions, ?_, hfrees, h.paging, h.frames.frees hfrees, ?_, h.kernel_update (by nofun),
    fun g va hg => (h.backs_update (r := .free) nofun g va hg).congr rfl rfl⟩
  · rw [freeFrame, hfree]
    rfl
  · have hrefs := h.refs.relabel hf (r := .free) (by simp)
    exact hrefs.congr rfl rfl rfl rfl

end Inv

end Rastapopoulos.Vmm
