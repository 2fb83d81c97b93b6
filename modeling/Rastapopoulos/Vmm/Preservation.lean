import Rastapopoulos.Vmm.Ownership

/-!
# What the kernel leaves as it is

While the heap grows and frames are mapped for a while, frames keep their roles and contents, and
entries of the kernel's half that are present stay as they are. `Preserves` says so, with two
exceptions: frames in hand, and pages that transient maps are in place of. Frames that were free get
roles of the kernel's half, apart from some that are listed.
-/

namespace Rastapopoulos.Vmm

open Paging Function
open KernelHeap (pageSize)

/-- The roles of frames that are neither directories nor page tables of the kernel. -/
def Role.Content : Role → Prop
  | .loose | .table _ _ | .page _ _ | .kernelPage _ => True
  | _ => False

/-- Roles, contents and entries are kept, except for the frames in `D` and for the entries of the
pages in `X`. Frames that were free are the kernel's if they are not in `S`. -/
structure Preserves (D X S : Set ℕ) (role : ℕ → Role) (m : Machine) (role' : ℕ → Role)
    (m' : Machine) : Prop where
  cr3 : m'.cr3 = m.cr3
  pages : ∀ g, Pmm.Page m'.regions g ↔ Pmm.Page m.regions g
  keep : ∀ g, g ∉ D → role g ≠ .free → role' g = role g
  fresh : ∀ g, g ∉ D → g ∉ S → role g = .free → role' g = .free ∨ (role' g).Kernel
  content : ∀ g, g ∉ D → (role g).Content → m'.mem g = m.mem g
  /-- Entries are added to the kernel's half of the current directory. -/
  pde : ∀ g, g ∉ D → role g = .directory → ∀ i, m'.mem g i = m.mem g i ∨
    g = m.cr3 ∧ KernelIndex i ∧ ¬ Present (m.mem g i)
  pte : ∀ t i, t ∉ D → role t = .kernelTable i → ∀ j, pageAddr i j ∉ X → Present (m.mem t j) →
    m'.mem t j = m.mem t j

variable {D D' X X' S S' : Set ℕ} {role role' role₁ : ℕ → Role}
  {live : ℕ → Fin 1024 → Prop} {dirs : List ℕ} {pins : List (ℕ × ℕ)} {k : Kernel}
  {m m' m₁ : Machine} {a f g t va : ℕ} {i j : Fin 1024} {w : BitVec 32}

namespace Preserves

theorem refl (role : ℕ → Role) (m : Machine) : Preserves D X S role m role m :=
  ⟨rfl, fun _ => Iff.rfl, fun _ _ _ => rfl, fun _ _ _ hg => .inl hg, fun _ _ _ => rfl,
    fun _ _ _ _ => .inl rfl, fun _ _ _ _ _ _ _ => rfl⟩

theorem mono (h : Preserves D X S role m role' m') (hD : D ⊆ D') (hX : X ⊆ X')
    (hS : S ⊆ S') : Preserves D' X' S' role m role' m' where
  cr3 := h.cr3
  pages := h.pages
  keep g hg := h.keep g fun hc => hg (hD hc)
  fresh g hg hgS := h.fresh g (fun hc => hg (hD hc)) fun hc => hgS (hS hc)
  content g hg := h.content g fun hc => hg (hD hc)
  pde g hg := h.pde g fun hc => hg (hD hc)
  pte t i ht hrole j hj := h.pte t i (fun hc => ht (hD hc)) hrole j fun hc => hj (hX hc)

theorem trans (h : Preserves D X S role m role₁ m₁) (h' : Preserves D X S role₁ m₁ role' m') :
    Preserves D X S role m role' m' where
  cr3 := h'.cr3.trans h.cr3
  pages g := (h'.pages g).trans (h.pages g)
  keep g hg hfree := by
    have hrole := h.keep g hg hfree
    exact (h'.keep g hg (hrole ▸ hfree)).trans hrole
  fresh g hg hgS hfree := by
    by_cases hfree₁ : role₁ g = .free
    · exact h'.fresh g hg hgS hfree₁
    · rw [h'.keep g hg hfree₁]
      exact h.fresh g hg hgS hfree
  content g hg hrole := by
    have hfree : role g ≠ .free := fun hc => by rw [hc] at hrole; exact hrole
    rw [h'.content g hg (by rwa [h.keep g hg hfree]), h.content g hg hrole]
  pde g hg hrole i := by
    have hrole₁ : role₁ g = .directory := by rw [h.keep g hg (by rw [hrole]; nofun), hrole]
    rcases h.pde g hg hrole i with hmem | hadded
    · rw [← hmem, ← h.cr3]
      exact h'.pde g hg hrole₁ i
    · exact .inr hadded
  pte t i ht hrole j hj hpresent := by
    have hrole₁ : role₁ t = .kernelTable i := by rw [h.keep t ht (by rw [hrole]; nofun), hrole]
    have hmem := h.pte t i ht hrole j hj hpresent
    rw [h'.pte t i ht hrole₁ j hj (hmem ▸ hpresent), hmem]

theorem free_of_ne (h : Preserves {f} X S role m role' m') (hf : role' f ≠ .free)
    (hfree : role' g = .free) : role g = .free := by
  by_contra hc
  have hg : g ∉ ({f} : Set ℕ) := fun hg => hf (Set.mem_singleton_iff.mp hg ▸ hfree)
  exact hc ((h.keep g hg hc).symm.trans hfree)

/-- A frame that was free is not in hand any more. -/
theorem shrink (h : Preserves D' X S role m role' m') (hD : ∀ g ∈ D', g = f ∨ g ∈ D)
    (hf : role f = .free) (hf' : f ∈ S ∨ (role' f).Kernel) : Preserves D X S role m role' m' := by
  have hne : ∀ {g}, role g ≠ .free → g ∉ D → g ∉ D' := by
    intro g hg hgD hc
    rcases hD g hc with rfl | hc
    · exact hg hf
    · exact hgD hc
  refine ⟨h.cr3, h.pages, fun g hg hfree => h.keep g (hne hfree hg) hfree,
    fun g hg hgS hfree => ?_, fun g hg hrole => h.content g (hne ?_ hg) hrole,
    fun g hg hrole => h.pde g (hne (by rw [hrole]; nofun) hg) hrole,
    fun t i ht hrole => h.pte t i (hne (by rw [hrole]; nofun) ht) hrole⟩
  · by_cases hgf : g = f
    · subst hgf
      exact .inr (hf'.resolve_left hgS)
    · exact h.fresh g (fun hc => (hD g hc).elim hgf hg) hgS hfree
  · rintro hc
    rw [hc] at hrole
    exact hrole

/-- The entry of a page has been restored. -/
theorem close (h : Preserves D {a} S role m role' m')
    (ha : ∀ t, t ∉ D → role t = .kernelTable (dirIndex a) → Present (m.mem t (tableIndex a)) →
      m'.mem t (tableIndex a) = m.mem t (tableIndex a)) :
    Preserves D ∅ S role m role' m' := by
  refine ⟨h.cr3, h.pages, h.keep, h.fresh, h.content, h.pde, fun t i ht hrole j _ hpresent => ?_⟩
  by_cases hj : pageAddr i j = a
  · have hi : dirIndex a = i := by rw [← hj, dirIndex_pageAddr]
    have hj' : tableIndex a = j := by rw [← hj, tableIndex_pageAddr]
    have ha := ha t ht
    rw [hi, hj'] at ha
    exact ha hrole hpresent
  · exact h.pte t i ht hrole j hj hpresent

/-! ## Operations -/

/-- A frame in hand is written to. -/
theorem write (hf : f ∈ D) (c : Fin 1024 → BitVec 32) :
    Preserves D X S role m role { m with mem := update m.mem f c } := by
  have hmem : ∀ {g}, g ∉ D → update m.mem f c g = m.mem g := by
    intro g hg
    exact update_of_ne (fun heq : g = f => hg (heq ▸ hf)) _ _
  refine ⟨rfl, fun _ => Iff.rfl, fun _ _ _ => rfl, fun _ _ _ hg => .inl hg, fun g hg _ => hmem hg,
    fun g hg _ i => .inl ?_, fun t i ht _ j _ _ => ?_⟩
  · exact congrFun (hmem hg) i
  · exact congrFun (hmem ht) j

/-- A frame in hand gets another role. -/
theorem relabel (hf : f ∈ D) (r : Role) :
    Preserves D X S role m (update role f r) m := by
  have hrole : ∀ {g}, g ∉ D → update role f r g = role g := by
    intro g hg
    exact update_of_ne (fun heq : g = f => hg (heq ▸ hf)) _ _
  exact ⟨rfl, fun _ => Iff.rfl, fun g hg _ => hrole hg,
    fun g hg _ hfree => .inl ((hrole hg).trans hfree), fun _ _ _ => rfl, fun _ _ _ _ => .inl rfl,
    fun _ _ _ _ _ _ _ => rfl⟩

/-- Frames in hand are allocated or freed. -/
theorem regions {regions : List Pmm.Region}
    (hpages : ∀ g, Pmm.Page regions g ↔ Pmm.Page m.regions g)
    (hrole : ∀ g, g ∉ D → role' g = role g) :
    Preserves D X S role m role' { m with regions := regions } :=
  ⟨rfl, hpages, fun g hg _ => hrole g hg, fun g hg _ hfree => .inl ((hrole g hg).trans hfree),
    fun _ _ _ => rfl, fun _ _ _ _ => .inl rfl, fun _ _ _ _ _ _ _ => rfl⟩

theorem alloc (h : Allocates role k m f) (hf : f ∈ D) :
    Preserves D X S role k.toMachine (update role f .loose) m := by
  rw [h.machine]
  exact .regions h.takes.page_iff fun g hg =>
    update_of_ne (fun heq : g = f => hg (heq ▸ hf)) _ _

/-- An entry of a page table of the kernel's half. -/
theorem write_kernel_pte (ht : role t = .kernelTable i)
    (hj : pageAddr i j ∈ X ∨ ¬ Present (m.mem t j)) :
    Preserves D X S role m role { m with mem := m.mem.write t j w } := by
  refine ⟨rfl, fun _ => Iff.rfl, fun _ _ _ => rfl, fun _ _ _ hg => .inl hg, fun g _ hg => ?_,
    fun g _ hg i' => .inl ?_, fun t' i' _ ht' j' hj' hpresent => ?_⟩
  · exact Memory.write_of_ne fun heq => by rw [heq, ht] at hg; exact hg
  · show m.mem.write t j w g i' = m.mem g i'
    rw [Memory.write_of_ne fun heq => by rw [heq, ht] at hg; exact nomatch hg]
  · show m.mem.write t j w t' j' = m.mem t' j'
    rw [Memory.write_apply, if_neg]
    rintro ⟨rfl, rfl⟩
    obtain rfl := Role.kernelTable.inj (ht.symm.trans ht')
    rcases hj with hj | hj
    · exact hj' hj
    · exact hj hpresent

end Preserves

/-! ## The kernel's half of directories -/

/-- Entries of the kernel's half stay when they are present in the current directory, and those of
other directories are not renewed, unless with the entries of the current one. -/
structure Shares (dirs : List ℕ) (m : Machine) (dirs' : List ℕ) (m' : Machine) : Prop where
  kept : ∀ i, KernelIndex i → Present (m.mem m.cr3 i) → m'.mem m'.cr3 i = m.mem m.cr3 i
  dirs : ∀ d ∈ dirs', ∀ i, KernelIndex i → Present (m'.mem d i) →
    m'.mem d i = m'.mem m'.cr3 i ∨ d ∈ dirs ∧ m'.mem d i = m.mem d i

namespace Shares

variable {dirs' dirs₁ : List ℕ}

theorem of_eq (hcr3 : m'.cr3 = m.cr3) (hmem : m.cr3 ∈ dirs) (hsub : ∀ d ∈ dirs', d ∈ dirs)
    (h : ∀ d ∈ dirs, ∀ i, KernelIndex i → m'.mem d i = m.mem d i) : Shares dirs m dirs' m' := by
  refine ⟨fun i hi _ => ?_, fun d hd i hi _ => .inr ⟨hsub d hd, h d (hsub d hd) i hi⟩⟩
  rw [hcr3]
  exact h _ hmem i hi

theorem trans (h : Shares dirs m dirs₁ m₁) (h' : Shares dirs₁ m₁ dirs' m') :
    Shares dirs m dirs' m' := by
  refine ⟨fun i hi hpresent => ?_, fun d hd i hi hpresent => ?_⟩
  · have hkept := h.kept i hi hpresent
    rw [h'.kept i hi (hkept ▸ hpresent), hkept]
  · rcases h'.dirs d hd i hi hpresent with hcopied | ⟨hd₁, hsame⟩
    · exact .inl hcopied
    · rw [hsame] at hpresent ⊢
      refine (h.dirs d hd₁ i hi hpresent).imp_left fun hcopied => ?_
      rw [hcopied] at hpresent ⊢
      exact (h'.kept i hi hpresent).symm

/-- The order of directories does not matter, nor do those that were or are besides. -/
theorem mono (h : Shares dirs m dirs' m') {dirs₁' : List ℕ} (hsub : ∀ d ∈ dirs, d ∈ dirs₁)
    (hsub' : ∀ d ∈ dirs₁', d ∈ dirs') : Shares dirs₁ m dirs₁' m' :=
  ⟨h.kept, fun d hd i hi hpresent => (h.dirs d (hsub' d hd) i hi hpresent).imp_right
    fun ⟨hd, hsame⟩ => ⟨hsub d hd, hsame⟩⟩

end Shares

theorem Inv.shares (h : Inv role live dirs pins k)
    (hp : Preserves D X S role k.toMachine role' m) (hD : ∀ d ∈ dirs, d ∉ D) :
    Shares dirs k.toMachine dirs m := by
  refine ⟨fun i hi hpresent => ?_, fun d hd i hi _ => ?_⟩
  · rw [hp.cr3]
    exact (hp.pde _ (hD _ h.refs.cr3_mem) h.refs.cr3_dir i).resolve_right
      fun hc => hc.2.2 hpresent
  · rcases hp.pde d (hD d hd) (h.refs.dirs d hd).1 i with hsame | ⟨rfl, -⟩
    · exact .inr ⟨hd, hsame⟩
    · rw [hp.cr3]
      exact .inl rfl

/-- A frame that is no directory is written to. -/
theorem Inv.shares_update (h : Inv role live dirs pins k) (hf : role f ≠ .directory)
    (c : Fin 1024 → BitVec 32) :
    Shares dirs k.toMachine dirs { k.toMachine with mem := update k.mem f c } := by
  refine .of_eq rfl h.refs.cr3_mem (fun _ => id) fun d hd i _ => congrFun ?_ i
  exact update_of_ne (fun heq : d = f => hf (heq ▸ (h.refs.dirs d hd).1)) _ _

/-- **A page table is added** to the kernel's half. -/
theorem Inv.preserves_link (h : Inv role live dirs pins k) (hva : KernelIndex (dirIndex va))
    (hlink : Linked k.toMachine va m t) (hkeep : ∀ g, g ∉ D → role g ≠ .free → role' g = role g)
    (hnew : ∀ g, role g = .free → g ≠ t → role' g = .free)
    (ht : role' t = .kernelTable (dirIndex va)) :
    Preserves D X S role k.toMachine role' m := by
  have hnew' : ∀ g, g ∉ D → g ∉ S → role g = .free → role' g = .free ∨ (role' g).Kernel := by
    intro g _ _ hg
    by_cases hgt : g = t
    · rw [hgt, ht]
      exact .inr trivial
    · exact .inl (hnew g hg hgt)
  cases hlink with
  | old htarget =>
    exact ⟨rfl, fun _ => Iff.rfl, hkeep, hnew', fun _ _ _ => rfl, fun _ _ _ _ => .inl rfl,
      fun _ _ _ _ _ _ _ => rfl⟩
  | @new t regions htarget halloc =>
    have htakes := Pmm.pmmAlloc_some h.frames.layout halloc
    have hfree := h.frames.free t htakes.page htakes.free
    have hne : ∀ {g}, role g ≠ .free → g ≠ t := fun hg heq => hg (heq ▸ hfree)
    have hdir := h.refs.cr3_dir
    -- only the directory and the new page table change
    have hmem : ∀ {g}, role g ≠ .free → g ≠ k.cr3 →
        (k.mem.write k.cr3 (dirIndex va) (entry t pdeFlags)).clear t g = k.mem g := by
      intro g hg hcr3
      rw [Memory.clear_of_ne (hne hg), Memory.write_of_ne hcr3]
    refine ⟨rfl, htakes.page_iff, hkeep, hnew', fun g _ hg => hmem ?_ ?_, fun g _ hg i => ?_,
      fun t' i _ ht' j _ _ => ?_⟩
    · rintro hc
      rw [hc] at hg
      exact hg
    · rintro rfl
      rw [hdir] at hg
      exact hg
    · show (k.mem.write k.cr3 (dirIndex va) (entry t pdeFlags)).clear t g i = k.mem g i ∨ _
      rw [Memory.clear_of_ne (hne (by rw [hg]; nofun)), Memory.write_apply]
      split
      · rename_i heq
        obtain ⟨rfl, rfl⟩ := heq
        exact .inr ⟨rfl, hva, target_eq_none.mp htarget⟩
      · exact .inl rfl
    · refine congrFun (hmem (by rw [ht']; nofun) ?_) j
      rintro rfl
      exact nomatch hdir.symm.trans ht'

end Rastapopoulos.Vmm
