import Rastapopoulos.Vmm.Transient
import Rastapopoulos.Vmm.Mmap

/-!
# Changes of the current address space

Programs are loaded, pages are mapped on request, stacks are set up, and the program stores words.
Stores below `KERNEL_START` change pages of the user's half, and no entries. A store that starts
there stays there, because the page at `KERNEL_START` is never mapped: the kernel begins above it.
-/

namespace Rastapopoulos.Vmm

open Paging Function
open KernelHeap (pageSize)

variable {role role' : ℕ → Role} {live : ℕ → Fin 1024 → Prop} {dirs : List ℕ}
  {pins : List (ℕ × ℕ)} {k : Kernel} {m m' : Machine} {f va len n : ℕ} {bytes : ℕ → BitVec 8}
  {w flags : BitVec 32} {pages done : List ℕ}

/-- Segments do not wrap around. -/
def Elf.Fits (elf : Elf) : Prop :=
  ∀ phdr ∈ elf.phdrs, phdr.type = ptLoad → phdr.vaddr + phdr.memsz < wordMod

instance (elf : Elf) : Decidable elf.Fits := inferInstanceAs (Decidable (∀ phdr ∈ elf.phdrs, _))

/-- There are roles for the machine to keep the invariant with, and the directory is the same. -/
structure Keeps (live : ℕ → Fin 1024 → Prop) (dirs : List ℕ) (pins : List (ℕ × ℕ)) (k : Kernel)
    (m : Machine) : Prop where
  inv : ∃ role, Inv role live dirs pins (k.set m)
  cr3 : m.cr3 = k.cr3
  shares : Shares dirs k.toMachine dirs m

theorem Keeps.refl (h : Inv role live dirs pins k) : Keeps live dirs pins k k.toMachine :=
  ⟨⟨role, h⟩, rfl, .of_eq rfl h.refs.cr3_mem (fun _ => id) fun _ _ _ _ => rfl⟩

theorem Keeps.trans (h : Keeps live dirs pins k m) (h' : Keeps live dirs pins (k.set m) m') :
    Keeps live dirs pins k m' :=
  ⟨h'.inv, h'.cr3.trans h.cr3, h.shares.trans h'.shares⟩

/-- A loop keeps the invariant if its steps do. -/
theorem Keeps.foldlM {α : Type} {step : Machine → α → Except Fault Machine} {l : List α}
    (hcur : Current live k.toMachine) (h : Inv role live dirs pins k)
    (hstep : ∀ a ∈ l, ∀ {role : ℕ → Role} {m m' : Machine}, Inv role live dirs pins (k.set m) →
      Current live m → step m a = .ok m' → Keeps live dirs pins (k.set m) m')
    (hok : l.foldlM step k.toMachine = .ok m) : Keeps live dirs pins k m := by
  refine foldlM_invariant (P := Keeps live dirs pins k) (fun a ha m₁ m₂ hP hm => ?_) (.refl h) hok
  obtain ⟨role, h₁⟩ := hP.inv
  exact hP.trans (hstep a ha h₁ (hcur.congr hP.cr3) hm)

namespace Inv

variable (h : Inv role live dirs pins k) (hcur : Current live k.toMachine)

include h

/-! ## Stores -/

/-- Nothing is mapped at `KERNEL_START`. -/
theorem translate_kernelStart : translate k.mem k.cr3 kernelStart = none := by
  rw [Option.eq_none_iff_forall_not_mem]
  intro f hf
  obtain ⟨t, ht, hf⟩ := translate_eq_some.mp hf
  have hi : KernelIndex (dirIndex kernelStart) := ⟨by decide, by decide⟩
  have hrole := h.refs.kernelTable hi ht
  have hpage := (h.refs.kernelPage t _ hrole _ f hf).1
  rw [pageAddr_eq (by decide) (by decide)] at hpage
  exact absurd hpage (by decide)

include hcur

theorem role_page (hva : va < kernelStart) (htr : translate k.mem k.cr3 va = some f) :
    ∃ t j, role f = .page t j := by
  obtain ⟨t, ht, hf⟩ := translate_eq_some.mp htr
  have hrole := (h.refs.live _ _ (hcur _ (dirIndex_lt hva))).2.2 t ht
  exact ⟨t, _, h.refs.page t _ _ hrole _ f hf⟩

/-- Another content of a page of the user's half. -/
theorem update_page (hva : va < kernelStart) (htr : translate k.mem k.cr3 va = some f)
    (c : Fin 1024 → BitVec 32) :
    Keeps live dirs pins k { k.toMachine with mem := update k.mem f c } := by
  obtain ⟨t, j, hf⟩ := h.role_page hcur hva htr
  have hdir : role f ≠ .directory := by
    rw [hf]
    nofun
  exact ⟨⟨role, h.update_data hdir (by rw [hf]; nofun) (by rw [hf]; nofun)⟩, rfl,
    h.shares_update hdir c⟩

theorem writeWord (hva : va < kernelStart) (hok : Vmm.writeWord k.toMachine va w = .ok m) :
    Keeps live dirs pins k m := by
  unfold Vmm.writeWord at hok
  split at hok
  · rename_i f htr
    cases hok
    exact h.update_page hcur hva htr _
  · exact nomatch hok

theorem storePage (hn : n * pageSize < kernelStart)
    (hok : Vmm.storePage va len bytes k.toMachine n = .ok m) : Keeps live dirs pins k m := by
  unfold Vmm.storePage at hok
  split at hok
  · exact nomatch hok
  · rename_i f htr
    cases hok
    rw [Nat.mod_eq_of_lt (hn.trans (by decide))] at htr
    exact h.update_page hcur hn htr _

/-- **A store that starts in the user's half stays there.** -/
theorem store (hva : va < kernelStart) (hok : Vmm.store k.toMachine va len bytes = .ok m) :
    Keeps live dirs pins k m := by
  unfold Vmm.store at hok
  split at hok
  · cases hok
    exact .refl h
  · refine (foldlM_rest (P := fun rest m => Keeps live dirs pins k m ∧
      ∃ n count, n * pageSize ≤ kernelStart ∧ rest = List.range' n count)
      (fun n rest m₁ m₂ hP hstep => ?_) ⟨.refl h, va / pageSize, _, ?_, rfl⟩ hok).1
    · obtain ⟨hkeeps, n', count, hn, hrest⟩ := hP
      obtain ⟨role₁, h₁⟩ := hkeeps.inv
      cases count with
      | zero => exact nomatch hrest
      | succ count =>
        rw [List.range'_succ] at hrest
        obtain ⟨rfl, rfl⟩ := List.cons.inj hrest
        -- the store has not come to the page at `KERNEL_START`
        have hne : n * pageSize ≠ kernelStart := by
          intro heq
          have hnone : translate m₁.mem m₁.cr3 (n * pageSize % wordMod) = none := by
            rw [heq]
            exact h₁.translate_kernelStart
          rw [Vmm.storePage, hnone] at hstep
          exact nomatch hstep
        have hlt := Nat.lt_of_le_of_ne hn hne
        refine ⟨hkeeps.trans (h₁.storePage (hcur.congr hkeeps.cr3) hlt hstep), n + 1, count, ?_, rfl⟩
        have hk : kernelStart = 0xC0000 * pageSize := by decide
        rw [hk] at hlt ⊢
        exact Nat.mul_le_mul_right _ (Nat.lt_of_mul_lt_mul_right hlt)
    · exact (Nat.div_mul_le_self va pageSize).trans hva.le

/-! ## New pages -/

/-- **A frame is allocated and mapped.** -/
theorem map_frame {m₁ : Machine} (hva : va < kernelStart) (hflags : flags.toNat < 2 ^ 12)
    (halloc : allocFrame k.toMachine = .ok (m₁, f)) (hmap : vmmMap m₁ va f flags = .ok m) :
    ∃ m₂ t role', Allocates role k m₁ f ∧ Linked m₁ va m₂ t ∧
      ¬ Present (m₂.mem t (tableIndex va)) ∧
      m = { m₂ with mem := m₂.mem.write t (tableIndex va) (entry f flags) } ∧
      flags &&& vmmPagePresent ≠ 0 ∧ Extends role role' ∧
      (∀ g, role g = .free → g ≠ t → g ≠ f → role' g = .free) ∧
      role' t = .table k.cr3 (dirIndex va) ∧ role' f = .page t (tableIndex va) ∧
      Inv role' live dirs pins (k.set m) ∧ m.cr3 = k.cr3 := by
  obtain ⟨halloc, h₁⟩ := h.alloc.of_ok halloc
  dsimp only at halloc h₁
  have hcur₁ : Current live (k.set m₁).toMachine := hcur.congr halloc.cr3
  obtain ⟨-, -, hpresent, m₂, t, hlink, habsent, rfl⟩ := vmmMap_ok (h₁.wellFormed hcur₁) hmap
  obtain ⟨role', hkeep, hnew, ht, hf, h₂, hcr3⟩ := h₁.map_user hcur₁ (update_self ..)
    halloc.lt halloc.aligned hflags hpresent hlink hva
  refine ⟨m₂, t, role', halloc, hlink, habsent, rfl, hpresent, fun g hg => ?_, fun g hg hgt hgf => ?_,
    halloc.cr3 ▸ ht, hf, h₂, hcr3.trans halloc.cr3⟩
  · have hgf : g ≠ f := fun heq => hg (heq ▸ halloc.free)
    have hg₁ := update_of_ne hgf .loose role
    rw [hkeep g hgf (hg₁ ▸ hg), hg₁]
  · exact hnew g ((update_of_ne hgf .loose role).trans hg) hgt

theorem map_new {m₁ : Machine} (hva : va < kernelStart) (hflags : flags.toNat < 2 ^ 12)
    (halloc : allocFrame k.toMachine = .ok (m₁, f)) (hmap : vmmMap m₁ va f flags = .ok m) :
    Keeps live dirs pins k m := by
  obtain ⟨m₂, t, role', halloc, hlink, -, rfl, -, -, -, ht, -, h', hcr3⟩ :=
    h.map_frame hcur hva hflags halloc hmap
  refine ⟨⟨role', h'⟩, hcr3, .of_eq hcr3 h.refs.cr3_mem (fun _ => id) fun d hd i hi => ?_⟩
  have hdt : d ≠ t := by
    rintro rfl
    exact nomatch (h'.refs.dirs d hd).1.symm.trans ht
  have hi' : i ≠ dirIndex va := fun heq => hi.not_lt (heq ▸ dirIndex_lt hva)
  show m₂.mem.write t (tableIndex va) _ d i = k.mem d i
  rw [Memory.write_of_ne hdt, hlink.mem_eq hdt fun _ => hi', halloc.machine]

/-! ## Other entries -/

theorem unmap_user (hva : va < kernelStart) (hok : vmmUnmap k.toMachine va = .ok m) :
    Keeps live dirs pins k m := by
  obtain ⟨h₁, hcr3⟩ := h.unmap hcur hva hok
  obtain ⟨-, t, ht, rfl⟩ := vmmUnmap_ok (h.wellFormed hcur) hok
  have hrole := (h.refs.live _ _ (hcur _ (dirIndex_lt hva))).2.2 t ht
  exact ⟨⟨role, h₁⟩, hcr3, h.shares_update (by rw [hrole]; nofun) _⟩

theorem remap_user (hva : va < kernelStart) (hflags : flags.toNat < 2 ^ 12)
    (hok : vmmRemap k.toMachine va flags = .ok m) : Keeps live dirs pins k m := by
  obtain ⟨h₁, hcr3⟩ := h.remap hcur hva hflags hok
  obtain ⟨-, t, ht, -, rfl⟩ := vmmRemap_ok (h.wellFormed hcur) hok
  have hrole := (h.refs.live _ _ (hcur _ (dirIndex_lt hva))).2.2 t ht
  exact ⟨⟨role, h₁⟩, hcr3, h.shares_update (by rw [hrole]; nofun) _⟩

theorem mapStack (hva : va < kernelStart) (hflags : flags.toNat < 2 ^ 12)
    (hok : Vmm.mapStack k.toMachine va flags = .ok m) : Keeps live dirs pins k m := by
  simp only [Vmm.mapStack, bind_eq_ok, Prod.exists] at hok
  obtain ⟨m₁, f, halloc, m₂, hmap, hstore⟩ := hok
  have hkeeps := h.map_new hcur hva hflags halloc hmap
  obtain ⟨role', h₂⟩ := hkeeps.inv
  exact hkeeps.trans (h₂.store (hcur.congr hkeeps.cr3) hva hstore)

end Inv

/-! ## Loading programs -/

namespace Inv

variable (h : Inv role live dirs pins k) (hcur : Current live k.toMachine)

include h hcur

/-- **A segment that does not wrap around is loaded.** -/
theorem loadSegment {phdr : Phdr} (hfits : phdr.type = ptLoad → phdr.vaddr + phdr.memsz < wordMod)
    (hok : Vmm.loadSegment k.toMachine phdr = .ok m) : Keeps live dirs pins k m := by
  unfold Vmm.loadSegment at hok
  split at hok
  · rename_i htype
    have hend : addW phdr.vaddr phdr.memsz = phdr.vaddr + phdr.memsz := addW_of_lt (hfits htype)
    simp only [bind_eq_ok, check_eq_ok, hend] at hok
    obtain ⟨-, hsize, -, -, -, hstop, m₁, hmap, m₂, hzero, m₃, hcopy, hremap⟩ := hok
    have hbound : phdr.vaddr + phdr.memsz < kernelStart := Nat.lt_of_le_of_lt hstop (by decide)
    have hpage : ∀ page ∈ pagesFrom phdr.vaddr (phdr.vaddr + phdr.memsz), page < kernelStart :=
      fun page hp => (lt_of_mem_pagesFrom hp).trans hbound
    have hstart : phdr.vaddr < kernelStart := Nat.lt_of_le_of_lt (Nat.le_add_right ..) hbound
    have hkeeps₁ : Keeps live dirs pins k m₁ := by
      refine Keeps.foldlM hcur h (fun page hp {role₁ m m'} h₁ hcur₁ hstep => ?_) hmap
      simp only [bind_eq_ok, Prod.exists] at hstep
      obtain ⟨m₂, f, halloc, hmap⟩ := hstep
      exact h₁.map_new hcur₁ (hpage page hp) (by decide) halloc hmap
    obtain ⟨role₁, h₁⟩ := hkeeps₁.inv
    have hkeeps₂ := hkeeps₁.trans (h₁.store (hcur.congr hkeeps₁.cr3) hstart hzero)
    obtain ⟨role₂, h₂⟩ := hkeeps₂.inv
    have hkeeps₃ := hkeeps₂.trans (h₂.store (hcur.congr hkeeps₂.cr3) hstart hcopy)
    obtain ⟨role₃, h₃⟩ := hkeeps₃.inv
    refine hkeeps₃.trans (Keeps.foldlM (hcur.congr hkeeps₃.cr3) h₃ ?_ hremap)
    intro page hp role₄ m₄ m₅ h₄ hcur₄ hstep
    exact h₄.remap_user hcur₄ (hpage page hp) (by split <;> decide) hstep
  · cases hok
    exact .refl h

theorem loadElf {elf : Elf} {entry : ℕ} (hfits : elf.Fits)
    (hok : Vmm.loadElf k.toMachine elf = .ok (m, entry)) : Keeps live dirs pins k m := by
  simp only [Vmm.loadElf, bind_eq_ok, check_eq_ok, pure_inj, Prod.mk.injEq] at hok
  obtain ⟨-, -, m₁, hloop, rfl, -⟩ := hok
  refine Keeps.foldlM hcur h ?_ hloop
  intro phdr hp role₁ m₁ m₂ h₁ hcur₁ hstep
  exact h₁.loadSegment hcur₁ (hfits phdr hp) hstep

end Inv

/-! ## Pages on request -/

namespace Inv

theorem mmapPages {mapped : Bool} (h : Inv role live dirs pins k)
    (hcur : Current live k.toMachine) (hflags : flags.toNat < 2 ^ 12)
    (hdone : ∀ page ∈ done, page < kernelStart) (hpages : ∀ page ∈ pages, page < kernelStart)
    (hok : Vmm.mmapPages flags k.toMachine done pages = .ok (m, mapped)) :
    Keeps live dirs pins k m := by
  induction pages generalizing k role done with
  | nil =>
    cases hok
    exact .refl h
  | cons page pages ih =>
    rw [List.forall_mem_cons] at hpages
    rcases mmapPages_cons_ok hok with
      ⟨regions, halloc, hunmap, -⟩ | ⟨regions, f, m₂, halloc, hmap, hok⟩
    · -- out of memory: the pages mapped so far are unmapped
      obtain ⟨rfl, -⟩ := Pmm.pmmAlloc_none h.frames.layout halloc
      refine Keeps.foldlM hcur h ?_ hunmap
      intro page hp role₁ m₁ m₂ h₁ hcur₁ hstep
      exact h₁.unmap_user hcur₁ (hdone page hp) hstep
    · have hkeeps := h.map_new hcur hpages.1 hflags
        (allocFrame_eq_ok.mpr ⟨regions, halloc, rfl⟩) hmap
      obtain ⟨role₂, h₂⟩ := hkeeps.inv
      refine hkeeps.trans (ih h₂ (hcur.congr hkeeps.cr3) (fun p hp => ?_) hpages.2 hok)
      rcases List.mem_append.mp hp with hp | hp
      · exact hdone p hp
      · rw [List.mem_singleton.mp hp]
        exact hpages.1

/-- **Pages are mapped on request**, or none of them. -/
theorem syscallMmapHandler {addr size result : ℕ} (h : Inv role live dirs pins k)
    (hcur : Current live k.toMachine)
    (hok : Vmm.syscallMmapHandler k.toMachine addr size flags = .ok (m, result)) :
    Keeps live dirs pins k m := by
  rcases syscallMmapHandler_eq_ok hok with ⟨rfl, -⟩ | ⟨mapped, hcheck, hloop, -⟩
  · exact .refl h
  · exact h.mmapPages hcur mmapFlags_lt (List.forall_mem_nil _) (lt_of_mmapCheck hcheck) hloop

end Inv

end Rastapopoulos.Vmm
