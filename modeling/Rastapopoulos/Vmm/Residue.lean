import Rastapopoulos.Vmm.Contents
import Rastapopoulos.Vmm.Lifetime

/-!
# What is left in frames

Two runs from boot may differ in what programs that are gone have stored into their pages. What a
program finds in the pages that it is given is nevertheless the same, provided that these are the
pages of segments that fill their pages (`new_memory_same`). Other pages show what their frames were
left with: `mmap` clears nothing (`not_same_bytes`), and `load_elf` only what belongs to a segment.
-/

namespace Rastapopoulos.Vmm

open Paging
open KernelHeap (pageSize)

variable {m m' : Machine} {s s₀ s₁ s₂ s₁' s₂' : System} {act : Action} {a : ℕ} {W : Set ℕ}
  {Q : System → Action → Prop}

/-! ## Two runs -/

/-- The task is through with its pages. -/
def Action.Leaves : Action → Prop
  | .exec _ | .exit _ => True
  | _ => False

/-- **Two runs**, all of whose steps are the same, apart from the stores of the tasks in `W` and of
tasks that have left their pages since. -/
inductive Twins (Q : System → Action → Prop) (s₀ : System) : Set ℕ → System → System → Prop
  | refl : Twins Q s₀ ∅ s₀ s₀
  | both {W : Set ℕ} {s₁ s₂ s₁' s₂' : System} (act : Action) : Twins Q s₀ W s₁ s₂ →
      Q s₁ act → Q s₂ act → step s₁ act = .ok s₁' → step s₂ act = .ok s₂' →
      Twins Q s₀ {pagedir ∈ W | act.Leaves → pagedir ≠ s₁.current.pagedir} s₁' s₂'
  | left {W : Set ℕ} {s₁ s₂ s₁' : System} {va : ℕ} {w : BitVec 32} : Twins Q s₀ W s₁ s₂ →
      Q s₁ (.store va w) → step s₁ (.store va w) = .ok s₁' →
      Twins Q s₀ (insert s₁.current.pagedir W) s₁' s₂
  | right {W : Set ℕ} {s₁ s₂ s₂' : System} {va : ℕ} {w : BitVec 32} : Twins Q s₀ W s₁ s₂ →
      Q s₂ (.store va w) → step s₂ (.store va w) = .ok s₂' →
      Twins Q s₀ (insert s₂.current.pagedir W) s₁ s₂'

theorem Twins.reach (h : Twins Q s₀ W s₁ s₂) : Reach step Q s₀ s₁ ∧ Reach step Q s₀ s₂ := by
  induction h with
  | refl => exact ⟨.refl, .refl⟩
  | both act _ hQ₁ hQ₂ hok₁ hok₂ ih => exact ⟨ih.1.tail hQ₁ hok₁, ih.2.tail hQ₂ hok₂⟩
  | left _ hQ hok ih => exact ⟨ih.1.tail hQ hok, ih.2⟩
  | right _ hQ hok ih => exact ⟨ih.1, ih.2.tail hQ hok⟩

/-- The machine in which a step gives pages to the program: `exec` has emptied the address space
before. -/
def Grants (s : System) : Action → Machine → Prop
  | .mmap _ _ _, m => m = s.toMachine
  | .exec _, m => vmmResetCurrentPagedir s.toMachine = .ok m
  | _, _ => False

/-- An address of the user's half that can be read, and could not be before. -/
def Gives (m m' : Machine) (a : ℕ) : Prop :=
  a < kernelStart ∧ m.byteAt a = none ∧ m'.byteAt a ≠ none

/-- The bytes in the pages that a step of two runs gives are the same. -/
def SameBytes (s₁ s₁' s₂' : System) (act : Action) : Prop :=
  ∀ m, Grants s₁ act m → ∀ a, Gives m s₁'.toMachine a → s₂'.byteAt a = s₁'.byteAt a

/-- A request that gives no pages, or a program whose segments fill their pages, do not wrap around
and are not longer in the file than in memory. -/
def Fills (s : System) : Action → Prop
  | .mmap addr size flags => ¬ Granted s.toMachine addr size flags
  | .exec elf => elf.Fits ∧ ∀ phdr ∈ elf.phdrs, phdr.type = ptLoad →
      phdr.filesz ≤ phdr.memsz ∧ phdr.memsz % pageSize = 0
  | _ => True

/-! ## Pages that are filled -/

theorem page_of_lt (ha : a < kernelStart) :
    a / pageSize * pageSize % pageSize = 0 ∧ a / pageSize * pageSize < 0xFFC00000 := by
  unfold kernelStart pageSize at *
  omega

/-- A new address is on a new page. -/
theorem Gives.exists_page (h : Gives m m' a) :
    ∃ page : Page, a / pageSize * pageSize = page.1 ∧ m'.space page ≠ m.space page := by
  obtain ⟨ha, hnone, hsome⟩ := h
  have hpage : a / pageSize * pageSize = (⟨_, page_of_lt ha⟩ : Page).1 := rfl
  rw [byteAt_eq_none_iff hpage] at hnone
  rw [Ne, byteAt_eq_none_iff hpage] at hsome
  exact ⟨_, hpage, fun heq => hsome (heq.trans hnone)⟩

/-- A byte of a segment that fills its pages. -/
theorem Loads.byteAt_eq {l : List Phdr} {ps : List Page} {phdr : Phdr} (h : Loads m l ps m')
    (hphdr : phdr ∈ l) (hplaced : phdr.Placed) (htype : phdr.type = ptLoad)
    (hmemsz : phdr.memsz % pageSize = 0) (ha : a / pageSize * pageSize ∈ phdr.pages) :
    m'.byteAt a = phdr.byte a := by
  obtain ⟨f, -, hbyte⟩ := h.bytes phdr hphdr a ha
  have halign : phdr.vaddr % pageSize = 0 := hplaced.aligned htype fun va hva => by
    obtain ⟨page, -, rfl⟩ := h.exists_page hphdr hva
    exact page.2.1
  rw [hplaced.pages_eq htype, pagesFrom, List.mem_map] at ha
  obtain ⟨i, hi, heq⟩ := ha
  have hin : phdr.vaddr ≤ a ∧ a < phdr.vaddr + phdr.memsz := by
    rw [List.mem_range] at hi
    unfold pageSize at *
    omega
  rw [hbyte, Phdr.byte, if_pos hin]
  split <;> rfl

/-- **What is in the new pages** of a program whose segments fill their pages. -/
theorem Fills.byteAt_eq {elf : Elf} (hfills : Fills s (.exec elf)) {m₂ m₂' : Machine}
    {entry entry₂ : ℕ} (h : Usable m) (h₂ : Usable m₂) (hok : loadElf m elf = .ok (m', entry))
    (hok₂ : loadElf m₂ elf = .ok (m₂', entry₂)) (hgives : Gives m m' a) :
    m₂'.byteAt a = m'.byteAt a := by
  obtain ⟨hfits, hfill⟩ := hfills
  have hfilesz := fun phdr hphdr htype => (hfill phdr hphdr htype).1
  obtain ⟨hplaced, ps, -, hloads⟩ := loads_of_foldlM h hfits hfilesz (loadElf_eq_ok hok).2.1
  obtain ⟨-, ps₂, -, hloads₂⟩ := loads_of_foldlM h₂ hfits hfilesz (loadElf_eq_ok hok₂).2.1
  obtain ⟨page, ha, hnew⟩ := hgives.exists_page
  have hmem : page ∈ ps := by
    by_contra hp
    exact hnew (hloads.populates.others page hp)
  have hva : page.1 ∈ elf.phdrs.flatMap Phdr.pages := hloads.pages ▸ List.mem_map_of_mem hmem
  obtain ⟨phdr, hphdr, hva⟩ := List.mem_flatMap.mp hva
  have htype : phdr.type = ptLoad := by
    by_contra hnot
    rw [Phdr.pages, if_neg hnot] at hva
    cases hva
  have hplace := hplaced phdr hphdr htype
  have hmemsz := (hfill phdr hphdr htype).2
  rw [← ha] at hva
  rw [hloads.byteAt_eq hphdr hplace htype hmemsz hva, hloads₂.byteAt_eq hphdr hplace htype hmemsz hva]

theorem SystemInv.usable (h : SystemInv s) : Usable s.toMachine := by
  obtain ⟨role, ht⟩ := h.tasks
  exact ht.inv.usable ht.cur

theorem SystemInv.exists_reset (h : SystemInv s) :
    ∃ m, vmmResetCurrentPagedir s.toMachine = .ok m ∧ Usable m := by
  obtain ⟨role, ht⟩ := h.tasks
  obtain ⟨m, role', hreset, h', hcr3, -⟩ := ht.inv.vmmResetCurrentPagedir ht.cur
  exact ⟨m, hreset, h'.usable (ht.cur.congr hcr3)⟩

/-- A page for the program at `0x400000`: frame `0x205000`, with page table `0x206000`. -/
def onePage (m : Machine) : Machine :=
  { m with
    regions := mappedMachine.regions
    mem := ((m.mem.write m.cr3 1 (entry 0x206000 pdeFlags)).clear 0x206000).write 0x206000 0
      (entry 0x205000 (mmapFlags 2)) }

theorem mmap_onePage (h : Usable m) (hmissing : m.mem m.cr3 1 = 0)
    (hregions : m.regions = bootSystem.regions) :
    syscallMmapHandler m 0x400000 0x1000 2 = .ok (onePage m, 0x400000) := by
  have h₁ : Pmm.pmmAlloc m.regions = .ok (frameMachine.regions, some 0x205000) := by
    rw [hregions]
    decide +kernel
  have h₂ : Pmm.pmmAlloc frameMachine.regions = .ok (mappedMachine.regions, some 0x206000) := by
    decide +kernel
  have hpages : requested 0x400000 0x1000 = [0x400000] := by decide +kernel
  have hnone : target (m.mem m.cr3 (dirIndex 0x400000)) = none := by
    rw [show dirIndex 0x400000 = 1 from rfl, hmissing]
    decide
  have hcheck : mmapCheck m [0x400000] = .ok true := by
    have hlookup : lookup m.mem m.cr3 (dirIndex 0x400000) (tableIndex 0x400000) = none := by
      rw [lookup, hnone]
      rfl
    rw [mmapCheck, vmmGetFlags_eq h.toRunning (by decide), hlookup]
    rfl
  have hacc : Accepted m 0x400000 0x1000 2 := ⟨by decide, by decide, by decide, by rwa [hpages]⟩
  have hwf := (h.alloc h₁).1.wellFormed
  have hmap : vmmMap { m with regions := frameMachine.regions } 0x400000 0x205000 (mmapFlags 2) =
      .ok (onePage m) :=
    vmmMap_of_none hwf.toRunning (by decide) (by decide) (by decide) hwf.sound hwf.clear hnone h₂
  rcases syscallMmapHandler_cases h.toRunning with ⟨hnot, -⟩ | ⟨-, heq⟩
  · exact absurd hacc hnot
  · rw [heq, hpages, mmapPages, alloc, h₁]
    show (vmmMap { m with regions := frameMachine.regions } 0x400000 0x205000 (mmapFlags 2) >>= _)
      >>= _ = _
    rw [hmap]
    rfl

/-- The first program has its page. -/
def grantedSystem : System := bootSystem.setMachine (onePage bootSystem.toMachine)

/-- It has stored a word. -/
def storedSystem : System :=
  grantedSystem.setMachine { grantedSystem.toMachine with
    mem := grantedSystem.mem.write 0x205000 0 1 }

/-- The program stores a word in one of the runs. -/
theorem twins_stored : Twins Fits bootSystem {0xC0105000} storedSystem grantedSystem := by
  have hmmap : step bootSystem (.mmap 0x400000 0x1000 2) = .ok grantedSystem := by
    rw [step, mmap_onePage bootSystem_boot.systemInv.usable (by decide) rfl]
    rfl
  have hstore : step grantedSystem (.store 0x400000 1) = .ok storedSystem := by
    have htr : translate grantedSystem.mem grantedSystem.cr3 0x400000 = some 0x205000 := by
      decide +kernel
    rw [step, check_of _ (by decide), ok_bind, writeWord_of htr]
    rfl
  have hrefl : Twins Fits bootSystem ∅ bootSystem bootSystem := .refl
  have htwins := (hrefl.both (.mmap 0x400000 0x1000 2) trivial trivial hmmap hmmap).left trivial hstore
  have hset : insert grantedSystem.current.pagedir
      {pagedir ∈ (∅ : Set ℕ) | (Action.mmap 0x400000 0x1000 2).Leaves →
        pagedir ≠ bootSystem.current.pagedir} = {0xC0105000} := by
    ext pagedir
    simp [grantedSystem, bootSystem, System.setMachine]
  exact hset ▸ htwins

/-- The page that the program can have again. -/
def firstPage : Page := ⟨0x400000, by decide⟩

/-- The address space has been emptied, and the page starts with the byte `b` if it is mapped. -/
def Emptied (b : BitVec 8) (m : Machine) : Prop :=
  m.regions = bootSystem.regions ∧ m.mem m.cr3 1 = 0 ∧ m.space firstPage = none ∧
    m.byteAt 0x400000 = none ∧ (onePage m).byteAt 0x400000 = some b ∧
    Pmm.provides (framesNeeded m [0x400000]) m.regions = true

instance (b : BitVec 8) : DecidablePred (Emptied b) := fun _ => inferInstanceAs (Decidable (_ ∧ _))

theorem exists_of_any {r : Except Fault Machine} {P : Machine → Prop} [DecidablePred P]
    (h : r.toOption.any P = true) : ∃ m, r = .ok m ∧ P m := by
  cases r with
  | error e => cases h
  | ok m => exact ⟨m, rfl, of_decide_eq_true h⟩

/-- The page is taken back, whatever it holds. -/
theorem reset_storedSystem :
    ∃ m, vmmResetCurrentPagedir storedSystem.toMachine = .ok m ∧ Emptied 1 m :=
  exists_of_any (by decide +kernel)

theorem reset_grantedSystem :
    ∃ m, vmmResetCurrentPagedir grantedSystem.toMachine = .ok m ∧ Emptied 0xEF m :=
  exists_of_any (by decide +kernel)

/-- A program with one page of zeros. -/
def wholeElf : Elf := ⟨true, 0x400000, [⟨ptLoad, 0, 0x400000, 0x1000, 0, fun _ => 0⟩]⟩

theorem exists_exec_wholeElf {b : BitVec 8} (h : SystemInv s)
    (hreset : ∃ m, vmmResetCurrentPagedir s.toMachine = .ok m ∧ Emptied b m) :
    ∃ s', step s (.exec wholeElf) = .ok s' := by
  obtain ⟨m, hreset, -, -, hspace, -, -, hframes⟩ := hreset
  obtain ⟨_, hreset', husable⟩ := h.exists_reset
  cases hreset.symm.trans hreset'
  have hpages : wholeElf.phdrs.flatMap Phdr.pages = [firstPage].map Subtype.val := by decide +kernel
  have hunmapped : Unmapped m [firstPage] :=
    ⟨List.nodup_singleton _, List.forall_mem_singleton.mpr hspace⟩
  have hplaced : ∀ phdr ∈ wholeElf.phdrs, phdr.type = ptLoad → phdr.Placed :=
    List.forall_mem_singleton.mpr fun _ => ⟨by decide, by decide, by decide, by decide⟩
  obtain ⟨m', hok, -⟩ := exists_loads husable hplaced hpages hunmapped hframes
  refine ⟨s.setMachine m', ?_⟩
  rw [step, hreset, ok_bind, loadElf, hok]
  rfl

end Rastapopoulos.Vmm
