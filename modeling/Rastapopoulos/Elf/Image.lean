import Rastapopoulos.Elf.Safety
import Rastapopoulos.Vmm.Contents
import Rastapopoulos.Vmm.Lifetime

/-!
# Images of programs

A file whose segments are aligned, do not overlap and fit into what is free of the address space is
loaded: afterwards each segment is at its place, with the bytes of the file and with zeros behind
them, and nothing else has changed in the address space of the program (`load_image`).
-/

namespace Rastapopoulos.Vmm

open Paging
open KernelHeap (pageSize)

variable {m m' m₁ : Machine} {data : List (BitVec 8)} {i n : ℕ} {page : Page} {ps ps' : List Page}

/-! ## Statement -/

/-- The frames of the program's pages are in use, and they are neither the directory nor page
tables. -/
structure Sound (m : Machine) : Prop extends Usable m where
  pages : ∀ page : Page, page.1 < kernelStart → ∀ p, m.space page = some p → Settled m p.1

/-- A file that can be loaded: its headers pass the checks, and its segments are aligned, disjoint,
not mapped yet and in the file. There are frames for them. -/
structure Loadable (m : Machine) (data : List (BitVec 8)) : Prop where
  size : data.length < wordMod
  header : ∀ field ∈ headerFields, field.Inside data ∧ field.Passes data
  phdrs : ePhoff data + 32 * ePhnum data ≤ data.length
  memsz : ∀ i < ePhnum data, pType data i = ptLoad → 0 < pMemsz data i
  user : ∀ i < ePhnum data, pType data i = ptLoad →
    userStart ≤ pVaddr data i ∧ pVaddr data i + pMemsz data i ≤ userEnd
  aligned : ∀ i < ePhnum data, pType data i = ptLoad → pVaddr data i % pageSize = 0
  disjoint : (pagesBefore data (ePhnum data)).Nodup
  unmapped : ∀ page : Page, page.1 ∈ pagesBefore data (ePhnum data) → m.space page = none
  filesz : ∀ i < ePhnum data, pType data i = ptLoad → pFilesz data i ≤ pMemsz data i
  inside : ∀ i < ePhnum data, pType data i = ptLoad →
    pOffset data i + pFilesz data i ≤ data.length
  frames : Pmm.provides (framesNeeded m (pagesBefore data (ePhnum data))) m.regions = true

/-- A segment is at its place. -/
structure Shows (m : Machine) (data : List (BitVec 8)) (i : ℕ) : Prop where
  bytes : ∀ k < pMemsz data i, m.byteAt (pVaddr data i + k) =
    some (if k < pFilesz data i then fileBytes data (pOffset data i) k else 0)
  pages : ∀ page : Page, page.1 ∈ segmentPages data i →
    ∃ f, m.space page = some (f, segmentFlags (BitVec.ofNat 32 (pFlags data i))) ∧ Settled m f

/-- The machine of a kernel that keeps its invariant. -/
theorem Inv.sound {role : ℕ → Role} {live : ℕ → Fin 1024 → Prop} {dirs : List ℕ}
    {pins : List (ℕ × ℕ)} {k : Kernel} (h : Inv role live dirs pins k)
    (hcur : Current live k.toMachine) : Sound k.toMachine where
  toUsable := h.usable hcur
  pages page hlt p hspace := by
    obtain ⟨t, j, hrole⟩ := h.role_page hcur hlt (translate_of_space hspace)
    have htaken : Pmm.Taken k.regions p.1 := h.frames.taken p.1 (by rw [hrole]; trivial)
    have htables : ∀ d, target (k.mem k.cr3 d) ≠ some p.1 := by
      intro d hd
      by_cases hself : d = 1023
      · rw [hself, h.refs.self] at hd
        rw [← Option.some.inj hd, h.refs.cr3_dir] at hrole
        cases hrole
      · rw [h.pde_role hcur hself hd, pdeRole] at hrole
        split at hrole <;> cases hrole
    exact ⟨fun heq => htables 1023 (heq ▸ h.refs.self), htables, fun hfree => hfree.2 htaken⟩

/-! ## What has been loaded stays -/

/-- The page of a byte of a segment. -/
theorem mem_segmentPages {k : ℕ} (htype : pType data i = ptLoad)
    (halign : pVaddr data i % pageSize = 0) (hlt : pVaddr data i + pMemsz data i < wordMod)
    (hk : k < pMemsz data i) :
    (pVaddr data i + k) / pageSize * pageSize ∈ segmentPages data i := by
  rw [segmentPages_of_load htype, addW_of_lt hlt]
  exact mem_pagesFrom halign (Nat.le_add_right ..) (Nat.add_lt_add_left hk _)

theorem segmentPages_of_phdrs : (Elf.ofFile data).phdrs.flatMap Phdr.pages =
    pagesBefore data (ePhnum data) := List.flatMap_map ..

/-- A segment of a file that has been loaded. -/
theorem Loads.shows (h : Loads m (Elf.ofFile data).phdrs ps m') (hi : i < ePhnum data)
    (htype : pType data i = ptLoad) (halign : pVaddr data i % pageSize = 0)
    (hlt : pVaddr data i + pMemsz data i < wordMod) : Shows m' data i := by
  have hphdr : Phdr.ofFile data i ∈ (Elf.ofFile data).phdrs :=
    List.mem_map_of_mem (List.mem_range.mpr hi)
  refine ⟨fun k hk => ?_, fun page hmem => ?_⟩
  · have hmem : (pVaddr data i + k) / pageSize * pageSize ∈ (Phdr.ofFile data i).pages :=
      mem_segmentPages htype halign hlt hk
    obtain ⟨f, -, hbyte⟩ := h.bytes _ hphdr _ hmem
    have hstored : (Phdr.ofFile data i).byte (pVaddr data i + k) = _ := Phdr.byte_add hk
    rw [hbyte, hstored]
    rfl
  · obtain ⟨page', hp, hpage⟩ := h.exists_page hphdr hmem
    obtain rfl : page' = page := Subtype.ext hpage
    obtain ⟨p, hspace, -, hsettled⟩ := h.populates.mapped page' hp
    have hflags := h.flags _ hphdr page' hmem
    rw [hspace] at hflags
    exact ⟨p.1, hspace.trans (congrArg _ (Prod.ext rfl (Option.some.inj hflags))), hsettled⟩

/-! ## All segments -/

theorem pagesBefore_le (h : i ≤ n) : ∃ rest, pagesBefore data n = pagesBefore data i ++ rest := by
  induction n, h using Nat.le_induction with
  | base => exact ⟨[], (List.append_nil _).symm⟩
  | succ n _ ih =>
    obtain ⟨rest, hrest⟩ := ih
    exact ⟨rest ++ segmentPages data n, by rw [pagesBefore_succ, hrest, List.append_assoc]⟩

namespace Loadable

variable (hfile : Loadable m data)

include hfile

theorem phdrField_inside {k : ℕ} (hi : i < ePhnum data) (hk : k + 4 ≤ 32) :
    Inside data (phdrField data i k) 4 := by
  have hsize := hfile.size
  have hphdrs := hfile.phdrs
  rw [phdrField, addW_of_lt (by omega), Inside]
  omega

theorem readable (hi : i < ePhnum data) (htype : pType data i = ptLoad) : Readable data i := by
  have hfield : ∀ k, k + 4 ≤ 32 → Inside data (phdrField data i k) 4 := fun k hk =>
    hfile.phdrField_inside hi hk
  exact ⟨hfield 0 (by decide), hfield 20 (by decide), hfield 24 (by decide), hfield 8 (by decide),
    hfield 16 (by decide), fun _ => hfield 4 (by decide), fun _ => hfile.inside i hi htype⟩

theorem fits (hi : i < ePhnum data) (htype : pType data i = ptLoad) :
    pVaddr data i + pMemsz data i < wordMod :=
  Nat.lt_of_le_of_lt (hfile.user i hi htype).2 (by decide)

theorem harmless (hi : i < ePhnum data) : Harmless m data i := by
  refine ⟨hfile.phdrField_inside hi (by decide), fun hload => (hfile.readable hi hload).memsz,
    fun hload _ => ⟨(hfile.readable hi hload).flags, (hfile.readable hi hload).vaddr⟩,
    fun hload _ => ?_⟩
  have hread := hfile.readable hi hload
  have hfits := hfile.fits hi hload
  refine ⟨hfits, hread.filesz, fun hne => ⟨hread.offset hne, hread.bytes hne, fun n hn => ?_⟩⟩
  rw [pagesBefore_succ, segmentPages_of_load hload, addW_of_lt hfits]
  exact List.mem_append_right _
    (within_pagesFrom (hfile.aligned i hi hload) (hfile.filesz i hi hload) hfits n hn)

theorem exists_pages : ∃ ps : List Page, pagesBefore data (ePhnum data) = ps.map Subtype.val := by
  have hlift : ∀ va ∈ pagesBefore data (ePhnum data), va % pageSize = 0 ∧ va < 0xFFC00000 := by
    intro va hva
    obtain ⟨i, hi, hva⟩ := List.mem_flatMap.mp hva
    rw [List.mem_range] at hi
    by_cases htype : pType data i = ptLoad
    · have huser := (hfile.user i hi htype).2
      have halign := hfile.aligned i hi htype
      rw [segmentPages_of_load htype, addW_of_lt (hfile.fits hi htype), pagesFrom,
        List.mem_map] at hva
      obtain ⟨k, hk, rfl⟩ := hva
      rw [List.mem_range] at hk
      unfold pageSize userEnd at *
      omega
    · rw [segmentPages_of_not htype] at hva
      cases hva
  generalize pagesBefore data (ePhnum data) = pages at hlift ⊢
  lift pages to List Page using hlift
  exact ⟨pages, rfl⟩

/-- No check fails. -/
theorem passes (hi : i < ePhnum data) : Passes m data i := by
  intro htype
  obtain ⟨hstart, hstop⟩ := hfile.user i hi htype
  refine ⟨⟨Nat.ne_of_gt (hfile.memsz i hi htype), hstart, ?_⟩, ?_⟩
  · rwa [addW_of_lt (hfile.fits hi htype)]
  obtain ⟨rest, hrest⟩ : ∃ rest, pagesBefore data (ePhnum data) = pagesBefore data (i + 1) ++ rest :=
    pagesBefore_le (Nat.succ_le_of_lt hi)
  obtain ⟨all, hall⟩ := hfile.exists_pages
  have hdisjoint := hfile.disjoint
  have hframes := hfile.frames
  rw [hrest] at hdisjoint hframes hall
  obtain ⟨ps, ps', -, hps, -⟩ := List.map_eq_append_iff.mp hall.symm
  refine ⟨ps, hps.symm, ⟨?_, fun page hp => hfile.unmapped page ?_⟩,
    Pmm.provides_mono framesNeeded_le_append hframes⟩
  · rw [← hps] at hdisjoint
    exact (List.Nodup.of_append_left hdisjoint).of_map _
  · rw [hrest, ← hps]
    exact List.mem_append_left _ (List.mem_map_of_mem hp)

/-- **The file is loaded.** -/
theorem exists_loadFile (h : Usable m) :
    ∃ m' ps, loadFile m data = .ok (m', eEntry data) ∧
      pagesBefore data (ePhnum data) = ps.map Subtype.val ∧ Populates m ps m' ∧
      ∀ i < ePhnum data, pType data i = ptLoad → Shows m' data i := by
  obtain ⟨s, hloop⟩ := exists_loop (.start h data) fun k hk =>
    ⟨hfile.passes (Nat.zero_add (ePhnum data) ▸ hk), hfile.harmless (Nat.zero_add (ePhnum data) ▸ hk)⟩
  rw [← List.range_eq_range'] at hloop
  have hload : loadFile m data = .ok (s.machine, eEntry data) := by
    rw [loadFile, header_forM_eq_ok (u := ()) |>.mpr hfile.header, ok_bind, hloop]
    rfl
  have hsegments : ∀ {P : Phdr → Prop}, (∀ i < ePhnum data, pType data i = ptLoad →
      P (.ofFile data i)) → ∀ phdr ∈ (Elf.ofFile data).phdrs, phdr.type = ptLoad → P phdr := by
    intro P hall phdr hphdr htype
    obtain ⟨i, hi, rfl⟩ := List.mem_map.mp hphdr
    exact hall i (List.mem_range.mp hi) htype
  obtain ⟨-, ps, -, hloads⟩ := loads_of_foldlM h (hsegments fun i hi => hfile.fits hi)
    (hsegments hfile.filesz) (loadElf_eq_ok (loadElf_of_loadFile hload)).2.1
  refine ⟨s.machine, ps, hload, segmentPages_of_phdrs ▸ hloads.pages, hloads.populates,
    fun i hi htype => ?_⟩
  exact hloads.shows hi htype (hfile.aligned i hi htype) (hfile.fits hi htype)

end Loadable

/-- **The image of a program.** Each segment is at its place, and the pages of a segment are the
user's, writable if the segment is. No other page of the program has changed. -/
theorem load_image (h : Sound m) (hfile : Loadable m data) :
    ∃ m', loadFile m data = .ok (m', eEntry data) ∧
      (∀ i < ePhnum data, pType data i = ptLoad →
        (∀ k < pMemsz data i, m'.byteAt (pVaddr data i + k) =
          some (if k < pFilesz data i then fileBytes data (pOffset data i) k else 0)) ∧
        ∀ page : Page, page.1 ∈ segmentPages data i → ∃ p, m'.space page = some p ∧
          p.2 &&& vmmPageUser ≠ 0 ∧
          (p.2 &&& vmmPageWritable ≠ 0 ↔ BitVec.ofNat 32 (pFlags data i) &&& pfW ≠ 0) ∧
          (Open (m.mem m.cr3 (dirIndex page.1)) → Open (m'.mem m'.cr3 (dirIndex page.1)))) ∧
      ∀ page : Page, page.1 < kernelStart → page.1 ∉ pagesBefore data (ePhnum data) →
        m'.space page = m.space page ∧
          ∀ b < pageSize, m'.byteAt (page.1 + b) = m.byteAt (page.1 + b) := by
  obtain ⟨m', ps, hload, hps, hpop, hshows⟩ := hfile.exists_loadFile h.toUsable
  refine ⟨m', hload, fun i hi htype => ⟨(hshows i hi htype).bytes, fun page hmem => ?_⟩,
    fun page huser hmem => ?_⟩
  · obtain ⟨f, hspace, -⟩ := (hshows i hi htype).pages page hmem
    obtain ⟨huser, hwritable⟩ := segmentFlags_user (BitVec.ofNat 32 (pFlags data i))
    exact ⟨_, hspace, huser, hwritable, hpop.pde _⟩
  · have hp : page ∉ ps := by
      rwa [hps, List.mem_map_of_injective Subtype.val_injective] at hmem
    refine ⟨hpop.others page hp, fun b hb => ?_⟩
    have hpage : (page.1 + b) / pageSize * pageSize = page.1 := by
      have halign := page.2.1
      unfold pageSize at *
      omega
    cases hspace : m.space page with
    | some p => exact hpop.byteAt_eq hp hspace (h.pages page huser p hspace) hpage
    | none =>
      have htr : ∀ {m : Machine}, m.space page = none →
          translate m.mem m.cr3 (page.1 + b) = none := by
        intro m hnone
        rw [translate_page, hpage, translate_eq_lookup]
        rw [Machine.space, Option.map_eq_none_iff] at hnone
        rw [hnone]
        rfl
      rw [Machine.byteAt, Machine.byteAt, htr hspace, htr ((hpop.others page hp).trans hspace)]
      rfl

theorem lastFrame_sound : Sound lastFrame where
  toUsable := lastFrame_usable
  pages page _ p hspace := by
    obtain ⟨t, ht, hpresent, -⟩ := exists_of_space hspace
    rw [show lastFrame.cr3 = 0x1000 from rfl, lastFrame_pde, if_neg page.dirIndex_ne] at ht
    split at ht
    · cases ht
      have hzero : lastFrame.mem 0x2000 (tableIndex page.1) = 0 := by simp [lastFrame]
      rw [hzero] at hpresent
      exact absurd hpresent not_present_zero
    · cases ht

theorem smallFile_pages : pagesBefore smallFile (ePhnum smallFile) = [0x400000] := by decide +kernel

/-- The file can be loaded where its page and the frames for it are free. -/
theorem loadable_smallFile (hnone : m.space ⟨0x400000, by decide⟩ = none)
    (hframes : Pmm.provides (framesNeeded m [0x400000]) m.regions = true) :
    Loadable m smallFile where
  size := by decide
  header := by decide +kernel
  phdrs := by decide +kernel
  memsz := by decide +kernel
  user := by decide +kernel
  aligned := by decide +kernel
  disjoint := by decide +kernel
  unmapped page hmem := by
    rw [smallFile_pages, List.mem_singleton] at hmem
    have hpage : page = ⟨0x400000, by decide⟩ := Subtype.ext hmem
    rw [hpage, hnone]
  filesz := by decide +kernel
  inside := by decide +kernel
  frames := by rwa [smallFile_pages]

theorem smallFile_loadable : Loadable lastFrame smallFile :=
  loadable_smallFile (by decide +kernel) (by decide +kernel)

theorem smallFile_image : ∃ m', loadFile lastFrame smallFile = .ok (m', 0x400000) ∧
    m'.byteAt 0x400001 = some 0x80 ∧ m'.byteAt 0x400002 = some 0 := by
  obtain ⟨m', hload, hsegments, -⟩ := load_image lastFrame_sound smallFile_loadable
  obtain ⟨hbytes, -⟩ := hsegments 0 (by decide +kernel) (by decide +kernel)
  have hentry : eEntry smallFile = 0x400000 := by decide +kernel
  have hvaddr : pVaddr smallFile 0 = 0x400000 := by decide +kernel
  have hone := hbytes 1 (by decide +kernel)
  have htwo := hbytes 2 (by decide +kernel)
  rw [hvaddr] at hone htwo
  refine ⟨m', hentry ▸ hload, hone.trans ?_, htwo.trans ?_⟩
  · decide +kernel
  · decide +kernel

end Rastapopoulos.Vmm
