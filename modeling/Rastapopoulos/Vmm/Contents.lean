import Rastapopoulos.Elf.File

/-!
# What new pages hold

Neither `syscall_mmap_handler` nor `load_elf` clears the frames that it takes: a page of a request
holds what its frame held when it was last in use, and so does what is left of the last page of a
segment behind its `p_memsz` bytes.
-/

namespace Rastapopoulos.Vmm

open Paging
open KernelHeap (pageSize)

variable {m m' m₁ m₂ : Machine} {phdr : Phdr} {l : List Phdr} {flags : BitVec 32}
  {addr size a f : ℕ} {page : Page} {ps ps' : List Page}

/-! ## New pages -/

/-- There were frames for the pages. -/
theorem Populates.supply (h : Populates m ps m') :
    Pmm.provides (framesNeeded m (ps.map Subtype.val)) m.regions = true := by
  have hsupply := h.supply_append []
  rw [List.append_nil, framesNeeded_nil] at hsupply
  exact hsupply

/-- What is in a new page. -/
theorem Populates.byteAt_new (h : Populates m ps m') (hkeeps : KeepsData m m') (hp : page ∈ ps)
    (ha : a / pageSize * pageSize = page.1) : ∃ p, m'.space page = some p ∧ Free m.regions p.1 ∧
      m'.byteAt a = some (m.mem.byte p.1 (a % pageSize)) := by
  obtain ⟨p, hspace, hfree, hsettled⟩ := h.mapped page hp
  refine ⟨p, hspace, hfree, ?_⟩
  rw [Machine.byteAt, translate_page, ha, translate_of_space hspace, Option.map_some, Memory.byte,
    Memory.byte, (hkeeps p.1 hsettled.leaf).2]

/-- What is in a page that was there. -/
theorem Populates.byteAt_eq {p : ℕ × BitVec 32} {a : ℕ} (h : Populates m ps m') (hp : page ∉ ps)
    (hspace : m.space page = some p) (hsettled : Settled m p.1)
    (ha : a / pageSize * pageSize = page.1) : m'.byteAt a = m.byteAt a := by
  have htr : translate m.mem m.cr3 a = some p.1 := by
    rw [translate_page, ha, translate_of_space hspace]
  have htr' : translate m'.mem m'.cr3 a = some p.1 := by
    rw [translate_page, ha, translate_of_space ((h.others page hp).trans hspace)]
  rw [Machine.byteAt, Machine.byteAt, htr, htr', Option.map_some, Option.map_some, Memory.byte,
    Memory.byte, (h.settled _ hsettled).1]

/-- Whether there is a byte at an address. -/
theorem byteAt_eq_none_iff (ha : a / pageSize * pageSize = page.1) :
    m.byteAt a = none ↔ m.space page = none := by
  rw [Machine.byteAt, Option.map_eq_none_iff, translate_page, ha]
  constructor
  · intro htr
    cases hspace : m.space page with
    | none => rfl
    | some p =>
      rw [translate_of_space hspace] at htr
      cases htr
  · intro hspace
    rw [translate_eq_lookup]
    rw [Machine.space, Option.map_eq_none_iff] at hspace
    rw [hspace]
    rfl

/-- A frame that can be allocated is not a page table. -/
theorem Usable.leaf_of_free (h : Usable m) (hf : Free m.regions f) : Leaf m f := by
  have htables : ∀ d, target (m.mem m.cr3 d) ≠ some f := fun d hd => hf.2 (h.tables d f hd hf.1)
  exact ⟨fun heq => htables 1023 (heq ▸ h.distinct.self), htables⟩

/-! ## Requests -/

/-- A request that gives pages to the program. -/
structure Granted (m : Machine) (addr size : ℕ) (flags : BitVec 32) : Prop where
  accepted : Accepted m addr size flags
  pages : requested addr size ≠ []
  frames : Pmm.provides (framesNeeded m (requested addr size)) m.regions = true

/-- **All others** leave the address space as it is. -/
theorem space_of_not_granted {result : ℕ} (h : Usable m) (hnot : ¬ Granted m addr size flags)
    (hok : syscallMmapHandler m addr size flags = .ok (m', result)) : m'.space = m.space := by
  rcases syscallMmapHandler_cases h.toRunning with ⟨-, heq⟩ | ⟨hacc, heq⟩
  · cases heq.symm.trans hok
    rfl
  · obtain ⟨ps, hps, hunmapped, -⟩ := hacc.unmapped h.toRunning
    simp only [heq, hps, bind_eq_ok, Prod.exists, pure_inj, Prod.mk.injEq] at hok
    obtain ⟨_, mapped, hloop, rfl, -⟩ := hok
    cases mapped with
    | true =>
      have hframes := supply_of_mmapPages mmapFlags_lt mmapFlags_present h hunmapped hloop
      rw [← hps] at hframes
      have hnil : requested addr size = [] := by
        by_contra hne
        exact hnot ⟨hacc, hne, hframes⟩
      rw [hps] at hnil
      rw [hnil] at hloop
      cases hloop
      rfl
    | false =>
      have hloop' : mmapPages (mmapFlags flags) m (([] : List Page).map Subtype.val)
          (ps.map Subtype.val) = .ok (_, false) := hloop
      rw [(mmapPages_false mmapFlags_lt mmapFlags_present h hunmapped hloop').1]
      funext page
      exact if_neg List.not_mem_nil

/-! ## Segments -/

/-- The pages of a segment. -/
def Phdr.pages (phdr : Phdr) : List ℕ :=
  if phdr.type = ptLoad then pagesFrom phdr.vaddr (addW phdr.vaddr phdr.memsz) else []

/-- What `load_elf` stores at an address: the bytes of the file, with zeros behind them. -/
def Phdr.byte (phdr : Phdr) (a : ℕ) : Option (BitVec 8) :=
  if phdr.vaddr ≤ a ∧ a < phdr.vaddr + phdr.filesz then some (phdr.data (a - phdr.vaddr))
  else if phdr.vaddr ≤ a ∧ a < phdr.vaddr + phdr.memsz then some 0
  else none

theorem Phdr.byte_add {k : ℕ} (hk : k < phdr.memsz) :
    phdr.byte (phdr.vaddr + k) = some (if k < phdr.filesz then phdr.data k else 0) := by
  have hzeros : phdr.vaddr ≤ phdr.vaddr + k ∧ phdr.vaddr + k < phdr.vaddr + phdr.memsz := by omega
  rw [Phdr.byte, Nat.add_sub_cancel_left, if_pos hzeros]
  by_cases hfile : k < phdr.filesz
  · rw [if_pos (by omega), if_pos hfile]
  · rw [if_neg (by omega), if_neg hfile]

/-- A segment that is in the user's half, and not longer in the file than in memory. -/
structure Phdr.Placed (phdr : Phdr) : Prop where
  memsz : phdr.memsz ≠ 0
  start : userStart ≤ phdr.vaddr
  stop : phdr.vaddr + phdr.memsz ≤ userEnd
  filesz : phdr.filesz ≤ phdr.memsz

/-- Segments have been loaded: their pages are new, and they hold what has been stored, and behind it
what their frames held. -/
structure Loads (m : Machine) (l : List Phdr) (ps : List Page) (m' : Machine) : Prop where
  pages : l.flatMap Phdr.pages = ps.map Subtype.val
  populates : Populates m ps m'
  bytes : ∀ phdr ∈ l, ∀ a, a / pageSize * pageSize ∈ phdr.pages → ∃ f, Free m.regions f ∧
    m'.byteAt a = some ((phdr.byte a).getD (m.mem.byte f (a % pageSize)))
  flags : ∀ phdr ∈ l, ∀ page : Page, page.1 ∈ phdr.pages →
    (m'.space page).map Prod.snd = some (segmentFlags phdr.flags)
  /-- Frames that are still free are as they were. -/
  free : ∀ f, Free m'.regions f → m'.mem f = m.mem f

theorem loadSegment_of_load (htype : phdr.type = ptLoad) : loadSegment m phdr = (do
    check (phdr.memsz ≠ 0) .assertion
    check (userStart ≤ phdr.vaddr) .assertion
    check (addW phdr.vaddr phdr.memsz ≤ userEnd) .assertion
    let m ← phdr.pages.foldlM heapGrow m
    let m ← store m phdr.vaddr phdr.memsz fun _ => 0
    let m ← store m phdr.vaddr phdr.filesz phdr.data
    phdr.pages.foldlM (fun m page => vmmRemap m page (segmentFlags phdr.flags)) m) := by
  rw [loadSegment, if_pos htype, Phdr.pages, if_pos htype]
  rfl

section Segment

variable (hplaced : phdr.Placed) (htype : phdr.type = ptLoad)

include hplaced htype

theorem Phdr.Placed.pages_eq : phdr.pages = pagesFrom phdr.vaddr (phdr.vaddr + phdr.memsz) := by
  rw [Phdr.pages, if_pos htype, addW_of_lt (Nat.lt_of_le_of_lt hplaced.stop (by decide))]

theorem Phdr.Placed.aligned (hpages : ∀ va ∈ phdr.pages, va % pageSize = 0) :
    phdr.vaddr % pageSize = 0 := by
  refine hpages _ ?_
  rw [hplaced.pages_eq htype]
  refine List.mem_map.mpr ⟨0, List.mem_range.mpr ?_, by rw [Nat.zero_mul, Nat.add_zero]⟩
  have hmemsz := hplaced.memsz
  unfold pageSize
  omega

/-- **A segment is loaded.** -/
theorem exists_loads_segment (h : Usable m) (hpages : phdr.pages = ps.map Subtype.val)
    (hunmapped : Unmapped m ps)
    (hframes : Pmm.provides (framesNeeded m (ps.map Subtype.val)) m.regions = true) :
    ∃ m', loadSegment m phdr = .ok m' ∧ Loads m [phdr] ps m' := by
  have hlt : phdr.vaddr + phdr.memsz < wordMod := Nat.lt_of_le_of_lt hplaced.stop (by decide)
  have halign : phdr.vaddr % pageSize = 0 := hplaced.aligned htype fun va hva => by
    rw [hpages] at hva
    obtain ⟨page, -, rfl⟩ := List.mem_map.mp hva
    exact page.2.1
  have hin : ∀ len ≤ phdr.memsz, Within (ps.map Subtype.val) phdr.vaddr len := fun len hle => by
    rw [← hpages, hplaced.pages_eq htype]
    exact within_pagesFrom halign hle hlt
  obtain ⟨m₁, hloop⟩ : ∃ m₁, mmapPages loadFlags m [] (ps.map Subtype.val) = .ok (m₁, true) :=
    mmapPages_of_supply (by decide) (by decide) h hunmapped hframes
  obtain ⟨hpop, hkeeps, -⟩ := populates_of_mmapPages (by decide) (by decide) h hunmapped hloop
  have hmap : (ps.map Subtype.val).foldlM heapGrow m = .ok m₁ := foldlM_heapGrow_iff.mpr hloop
  obtain ⟨hzero, hcopy, hpop₂, hpop₃, m₄, hremap, hpop₄, hremaps⟩ :=
    hpop.exists_finish (fun _ => 0) phdr.data (fun _ hp => hp) (hin _ le_rfl)
      (hin _ hplaced.filesz) (segmentFlags_lt phdr.flags) (segmentFlags_present _)
  -- the stores are to the new frames
  have hstored : Touches (m₁.framesOf ps) m₁ (m₁.filled phdr.vaddr phdr.memsz fun _ => 0) :=
    (hpop.store (hin _ le_rfl)).2
  have htouches : Touches (m₁.framesOf ps) m₁
      ((m₁.filled phdr.vaddr phdr.memsz fun _ => 0).filled phdr.vaddr phdr.filesz phdr.data) := by
    refine hstored.trans ?_
    have hframes : (m₁.filled phdr.vaddr phdr.memsz fun _ => 0).framesOf ps = m₁.framesOf ps := by
      rw [Machine.framesOf, Machine.framesOf, hstored.space]
    rw [← hframes]
    exact (hpop₂.store (hin _ hplaced.filesz)).2
  refine ⟨m₄, ?_, by simpa using hpages, hpop₄, fun phdr' hphdr a hmem => ?_,
    fun phdr' hphdr page hmem => ?_, fun f hf => ?_⟩
  · rw [loadSegment_of_load htype, check_of _ hplaced.memsz, ok_bind, check_of _ hplaced.start,
      ok_bind, addW_of_lt hlt, check_of _ hplaced.stop, ok_bind, hpages, hmap, ok_bind, hzero,
      ok_bind, hcopy, ok_bind]
    exact hremap
  · obtain rfl := List.mem_singleton.mp hphdr
    rw [hpages] at hmem
    obtain ⟨page, hp, ha⟩ := List.mem_map.mp hmem
    obtain ⟨p, hspace, hfree, hbyte⟩ := hpop.byteAt_new hkeeps hp ha.symm
    have hspace₃ := (congrFun htouches.space page).trans hspace
    have hleaf := (hpop₃.of_mem_framesOf ⟨page, hp, p, hspace₃, rfl⟩).2
    have hword : a < wordMod := by
      have hpage := page.2.2
      unfold pageSize wordMod at *
      omega
    have hle : phdr'.vaddr + phdr'.filesz ≤ wordMod :=
      (Nat.add_le_add_left hplaced.filesz _).trans hlt.le
    refine ⟨p.1, hfree, ?_⟩
    rw [hremaps.byteAt_eq hspace₃ hleaf ha.symm,
      hpop₂.byteAt_store (hin _ hplaced.filesz) hle hword hmem,
      hpop.byteAt_store (hin _ le_rfl) hlt.le hword hmem, hbyte, Phdr.byte]
    split
    · rfl
    · split <;> rfl
  · obtain rfl := List.mem_singleton.mp hphdr
    rw [hpages, List.mem_map_of_injective Subtype.val_injective] at hmem
    obtain ⟨p, hspace, -⟩ := hpop₃.mapped page hmem
    rw [hremaps.space, if_pos hmem, hspace]
    rfl
  · have hfree : Free m₁.regions f := by
      rw [hremaps.regions, htouches.regions] at hf
      exact hf
    have hleaf := hpop.usable.leaf_of_free hfree
    have hout : f ∉ m₁.framesOf ps := by
      rintro ⟨page, hp, p, hspace, rfl⟩
      obtain ⟨p', hspace', -, hsettled⟩ := hpop.mapped page hp
      obtain rfl := Option.some.inj (hspace.symm.trans hspace')
      exact hsettled.2.2 hfree
    rw [hremaps.leaf f (htouches.leaf_iff.mpr hleaf), htouches.same f hout, (hkeeps f hleaf).2]

end Segment

theorem loads_of_not_load (h : Usable m) (htype : phdr.type ≠ ptLoad) :
    loadSegment m phdr = .ok m ∧ Loads m [phdr] [] m := by
  have hpages : phdr.pages = [] := if_neg htype
  have hnone : ∀ phdr' ∈ [phdr], ∀ va, va ∉ phdr'.pages := fun phdr' hphdr va hva => by
    rw [List.mem_singleton.mp hphdr, hpages] at hva
    cases hva
  exact ⟨if_neg htype, by simp [hpages], .refl h, fun phdr' hphdr a ha => absurd ha (hnone _ hphdr _),
    fun phdr' hphdr page hp => absurd hp (hnone _ hphdr _), fun _ _ => rfl⟩

/-- **What a segment that has been loaded was like.** -/
theorem loads_of_loadSegment (h : Usable m)
    (hfits : phdr.type = ptLoad → phdr.vaddr + phdr.memsz < wordMod)
    (hfilesz : phdr.type = ptLoad → phdr.filesz ≤ phdr.memsz)
    (hok : loadSegment m phdr = .ok m') : (phdr.type = ptLoad → phdr.Placed) ∧
      ∃ ps, Unmapped m ps ∧ Loads m [phdr] ps m' := by
  by_cases htype : phdr.type = ptLoad
  · have hsteps := hok
    simp only [loadSegment_of_load htype, bind_eq_ok, check_eq_ok, addW_of_lt (hfits htype)]
      at hsteps
    obtain ⟨-, hmemsz, -, hstart, -, hstop, m₁, hmap, -⟩ := hsteps
    have hplaced : phdr.Placed := ⟨hmemsz, hstart, hstop, hfilesz htype⟩
    have hbound : ∀ va ∈ phdr.pages, va < 0xFFC00000 := fun va hva => by
      rw [hplaced.pages_eq htype] at hva
      exact (lt_of_mem_pagesFrom hva).trans_le (hstop.trans (by decide))
    obtain ⟨ps, hpages, hunmapped, hpop⟩ := populates_of_foldlM h hbound hmap
    obtain ⟨m'', hok', hloads⟩ := exists_loads_segment hplaced htype h hpages hunmapped hpop.supply
    cases hok.symm.trans hok'
    exact ⟨fun _ => hplaced, ps, hunmapped, hloads⟩
  · obtain ⟨hskip, hloads⟩ := loads_of_not_load h htype
    cases hskip.symm.trans hok
    exact ⟨fun hload => absurd hload htype, [], ⟨List.nodup_nil, fun _ hp => by cases hp⟩, hloads⟩

/-! ## Files -/

theorem loadElf_eq_ok {elf : Elf} {entry : ℕ} (h : loadElf m elf = .ok (m', entry)) :
    elf.header = true ∧ elf.phdrs.foldlM loadSegment m = .ok m' ∧ entry = elf.entry := by
  simp only [loadElf, bind_eq_ok, check_eq_ok, pure_inj, Prod.mk.injEq] at h
  obtain ⟨-, hheader, m₁, hok, rfl, rfl⟩ := h
  exact ⟨hheader, hok, rfl⟩

theorem Loads.exists_page {va : ℕ} (h : Loads m l ps m') (hphdr : phdr ∈ l) (hva : va ∈ phdr.pages) :
    ∃ page ∈ ps, page.1 = va :=
  List.mem_map.mp (h.pages ▸ List.mem_flatMap.mpr ⟨phdr, hphdr, hva⟩)

theorem Loads.refl (h : Usable m) : Loads m [] [] m :=
  ⟨rfl, .refl h, List.forall_mem_nil _, List.forall_mem_nil _, fun _ _ => rfl⟩

/-- Segments that are loaded later leave the pages of the others as they are. -/
theorem Loads.trans {l' : List Phdr} (h : Loads m l ps m₁) (h' : Loads m₁ l' ps' m')
    (hdisjoint : ∀ page ∈ ps, page ∉ ps') : Loads m (l ++ l') (ps ++ ps') m' where
  pages := by rw [List.flatMap_append, h.pages, h'.pages, List.map_append]
  populates := h.populates.trans h'.populates hdisjoint
  bytes phdr hphdr a hmem := by
    rcases List.mem_append.mp hphdr with hphdr | hphdr
    · obtain ⟨f, hfree, hbyte⟩ := h.bytes phdr hphdr a hmem
      obtain ⟨page, hp, ha⟩ := h.exists_page hphdr hmem
      obtain ⟨p, hspace, -, hsettled⟩ := h.populates.mapped page hp
      have hsame : m'.byteAt a = m₁.byteAt a :=
        h'.populates.byteAt_eq (hdisjoint page hp) hspace hsettled ha.symm
      exact ⟨f, hfree, hsame.trans hbyte⟩
    · obtain ⟨f, hfree, hbyte⟩ := h'.bytes phdr hphdr a hmem
      refine ⟨f, h.populates.free f hfree, ?_⟩
      rw [hbyte, Memory.byte, Memory.byte, h.free f hfree]
  flags phdr hphdr page hmem := by
    rcases List.mem_append.mp hphdr with hphdr | hphdr
    · obtain ⟨page', hp, hpage⟩ := h.exists_page hphdr hmem
      obtain rfl : page' = page := Subtype.ext hpage
      rw [h'.populates.others page' (hdisjoint page' hp)]
      exact h.flags phdr hphdr page' hmem
    · exact h'.flags phdr hphdr page hmem
  free f hf := (h'.free f hf).trans (h.free f (h'.populates.free f hf))

/-- **Segments are loaded** if their pages and the frames for them are free. -/
theorem exists_loads (h : Usable m) (hplaced : ∀ phdr ∈ l, phdr.type = ptLoad → phdr.Placed)
    (hpages : l.flatMap Phdr.pages = ps.map Subtype.val) (hunmapped : Unmapped m ps)
    (hframes : Pmm.provides (framesNeeded m (ps.map Subtype.val)) m.regions = true) :
    ∃ m', l.foldlM loadSegment m = .ok m' ∧ Loads m l ps m' := by
  induction l generalizing m ps with
  | nil =>
    obtain rfl := List.map_eq_nil_iff.mp hpages.symm
    exact ⟨m, rfl, .refl h⟩
  | cons phdr l ih =>
    obtain ⟨hfirst, hplaced⟩ := List.forall_mem_cons.mp hplaced
    rw [List.flatMap_cons] at hpages
    obtain ⟨ps₁, ps₂, rfl, hps₁, hps₂⟩ := List.map_eq_append_iff.mp hpages.symm
    obtain ⟨hnodup₁, hnodup₂, hdisjoint⟩ := List.nodup_append'.mp hunmapped.nodup
    have hunmapped₁ : Unmapped m ps₁ :=
      ⟨hnodup₁, fun page hp => hunmapped.none page (List.mem_append_left _ hp)⟩
    obtain ⟨m₁, hload, hloads⟩ : ∃ m₁, loadSegment m phdr = .ok m₁ ∧ Loads m [phdr] ps₁ m₁ := by
      by_cases htype : phdr.type = ptLoad
      · refine exists_loads_segment (hfirst htype) htype h hps₁.symm hunmapped₁ ?_
        rw [List.map_append] at hframes
        exact Pmm.provides_mono framesNeeded_le_append hframes
      · have hnil : ps₁ = [] := by
          rw [Phdr.pages, if_neg htype] at hps₁
          exact List.map_eq_nil_iff.mp hps₁
        rw [hnil]
        exact ⟨m, loads_of_not_load h htype⟩
    have hunmapped₂ : Unmapped m₁ ps₂ := by
      refine ⟨hnodup₂, fun page hp => ?_⟩
      rw [hloads.populates.others page fun hc => hdisjoint hc hp]
      exact hunmapped.none page (List.mem_append_right _ hp)
    rw [List.map_append, hloads.populates.supply_append] at hframes
    obtain ⟨m', hrest, hloads'⟩ := ih hloads.populates.usable hplaced hps₂.symm hunmapped₂ hframes
    refine ⟨m', ?_, hloads.trans hloads' fun page hp hp' => hdisjoint hp hp'⟩
    rw [List.foldlM_cons, hload, ok_bind, hrest]

/-- **What the segments of a file that has been loaded were like.** -/
theorem loads_of_foldlM (h : Usable m)
    (hfits : ∀ phdr ∈ l, phdr.type = ptLoad → phdr.vaddr + phdr.memsz < wordMod)
    (hfilesz : ∀ phdr ∈ l, phdr.type = ptLoad → phdr.filesz ≤ phdr.memsz)
    (hok : l.foldlM loadSegment m = .ok m') :
    (∀ phdr ∈ l, phdr.type = ptLoad → phdr.Placed) ∧ ∃ ps, Unmapped m ps ∧ Loads m l ps m' := by
  induction l generalizing m with
  | nil =>
    cases hok
    exact ⟨List.forall_mem_nil _, [], ⟨List.nodup_nil, List.forall_mem_nil _⟩, .refl h⟩
  | cons phdr l ih =>
    obtain ⟨hfit, hfits⟩ := List.forall_mem_cons.mp hfits
    obtain ⟨hsize, hfilesz⟩ := List.forall_mem_cons.mp hfilesz
    rw [List.foldlM_cons, bind_eq_ok] at hok
    obtain ⟨m₁, hload, hok⟩ := hok
    obtain ⟨hplaced, ps₁, hunmapped₁, hloads₁⟩ := loads_of_loadSegment h hfit hsize hload
    obtain ⟨hrest, ps₂, hunmapped₂, hloads₂⟩ := ih hloads₁.populates.usable hfits hfilesz hok
    have hdisjoint : ∀ page ∈ ps₁, page ∉ ps₂ := by
      intro page hp hp'
      obtain ⟨p, hspace, -⟩ := hloads₁.populates.mapped page hp
      rw [hunmapped₂.none page hp'] at hspace
      cases hspace
    refine ⟨List.forall_mem_cons.mpr ⟨hplaced, hrest⟩, ps₁ ++ ps₂, ⟨?_, fun page hp => ?_⟩,
      hloads₁.trans hloads₂ hdisjoint⟩
    · exact List.nodup_append'.mpr
        ⟨hunmapped₁.nodup, hunmapped₂.nodup, fun page hp hp' => hdisjoint page hp hp'⟩
    · rcases List.mem_append.mp hp with hp | hp
      · exact hunmapped₁.none page hp
      · rw [← hloads₁.populates.others page fun hc => hdisjoint page hc hp]
        exact hunmapped₂.none page hp

end Rastapopoulos.Vmm
