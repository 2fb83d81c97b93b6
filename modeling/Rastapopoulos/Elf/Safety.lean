import Rastapopoulos.Elf.File

/-!
# Files of any kind

What `load_elf` does with a file that is not well formed. It does not look at the size of the file,
so it may read beyond its end; it computes the end of a segment in 32 bits, so a segment may pass
the checks without having pages; and it copies as many bytes as the file has for the segment, even
if they do not fit into its pages. These are the only ways to go astray: `safe_iff` says for each
file whether one of them is met before a check fails.
-/

namespace Rastapopoulos.Vmm

open Paging
open KernelHeap (pageSize)

variable {m m' : Machine} {data : List (BitVec 8)} {i j n : ℕ} {ps ps' : List Page} {s : Load}

/-! ## Statement -/

/-- A check has failed. -/
def Stop.IsCheck : Stop → Prop
  | .fault e => e.IsCheck
  | .outside | .stray => False

/-- The call returns, or it is stopped by a check: until then it has only read bytes of the file,
and only written to pages that it had mapped. -/
def SafeLoad (m : Machine) (data : List (BitVec 8)) : Prop :=
  ∀ e, loadFile m data = .error e → e.IsCheck

/-- The pages can be mapped one after another: they are pages, different from each other and not
mapped yet, and there are frames for them and for page tables. -/
def Mappable (m : Machine) (pages : List ℕ) : Prop :=
  ∃ ps : List Page, pages = ps.map Subtype.val ∧ Unmapped m ps ∧
    Pmm.provides (framesNeeded m pages) m.regions = true

/-- No check fails on a program header, once none has failed before. -/
def Passes (m : Machine) (data : List (BitVec 8)) (i : ℕ) : Prop :=
  pType data i = ptLoad → Accepts data i ∧ Mappable m (pagesBefore data (i + 1))

/-- A segment whose pages have been mapped can be filled: it does not reach the end of the address
space, its bytes are in the file, and they go to its pages and to those of the segments before
it. -/
structure Fillable (data : List (BitVec 8)) (i : ℕ) : Prop where
  fits : pVaddr data i + pMemsz data i < wordMod
  filesz : Inside data (phdrField data i 16) 4
  bytes : pFilesz data i ≠ 0 → Inside data (phdrField data i 4) 4 ∧
    Inside data (pOffset data i) (pFilesz data i) ∧
      Within (pagesBefore data (i + 1)) (pVaddr data i) (pFilesz data i)

/-- What is read for a program header is in the file, and what is written is in pages of the
call. -/
structure Harmless (m : Machine) (data : List (BitVec 8)) (i : ℕ) : Prop where
  type : Inside data (phdrField data i 0) 4
  memsz : pType data i = ptLoad → Inside data (phdrField data i 20) 4
  fields : pType data i = ptLoad → pMemsz data i ≠ 0 →
    Inside data (phdrField data i 24) 4 ∧ Inside data (phdrField data i 8) 4
  fillable : pType data i = ptLoad → Passes m data i → Fillable data i

/-- The fields of the header that come before a check that fails are in the file. -/
def HeaderInside (data : List (BitVec 8)) : Prop :=
  ∀ before field after, headerFields = before ++ field :: after →
    (∀ field' ∈ before, field'.Passes data) → field.Inside data

/-! ## The header -/

theorem readField_of_not {offset size : ℕ} (h : ¬ Inside data offset size) :
    readField data offset size = .error .outside := by
  rw [readField, check_of_not _ h]
  rfl

theorem header_forM_cases (fields : List HeaderField) :
    ((∀ field ∈ fields, field.Inside data ∧ field.Passes data) ∧
        (forM fields fun field : HeaderField => field.read data) = .ok ()) ∨
      (∃ before field after, fields = before ++ field :: after ∧
        (∀ field' ∈ before, field'.Inside data ∧ field'.Passes data) ∧
        (¬ field.Inside data ∧
            (forM fields fun field : HeaderField => field.read data) = .error .outside ∨
          field.Inside data ∧ ¬ field.Passes data ∧
            (forM fields fun field : HeaderField => field.read data) =
              .error (.fault .assertion))) := by
  induction fields with
  | nil => exact .inl ⟨List.forall_mem_nil _, rfl⟩
  | cons field fields ih =>
    by_cases hinside : field.Inside data
    · have hread : readField data field.offset field.size =
          .ok (number data field.offset field.size) := readField_of hinside
      by_cases hpasses : field.Passes data
      · have hone : field.read data = .ok () := header_read_eq_ok.mpr ⟨hinside, hpasses⟩
        have hcons : (forM (field :: fields) fun field : HeaderField => field.read data) =
            forM fields fun field : HeaderField => field.read data := by
          rw [List.forM_cons, hone, ok_bind]
        rw [hcons]
        rcases ih with ⟨hall, hok⟩ | ⟨before, field', after, rfl, hbefore, hfield⟩
        · exact .inl ⟨List.forall_mem_cons.mpr ⟨⟨hinside, hpasses⟩, hall⟩, hok⟩
        · exact .inr ⟨field :: before, field', after, rfl,
            List.forall_mem_cons.mpr ⟨⟨hinside, hpasses⟩, hbefore⟩, hfield⟩
      · refine .inr ⟨[], field, fields, rfl, List.forall_mem_nil _, .inr ⟨hinside, hpasses, ?_⟩⟩
        have hcheck : check (field.holds (number data field.offset field.size) = true)
            (Stop.fault .assertion) = .error (.fault .assertion) := check_of_not _ hpasses
        rw [List.forM_cons, HeaderField.read, hread, ok_bind, hcheck]
        rfl
    · refine .inr ⟨[], field, fields, rfl, List.forall_mem_nil _, .inl ⟨hinside, ?_⟩⟩
      rw [List.forM_cons, HeaderField.read, readField_of_not hinside]
      rfl

/-! ## One program header -/

/-- The pages of the segments before `i` have been mapped. -/
structure Standing (m : Machine) (data : List (BitVec 8)) (i : ℕ) (s : Load) (ps : List Page) :
    Prop where
  pages : pagesBefore data i = ps.map Subtype.val
  own : s.own = pagesBefore data i
  unmapped : Unmapped m ps
  populates : Populates m ps s.machine

namespace Standing

theorem start (h : Usable m) (data : List (BitVec 8)) : Standing m data 0 ⟨m, []⟩ [] :=
  ⟨rfl, rfl, ⟨List.nodup_nil, List.forall_mem_nil _⟩, .refl h⟩

variable (h : Standing m data i s ps)

include h

theorem pages_succ (hps' : segmentPages data i = ps'.map Subtype.val) :
    pagesBefore data (i + 1) = (ps ++ ps').map Subtype.val := by
  rw [pagesBefore_succ, h.pages, hps', List.map_append]

/-- **The pages of the next segment are mapped** exactly if they can be. -/
theorem map_cases (hbound : ∀ va ∈ segmentPages data i, va < 0xFFC00000) :
    (∃ m₁ ps', (segmentPages data i).foldlM heapGrow s.machine = .ok m₁ ∧
        segmentPages data i = ps'.map Subtype.val ∧ Unmapped m (ps ++ ps') ∧
        Populates m (ps ++ ps') m₁ ∧ Mappable m (pagesBefore data (i + 1))) ∨
      (¬ Mappable m (pagesBefore data (i + 1)) ∧
        ∃ e, (segmentPages data i).foldlM heapGrow s.machine = .error e ∧ e.IsCheck) := by
  cases hmap : (segmentPages data i).foldlM heapGrow s.machine with
  | ok m₁ =>
    obtain ⟨ps', hps', hunmapped, hpop⟩ := populates_of_foldlM h.populates.usable hbound hmap
    have hdisjoint : ∀ page ∈ ps, page ∉ ps' := by
      intro page hp hp'
      obtain ⟨p, hspace, -⟩ := h.populates.mapped page hp
      rw [hunmapped.none page hp'] at hspace
      cases hspace
    have hall : Unmapped m (ps ++ ps') := by
      refine ⟨List.nodup_append'.mpr ⟨h.unmapped.nodup, hunmapped.nodup, fun {page} hp hp' =>
        hdisjoint page hp hp'⟩, fun page hp => ?_⟩
      rcases List.mem_append.mp hp with hp | hp
      · exact h.unmapped.none page hp
      · rw [← h.populates.others page fun hc => hdisjoint page hc hp]
        exact hunmapped.none page hp
    have hboth := h.populates.trans hpop hdisjoint
    have hpages := h.pages_succ hps'
    refine .inl ⟨m₁, ps', rfl, hps', hall, hboth, ps ++ ps', hpages, hall, ?_⟩
    have hsupply := hboth.pays.supply 0
    rw [Nat.zero_add, Nat.add_zero, ← hpages] at hsupply
    rw [hsupply]
    rfl
  | error e =>
    refine .inr ⟨?_, e, rfl, foldlM_heapGrow_isCheck h.populates.usable hbound hmap⟩
    rintro ⟨all, hall, hunmapped, hsupply⟩
    rw [pagesBefore_succ, h.pages] at hall hsupply
    obtain ⟨ps₁, ps', rfl, hps, hps'⟩ := List.map_eq_append_iff.mp hall.symm
    obtain rfl := List.map_injective_iff.mpr Subtype.val_injective hps
    obtain ⟨-, hnodup, hdisjoint⟩ := List.nodup_append'.mp hunmapped.nodup
    have hnext : Unmapped s.machine ps' := by
      refine ⟨hnodup, fun page hp => ?_⟩
      rw [h.populates.others page fun hc => hdisjoint hc hp]
      exact hunmapped.none page (List.mem_append_right _ hp)
    rw [h.populates.supply_append, ← hps'] at hsupply
    obtain ⟨m₁, hok⟩ := exists_foldlM_heapGrow h.populates.usable hnext hsupply
    rw [← hps', hok] at hmap
    cases hmap

end Standing

/-- The bytes of a segment are in its pages, unless it reaches the end of the address space. -/
theorem within_iff_fits (hload : pType data i = ptLoad) (hmemsz : pMemsz data i ≠ 0)
    (hpages : pagesBefore data (i + 1) = ps.map Subtype.val) :
    Within (pagesBefore data (i + 1)) (pVaddr data i) (pMemsz data i) ↔
      pVaddr data i + pMemsz data i < wordMod := by
  have hva : pVaddr data i < wordMod := (ofLeBytes (8 * 4) _).isLt
  constructor
  · intro hin
    by_contra hwrap
    -- the last page of the address space is none that can be mapped
    have hlast : 0xFFFFF ∈ pageNumbers (pVaddr data i) (pMemsz data i) := by
      refine mem_pageNumbers.mpr ⟨0xFFFFFFFF, ?_, ?_, by decide⟩
      all_goals
        unfold wordMod at *
        omega
    have hmem := hin _ hlast
    rw [hpages] at hmem
    obtain ⟨page, -, hpage⟩ := List.mem_map.mp hmem
    have hlt := page.2.2
    rw [hpage] at hlt
    exact absurd hlt (by decide)
  · intro hfits
    have hsegment : ∀ va ∈ segmentPages data i, va ∈ pagesBefore data (i + 1) := fun va hmem => by
      rw [pagesBefore_succ]
      exact List.mem_append_right _ hmem
    rw [segmentPages_of_load hload, addW_of_lt hfits] at hsegment
    have halign : pVaddr data i % pageSize = 0 := by
      have hfirst : pVaddr data i ∈ pagesFrom (pVaddr data i) (pVaddr data i + pMemsz data i) := by
        rw [pagesFrom, List.mem_map]
        refine ⟨0, List.mem_range.mpr ?_, by rw [Nat.zero_mul, Nat.add_zero]⟩
        unfold pageSize
        omega
      have hmem := hsegment _ hfirst
      rw [hpages] at hmem
      obtain ⟨page, -, hpage⟩ := List.mem_map.mp hmem
      rw [← hpage]
      exact page.2.1
    exact fun n hn => hsegment _ (within_pagesFrom halign le_rfl hfits n hn)

theorem copySegment_of_not {own : List ℕ} {va : ℕ} (h : ¬ (pFilesz data i ≠ 0 →
    Inside data (phdrField data i 4) 4 ∧ Inside data (pOffset data i) (pFilesz data i) ∧
      Within own va (pFilesz data i))) :
    ∃ e, copySegment data i own m va (pFilesz data i) = .error e ∧ ¬ e.IsCheck := by
  obtain ⟨hne, h⟩ := Classical.not_imp.mp h
  rw [copySegment, if_pos hne]
  by_cases hoffset : Inside data (phdrField data i 4) 4
  · have hread : readField data (phdrField data i 4) 4 = .ok (pOffset data i) :=
      readField_of hoffset
    rw [hread, ok_bind]
    by_cases hbytes : Inside data (pOffset data i) (pFilesz data i)
    · refine ⟨.stray, ?_, id⟩
      rw [check_of _ hbytes, storeOwn, check_of_not _ fun hin => h ⟨hoffset, hbytes, hin⟩]
      rfl
    · refine ⟨.outside, ?_, id⟩
      rw [check_of_not _ hbytes]
      rfl
  · refine ⟨.outside, ?_, id⟩
    rw [readField_of_not hoffset]
    rfl

/-- **Once its pages are mapped, a segment is filled** exactly if it can be. -/
theorem fillSegment_cases {m₁ : Machine} (hpop : Populates m ps m₁)
    (hpages : pagesBefore data (i + 1) = ps.map Subtype.val)
    (hps' : segmentPages data i = ps'.map Subtype.val) (hload : pType data i = ptLoad)
    (hmemsz : pMemsz data i ≠ 0) :
    (Fillable data i ∧ ∃ m₂, fillSegment data i (pagesBefore data (i + 1)) (segmentPages data i)
        (pVaddr data i) (pMemsz data i) (pFlags data i) m₁ = .ok m₂ ∧ Populates m ps m₂) ∨
      (¬ Fillable data i ∧ ∃ e, fillSegment data i (pagesBefore data (i + 1)) (segmentPages data i)
        (pVaddr data i) (pMemsz data i) (pFlags data i) m₁ = .error e ∧ ¬ e.IsCheck) := by
  have hwithin := within_iff_fits hload hmemsz hpages
  by_cases hfits : pVaddr data i + pMemsz data i < wordMod
  swap
  · refine .inr ⟨fun h => hfits h.fits, .stray, ?_, id⟩
    rw [fillSegment, storeOwn, check_of_not _ (mt hwithin.mp hfits)]
    rfl
  have hin := hwithin.mpr hfits
  have hzero : store m₁ (pVaddr data i) (pMemsz data i) (fun _ => 0) = .ok _ :=
    (hpop.store (hpages ▸ hin)).1
  by_cases hfilesz : Inside data (phdrField data i 16) 4
  swap
  · refine .inr ⟨fun h => hfilesz h.filesz, .outside, ?_, id⟩
    rw [fillSegment, storeOwn_eq_ok.mpr ⟨hin, hzero⟩, readField_of_not hfilesz]
    rfl
  have hread : readField data (phdrField data i 16) 4 = .ok (pFilesz data i) := readField_of hfilesz
  by_cases hbytes : pFilesz data i ≠ 0 → Inside data (phdrField data i 4) 4 ∧
      Inside data (pOffset data i) (pFilesz data i) ∧
        Within (pagesBefore data (i + 1)) (pVaddr data i) (pFilesz data i)
  swap
  · obtain ⟨e, hcopy, he⟩ := copySegment_of_not hbytes
    refine .inr ⟨fun h => hbytes h.bytes, e, ?_, he⟩
    rw [fillSegment, storeOwn_eq_ok.mpr ⟨hin, hzero⟩, ok_bind, hread, ok_bind, hcopy]
    rfl
  have hin' : Within (pagesBefore data (i + 1)) (pVaddr data i) (pFilesz data i) := by
    by_cases hzero : pFilesz data i = 0
    · rw [hzero]
      exact List.forall_mem_nil _
    · exact (hbytes hzero).2.2
  have hsub : ∀ page ∈ ps', page ∈ ps := by
    intro page hp
    have hmem : page.1 ∈ pagesBefore data (i + 1) := by
      rw [pagesBefore_succ, hps']
      exact List.mem_append_right _ (List.mem_map_of_mem hp)
    rwa [hpages, List.mem_map_of_injective Subtype.val_injective] at hmem
  obtain ⟨-, hcopy, -, -, m₂, hremap, hpop', -⟩ :=
    hpop.exists_finish (fun _ => 0) (fileBytes data (pOffset data i)) hsub (hpages ▸ hin)
      (hpages ▸ hin') (segmentFlags_lt (BitVec.ofNat 32 (pFlags data i))) (segmentFlags_present _)
  refine .inl ⟨⟨hfits, hfilesz, hbytes⟩, m₂, ?_, hpop'⟩
  exact fillSegment_of hfilesz (fun hne => (hbytes hne).1) (fun hne => (hbytes hne).2.1) hin hzero
    hin' hcopy (hps' ▸ hremap)

/-- **A program header**: it makes the call read or write where it must not, or a check fails, or
the pages of its segment are added. -/
theorem loadPhdr_cases (h : Standing m data i s ps) :
    (¬ Harmless m data i ∧ ∃ e, loadPhdr data s i = .error e ∧ ¬ e.IsCheck) ∨
      (Harmless m data i ∧ ¬ Passes m data i ∧ ∃ e, loadPhdr data s i = .error e ∧ e.IsCheck) ∨
      (Harmless m data i ∧ Passes m data i ∧
        ∃ s' ps', loadPhdr data s i = .ok s' ∧ Standing m data (i + 1) s' ps') := by
  by_cases htype : Inside data (phdrField data i 0) 4
  swap
  · refine .inl ⟨fun h => htype h.type, .outside, ?_, id⟩
    rw [loadPhdr, readField_of_not htype]
    rfl
  have hreadType : readField data (phdrField data i 0) 4 = .ok (pType data i) := readField_of htype
  by_cases hload : pType data i = ptLoad
  swap
  · refine .inr (.inr ⟨⟨htype, fun hc => absurd hc hload, fun hc => absurd hc hload,
      fun hc => absurd hc hload⟩, fun hc => absurd hc hload, s, ps, ?_, ?_⟩)
    · rw [loadPhdr, hreadType, ok_bind, if_neg hload]
      rfl
    · refine ⟨?_, ?_, h.unmapped, h.populates⟩
      · rw [pagesBefore_succ, segmentPages_of_not hload, List.append_nil, h.pages]
      · rw [pagesBefore_succ, segmentPages_of_not hload, List.append_nil, h.own]
  by_cases hmemsz : Inside data (phdrField data i 20) 4
  swap
  · refine .inl ⟨fun h => hmemsz (h.memsz hload), .outside, ?_, id⟩
    rw [loadPhdr, hreadType, ok_bind, if_pos hload, readField_of_not hmemsz]
    rfl
  have hreadMemsz : readField data (phdrField data i 20) 4 = .ok (pMemsz data i) :=
    readField_of hmemsz
  -- a check that fails before anything is mapped
  have hcheck : ¬ Passes m data i → (pMemsz data i ≠ 0 →
      Inside data (phdrField data i 24) 4 ∧ Inside data (phdrField data i 8) 4) →
      Harmless m data i := fun hpasses hfields =>
    ⟨htype, fun _ => hmemsz, fun _ => hfields, fun _ hc => absurd hc hpasses⟩
  by_cases hzero : pMemsz data i = 0
  · have hpasses : ¬ Passes m data i := fun hc => (hc hload).1.1 hzero
    refine .inr (.inl ⟨hcheck hpasses fun hne => absurd hzero hne, hpasses, .fault .assertion, ?_,
      .inl rfl⟩)
    rw [loadPhdr, hreadType, ok_bind, if_pos hload, hreadMemsz, ok_bind,
      check_of_not _ (not_not.mpr hzero)]
    rfl
  by_cases hfields : Inside data (phdrField data i 24) 4 ∧ Inside data (phdrField data i 8) 4
  swap
  · refine .inl ⟨fun h => hfields (h.fields hload hzero), .outside, ?_, id⟩
    rw [loadPhdr, hreadType, ok_bind, if_pos hload, hreadMemsz, ok_bind, check_of _ hzero]
    by_cases hflags : Inside data (phdrField data i 24) 4
    · rw [readField_of hflags, readField_of_not fun hvaddr => hfields ⟨hflags, hvaddr⟩]
      rfl
    · rw [readField_of_not hflags]
      rfl
  by_cases haccepts : Accepts data i
  swap
  · have hpasses : ¬ Passes m data i := fun hc => haccepts (hc hload).1
    refine .inr (.inl ⟨hcheck hpasses fun _ => hfields, hpasses, .fault .assertion, ?_, .inl rfl⟩)
    have hreadVaddr : readField data (phdrField data i 8) 4 = .ok (pVaddr data i) :=
      readField_of hfields.2
    rw [loadPhdr, hreadType, ok_bind, if_pos hload, hreadMemsz, ok_bind, check_of _ hzero, ok_bind,
      readField_of hfields.1, ok_bind, hreadVaddr, ok_bind]
    by_cases hstart : userStart ≤ pVaddr data i
    · rw [check_of _ hstart, ok_bind, check_of_not _ fun hend => haccepts ⟨hzero, hstart, hend⟩]
      rfl
    · rw [check_of_not _ hstart]
      rfl
  rw [loadPhdr_eq htype hload hmemsz hfields.1 hfields.2 haccepts]
  have hbound : ∀ va ∈ segmentPages data i, va < 0xFFC00000 := fun va hva => by
    rw [segmentPages_of_load hload] at hva
    exact (lt_of_mem_pagesFrom hva).trans (Nat.lt_of_le_of_lt haccepts.2.2 (by decide))
  rcases h.map_cases hbound with
    ⟨m₁, ps', hmap, hps', hunmapped, hpop, hmappable⟩ | ⟨hmappable, e, hmap, he⟩
  · have hpages := h.pages_succ hps'
    have hpasses : Passes m data i := fun _ => ⟨haccepts, hmappable⟩
    rw [h.own, ← pagesBefore_succ, hmap, mapError_ok, ok_bind]
    rcases fillSegment_cases hpop hpages hps' hload hzero with
      ⟨hfillable, m₂, hfill, hpop'⟩ | ⟨hfillable, e, hfill, he⟩
    · rw [hfill]
      exact .inr (.inr ⟨⟨htype, fun _ => hmemsz, fun _ _ => hfields, fun _ _ => hfillable⟩, hpasses,
        _, ps ++ ps', rfl, hpages, rfl, hunmapped, hpop'⟩)
    · rw [hfill]
      exact .inl ⟨fun hc => hfillable (hc.fillable hload hpasses), e, rfl, he⟩
  · have hpasses : ¬ Passes m data i := fun hc => hmappable (hc hload).2
    refine .inr (.inl ⟨hcheck hpasses fun _ => hfields, hpasses, .fault e, ?_, he⟩)
    rw [hmap]
    rfl

/-! ## Whole files -/

theorem loop_safe_iff (h : Standing m data i s ps) (hpasses : ∀ j < i, Passes m data j) (n : ℕ) :
    (∀ e, (List.range' i n).foldlM (loadPhdr data) s = .error e → e.IsCheck) ↔
      ∀ k < i + n, i ≤ k → (∀ j < k, Passes m data j) → Harmless m data k := by
  induction n generalizing i s ps with
  | zero =>
    refine iff_of_true (fun e he => ?_) fun k hk hik => absurd hk (Nat.not_lt.mpr hik)
    cases he
  | succ n ih =>
    rw [List.range'_succ, List.foldlM_cons]
    rcases loadPhdr_cases h with
      ⟨hharm, e, he, hcheck⟩ | ⟨hharm, hstop, e, he, hcheck⟩ | ⟨hharm, hpass, s', ps', hok, h'⟩
    · rw [he]
      refine iff_of_false (fun hall => hcheck (hall e rfl)) fun hall => hharm ?_
      exact hall i (by omega) le_rfl hpasses
    · rw [he]
      refine iff_of_true (fun e' he' => Except.error.inj he' ▸ hcheck) fun k hk hik hall => ?_
      -- no later program header is reached
      obtain rfl : k = i := by
        by_contra hne
        exact hstop (hall i (by omega))
      exact hharm
    · rw [hok, ok_bind, ih h' fun j hj => ?_]
      · constructor
        · intro hall k hk hik hpass'
          by_cases heq : k = i
          · exact heq ▸ hharm
          · exact hall k (by omega) (by omega) hpass'
        · exact fun hall k hk hik hpass' => hall k (by omega) (by omega) hpass'
      · rcases Nat.lt_succ_iff_lt_or_eq.mp hj with hj | rfl
        · exact hpasses j hj
        · exact hpass

/-- **The loop comes to its end** if no check fails and no program header does harm. -/
theorem exists_loop (h : Standing m data i s ps)
    (hall : ∀ k < i + n, Passes m data k ∧ Harmless m data k) :
    ∃ s', (List.range' i n).foldlM (loadPhdr data) s = .ok s' := by
  induction n generalizing i s ps with
  | zero => exact ⟨s, rfl⟩
  | succ n ih =>
    obtain ⟨hpasses, hharm⟩ := hall i (by omega)
    rcases loadPhdr_cases h with ⟨hc, -⟩ | ⟨-, hc, -⟩ | ⟨-, -, s₁, ps₁, hok, h₁⟩
    · exact absurd hharm hc
    · exact absurd hpasses hc
    · rw [List.range'_succ, List.foldlM_cons, hok]
      exact ih h₁ fun k hk => hall k (by omega)

/-- A check that fails comes before all fields behind it. -/
theorem headerInside_of_stop {before after : List HeaderField} {field : HeaderField}
    (hfields : headerFields = before ++ field :: after)
    (hbefore : ∀ field' ∈ before, field'.Inside data) (hinside : field.Inside data)
    (hstop : ¬ field.Passes data) : HeaderInside data := by
  intro before' field' after' heq hpasses
  rw [hfields] at heq
  rcases List.append_eq_append_iff.mp heq with ⟨rest, rfl, hrest⟩ | ⟨rest, rfl, hrest⟩
  · cases rest with
    | nil =>
      exact (List.cons.inj hrest).1 ▸ hinside
    | cons first rest =>
      -- the field that fails would have passed
      have hfirst : field = first := (List.cons.inj hrest).1
      exact absurd (hpasses field (by simp [hfirst])) hstop
  · cases rest with
    | nil =>
      exact (List.cons.inj hrest).1 ▸ hinside
    | cons first rest =>
      have hfirst : field' = first := (List.cons.inj hrest).1
      exact hbefore field' (by simp [hfirst])

/-- **Which files are safe to load.** Those of whose header each field is in the file, up to a check
that fails; and if none does, of whose program headers each one is harmless, up to a check that
fails. -/
theorem safe_iff (h : Usable m) (data : List (BitVec 8)) :
    SafeLoad m data ↔ HeaderInside data ∧
      ((∀ field ∈ headerFields, field.Passes data) →
        ∀ i < ePhnum data, (∀ j < i, Passes m data j) → Harmless m data i) := by
  rcases header_forM_cases headerFields with
    ⟨hall, hok⟩ | ⟨before, field, after, hfields, hbefore, ⟨hinside, herr⟩ | ⟨hinside, hstop, herr⟩⟩
  · have hheader : HeaderInside data := fun before field after heq _ =>
      (hall field (by simp [heq])).1
    have hloop := loop_safe_iff (.start h data) (fun j hj => absurd hj (Nat.not_lt_zero j))
      (ePhnum data)
    rw [← List.range_eq_range', Nat.zero_add] at hloop
    have hload : SafeLoad m data ↔ ∀ e,
        (List.range (ePhnum data)).foldlM (loadPhdr data) ⟨m, []⟩ = .error e → e.IsCheck := by
      refine forall_congr' fun e => ?_
      rw [loadFile, hok, ok_bind]
      cases (List.range (ePhnum data)).foldlM (loadPhdr data) ⟨m, []⟩ with
      | ok s => exact iff_of_true (fun he => by cases he) fun he => by cases he
      | error e' => rw [error_bind, Except.error.injEq, Except.error.injEq]
    rw [hload, hloop]
    constructor
    · exact fun hharm => ⟨hheader, fun _ i hi hpasses => hharm i hi (Nat.zero_le i) hpasses⟩
    · rintro ⟨-, hharm⟩ i hi - hpasses
      exact hharm (fun field hmem => (hall field hmem).2) i hi hpasses
  · refine iff_of_false (fun hsafe => ?_) fun hcond => hinside ?_
    · refine hsafe .outside ?_
      rw [loadFile, herr]
      rfl
    · exact hcond.1 before field after hfields fun field' hmem => (hbefore field' hmem).2
  · refine iff_of_true (fun e he => ?_) ⟨?_, fun hpasses => absurd (hpasses field ?_) hstop⟩
    · rw [loadFile, herr, error_bind, Except.error.injEq] at he
      rw [← he]
      exact .inl rfl
    · exact headerInside_of_stop hfields (fun field' hmem => (hbefore field' hmem).1) hinside hstop
    · simp [hfields]

/-- A file with one segment: two bytes of code, followed by two zeros. -/
def smallFile : List (BitVec 8) :=
  [0x7F, 0x45, 0x4C, 0x46, 1, 1, 1, 0, 0, 0, 0, 0, 0, 0, 0, 0, 2, 0, 3, 0, 1, 0, 0, 0, 0, 0, 0x40, 0,
    0x34, 0, 0, 0, 0, 0, 0, 0, 0, 0, 0, 0, 0x34, 0, 0x20, 0, 1, 0, 0, 0, 0, 0, 0, 0,
    1, 0, 0, 0, 0x54, 0, 0, 0, 0, 0, 0x40, 0, 0, 0, 0, 0, 2, 0, 0, 0, 4, 0, 0, 0, 5, 0, 0, 0,
    0, 0x10, 0, 0, 0xCD, 0x80]

theorem smallFile_safe : Usable lastFrame ∧ SafeLoad lastFrame smallFile := by
  have hheader : ∀ field ∈ headerFields, field.Inside smallFile ∧ field.Passes smallFile := by
    decide +kernel
  refine ⟨lastFrame_usable, (safe_iff lastFrame_usable smallFile).mpr ⟨?_, fun _ i hi _ => ?_⟩⟩
  · exact fun before field after heq _ => (hheader field (by simp [heq])).1
  · have hphnum : ePhnum smallFile = 1 := by decide +kernel
    obtain rfl : i = 0 := by omega
    refine ⟨by decide +kernel, fun _ => by decide +kernel, fun _ _ => by decide +kernel,
      fun _ _ => ⟨by decide +kernel, by decide +kernel, fun _ => by decide +kernel⟩⟩

/-- The file without its last byte. -/
def cutFile : List (BitVec 8) := smallFile.dropLast

/-- The byte behind the end of the file is read. -/
theorem not_safe_cutFile : ¬ ∀ m data, Usable m → SafeLoad m data := by
  intro hall
  have hsafe := hall lastFrame cutFile lastFrame_usable
  have hpages : pagesBefore cutFile (0 + 1) = [0x400000] := by decide +kernel
  have hpage : Unmapped lastFrame [⟨0x400000, by decide⟩] :=
    ⟨List.nodup_singleton _, List.forall_mem_singleton.mpr (by decide +kernel)⟩
  have hpasses : Passes lastFrame cutFile 0 := fun _ =>
    ⟨⟨by decide +kernel, by decide +kernel, by decide +kernel⟩,
      [⟨0x400000, by decide⟩], hpages, hpage, by decide +kernel⟩
  have hharm : ¬ Harmless lastFrame cutFile 0 := by
    intro h
    have hfill := h.fillable (by decide +kernel) hpasses
    exact absurd (hfill.bytes (by decide +kernel)).2.1 (by decide +kernel)
  have hphnum : List.range (ePhnum cutFile) = [0] := by decide +kernel
  have hheader : (forM headerFields fun field : HeaderField => field.read cutFile) = .ok () :=
    header_forM_eq_ok.mpr (by decide +kernel)
  rcases loadPhdr_cases (.start lastFrame_usable cutFile) with
    ⟨-, e, he, hcheck⟩ | ⟨hc, -⟩ | ⟨hc, -⟩
  · refine hcheck (hsafe e ?_)
    rw [loadFile, hheader, ok_bind, hphnum, List.foldlM_cons, he]
    rfl
  · exact hharm hc
  · exact hharm hc

end Rastapopoulos.Vmm
