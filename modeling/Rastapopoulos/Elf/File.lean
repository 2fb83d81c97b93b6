import Rastapopoulos.Foundations.Bytes
import Rastapopoulos.Vmm.Segments

/-!
# Files of programs

`load_elf` of `kernel/elf.c`, on the bytes of a file. A read outside of the file stops the call, as
it is not known what is there; so does a write outside of the pages that the call has mapped.
Offsets are added in 32 bits, like the pointers into the file.

A call that returns has done what `loadElf` does with the program headers of the file
(`loadElf_of_loadFile`).
-/

namespace Rastapopoulos.Vmm

open Paging
open KernelHeap (pageSize)

variable {m m' m₁ : Machine} {data : List (BitVec 8)} {i entry : ℕ}

/-! ## Reads and writes -/

/-- Why a call of `load_elf` does not go on. -/
inductive Stop
  | fault (e : Fault)
  /-- A byte is read that is not in the file. -/
  | outside
  /-- A byte is written that is not in a page which the call has mapped. -/
  | stray

/-- The bytes are in the file. -/
def Inside (data : List (BitVec 8)) (offset size : ℕ) : Prop := offset + size ≤ data.length

instance (data : List (BitVec 8)) (offset size : ℕ) : Decidable (Inside data offset size) :=
  inferInstanceAs (Decidable (_ ≤ _))

/-- The number at an offset of the file. -/
def number (data : List (BitVec 8)) (offset size : ℕ) : ℕ :=
  (ofLeBytes (8 * size) ((data.drop offset).take size)).toNat

def readField (data : List (BitVec 8)) (offset size : ℕ) : Except Stop ℕ := do
  check (Inside data offset size) .outside
  return number data offset size

/-- A store to the pages that the call has mapped. -/
def storeOwn (own : List ℕ) (m : Machine) (va len : ℕ) (bytes : ℕ → BitVec 8) :
    Except Stop Machine := do
  check (Within own va len) .stray
  (store m va len bytes).mapError .fault

/-! ## The header -/

/-- A field of the header, and what is asserted of it. -/
structure HeaderField where
  offset : ℕ
  size : ℕ
  holds : ℕ → Bool

namespace HeaderField

def Inside (field : HeaderField) (data : List (BitVec 8)) : Prop :=
  Vmm.Inside data field.offset field.size

def Passes (field : HeaderField) (data : List (BitVec 8)) : Prop :=
  field.holds (number data field.offset field.size) = true

instance (field : HeaderField) : Decidable (field.Inside data) :=
  inferInstanceAs (Decidable (Vmm.Inside ..))

instance (field : HeaderField) : Decidable (field.Passes data) :=
  inferInstanceAs (Decidable (_ = true))

def read (field : HeaderField) (data : List (BitVec 8)) : Except Stop Unit := do
  let value ← readField data field.offset field.size
  check (field.holds value = true) (.fault .assertion)

end HeaderField

/-- The fields in the order in which they are read. -/
def headerFields : List HeaderField :=
  -- `e_ident`
  [⟨0, 1, (· == 0x7F)⟩, ⟨1, 1, (· == 'E'.toNat)⟩, ⟨2, 1, (· == 'L'.toNat)⟩,
    ⟨3, 1, (· == 'F'.toNat)⟩, ⟨4, 1, (· == 1)⟩, ⟨5, 1, (· == 1)⟩,
    -- `e_type`, `e_machine`, `e_version`, `e_entry`
    ⟨16, 2, (· == 2)⟩, ⟨18, 2, (· == 3)⟩, ⟨20, 4, (· == 1)⟩, ⟨24, 4, (· != 0)⟩,
    -- `e_phoff`, `e_phentsize`, `e_phnum`
    ⟨28, 4, fun _ => true⟩, ⟨42, 2, (· == 32)⟩, ⟨44, 2, fun _ => true⟩]

def eEntry (data : List (BitVec 8)) : ℕ := number data 24 4

def ePhoff (data : List (BitVec 8)) : ℕ := number data 28 4

def ePhnum (data : List (BitVec 8)) : ℕ := number data 44 2

/-! ## Program headers -/

/-- Where the field at `k` of the program header `i` is. -/
def phdrField (data : List (BitVec 8)) (i k : ℕ) : ℕ := addW (ePhoff data) (32 * i + k)

def pType (data : List (BitVec 8)) (i : ℕ) : ℕ := number data (phdrField data i 0) 4

def pOffset (data : List (BitVec 8)) (i : ℕ) : ℕ := number data (phdrField data i 4) 4

def pVaddr (data : List (BitVec 8)) (i : ℕ) : ℕ := number data (phdrField data i 8) 4

def pFilesz (data : List (BitVec 8)) (i : ℕ) : ℕ := number data (phdrField data i 16) 4

def pMemsz (data : List (BitVec 8)) (i : ℕ) : ℕ := number data (phdrField data i 20) 4

def pFlags (data : List (BitVec 8)) (i : ℕ) : ℕ := number data (phdrField data i 24) 4

/-- The flags of the pages of a segment. -/
def segmentFlags (flags : BitVec 32) : BitVec 32 :=
  vmmPagePresent ||| vmmPageUser ||| if flags &&& pfW ≠ 0 then vmmPageWritable else 0

/-- The bytes of the file from an offset on. -/
def fileBytes (data : List (BitVec 8)) (offset k : ℕ) : BitVec 8 := data.getD (offset + k) 0

/-- The bytes of the segment are copied, if there are any. -/
def copySegment (data : List (BitVec 8)) (i : ℕ) (own : List ℕ) (m : Machine) (vaddr filesz : ℕ) :
    Except Stop Machine :=
  if filesz ≠ 0 then do
    let offset ← readField data (phdrField data i 4) 4
    check (Inside data offset filesz) .outside
    storeOwn own m vaddr filesz (fileBytes data offset)
  else return m

/-- What is done with a segment once its pages are mapped: they are cleared and filled, and they get
their flags. -/
def fillSegment (data : List (BitVec 8)) (i : ℕ) (own pages : List ℕ) (vaddr memsz flags : ℕ)
    (m : Machine) : Except Stop Machine := do
  let m ← storeOwn own m vaddr memsz fun _ => 0
  let filesz ← readField data (phdrField data i 16) 4
  let m ← copySegment data i own m vaddr filesz
  (pages.foldlM (fun m page =>
    vmmRemap m page (segmentFlags (BitVec.ofNat 32 flags))) m).mapError .fault

/-- The machine, and the pages that the call has mapped. -/
structure Load where
  machine : Machine
  own : List ℕ

/-- The loop of `load_elf`, for one program header. -/
def loadPhdr (data : List (BitVec 8)) (s : Load) (i : ℕ) : Except Stop Load := do
  let type ← readField data (phdrField data i 0) 4
  if type = ptLoad then
    let memsz ← readField data (phdrField data i 20) 4
    check (memsz ≠ 0) (.fault .assertion)
    let flags ← readField data (phdrField data i 24) 4
    let vaddr ← readField data (phdrField data i 8) 4
    let segmentEnd := addW vaddr memsz
    check (userStart ≤ vaddr) (.fault .assertion)
    check (segmentEnd ≤ userEnd) (.fault .assertion)
    let pages := pagesFrom vaddr segmentEnd
    let m ← (pages.foldlM (fun m page => do
      let (m, frame) ← allocFrame m
      vmmMap m page frame (vmmPagePresent ||| vmmPageWritable)) s.machine).mapError .fault
    let own := s.own ++ pages
    let m ← fillSegment data i own pages vaddr memsz flags m
    return ⟨m, own⟩
  else return s

/-- `load_elf`, on the bytes of a file. -/
def loadFile (m : Machine) (data : List (BitVec 8)) : Except Stop (Machine × ℕ) := do
  forM headerFields fun field => field.read data
  let s ← (List.range (ePhnum data)).foldlM (loadPhdr data) ⟨m, []⟩
  return (s.machine, eEntry data)

/-! ## Inversion -/

variable {size va : ℕ} {own : List ℕ}

theorem readField_eq_ok {offset n : ℕ} :
    readField data offset size = .ok n ↔ Inside data offset size ∧ number data offset size = n := by
  rw [readField, check_bind_eq_ok, pure_inj]

theorem storeOwn_eq_ok {len : ℕ} {bytes : ℕ → BitVec 8} :
    storeOwn own m va len bytes = .ok m' ↔ Within own va len ∧ store m va len bytes = .ok m' := by
  rw [storeOwn, check_bind_eq_ok, mapError_eq_ok]

theorem header_read_eq_ok {field : HeaderField} {u : Unit} :
    field.read data = .ok u ↔ field.Inside data ∧ field.Passes data := by
  simp only [HeaderField.read, bind_eq_ok, readField_eq_ok, check_eq_ok]
  constructor
  · rintro ⟨n, ⟨hinside, rfl⟩, hholds⟩
    exact ⟨hinside, hholds⟩
  · rintro ⟨hinside, hholds⟩
    exact ⟨_, ⟨hinside, rfl⟩, hholds⟩

theorem header_forM_eq_ok {fields : List HeaderField} {u : Unit} :
    (forM fields fun field : HeaderField => field.read data) = .ok u ↔
      ∀ field ∈ fields, field.Inside data ∧ field.Passes data := by
  induction fields with
  | nil => simp
  | cons field fields ih =>
    rw [List.forM_cons, bind_eq_ok, List.forall_mem_cons, ← ih]
    constructor
    · rintro ⟨_, hfield, hrest⟩
      exact ⟨header_read_eq_ok.mp hfield, hrest⟩
    · rintro ⟨hfield, hrest⟩
      exact ⟨(), header_read_eq_ok.mpr hfield, hrest⟩

/-! ## Levels -/

/-- A program header of a file, as `loadSegment` takes it. -/
def Phdr.ofFile (data : List (BitVec 8)) (i : ℕ) : Phdr where
  type := pType data i
  flags := BitVec.ofNat 32 (pFlags data i)
  vaddr := pVaddr data i
  memsz := pMemsz data i
  filesz := pFilesz data i
  data := fileBytes data (pOffset data i)

def Elf.ofFile (data : List (BitVec 8)) : Elf where
  header := headerFields.all fun field => field.holds (number data field.offset field.size)
  entry := eEntry data
  phdrs := (List.range (ePhnum data)).map (Phdr.ofFile data)

/-- A turn of the loop that comes to its end. -/
theorem loadSegment_of_loadPhdr {s s' : Load} (h : loadPhdr data s i = .ok s') :
    loadSegment s.machine (.ofFile data i) = .ok s'.machine := by
  simp only [loadPhdr, bind_eq_ok, readField_eq_ok] at h
  obtain ⟨_, ⟨-, rfl⟩, h⟩ := h
  rw [loadSegment]
  split at h
  · rename_i htype
    replace htype : (Phdr.ofFile data i).type = ptLoad := htype
    simp only [bind_eq_ok, readField_eq_ok, check_eq_ok, mapError_eq_ok, pure_eq_ok,
      Except.ok.injEq] at h
    obtain ⟨_, ⟨-, rfl⟩, -, hmemsz, _, ⟨-, rfl⟩, _, ⟨-, rfl⟩, -, hstart, -, hend, m₁, hmap, m₄,
      hfill, rfl⟩ := h
    simp only [fillSegment, bind_eq_ok, readField_eq_ok, mapError_eq_ok, storeOwn_eq_ok] at hfill
    obtain ⟨m₂, ⟨-, hzero⟩, _, ⟨-, rfl⟩, m₃, hcopy, hremap⟩ := hfill
    rw [if_pos htype]
    simp only [bind_eq_ok, check_eq_ok]
    dsimp only [Phdr.ofFile, pVaddr, pMemsz, pFilesz, pFlags]
    refine ⟨⟨⟩, hmemsz, ⟨⟩, hstart, ⟨⟩, hend, m₁, hmap, m₂, hzero, m₃, ?_, hremap⟩
    rw [copySegment] at hcopy
    split at hcopy
    · simp only [bind_eq_ok, readField_eq_ok, check_eq_ok, storeOwn_eq_ok] at hcopy
      obtain ⟨_, ⟨-, rfl⟩, -, -, -, hstore⟩ := hcopy
      exact hstore
    · rename_i hnone
      cases hcopy
      exact if_pos (not_not.mp hnone)
  · rename_i htype
    replace htype : (Phdr.ofFile data i).type ≠ ptLoad := htype
    cases h
    rw [if_neg htype]
    rfl

/-- **A file that is loaded.** -/
theorem loadElf_of_loadFile (h : loadFile m data = .ok (m', entry)) :
    loadElf m (.ofFile data) = .ok (m', entry) := by
  simp only [loadFile, bind_eq_ok, pure_inj, Prod.mk.injEq] at h
  obtain ⟨_, hheader, s, hloop, rfl, rfl⟩ := h
  have hpasses : (Elf.ofFile data).header = true := by
    rw [Elf.ofFile, List.all_eq_true]
    exact fun field hfield => (header_forM_eq_ok.mp hheader field hfield).2
  have hphdrs : ∀ {l : List ℕ} {s s' : Load}, l.foldlM (loadPhdr data) s = .ok s' →
      (l.map (Phdr.ofFile data)).foldlM loadSegment s.machine = .ok s'.machine := by
    intro l
    induction l with
    | nil =>
      intro s s' h
      cases h
      rfl
    | cons i l ih =>
      intro s s' h
      rw [List.foldlM_cons, bind_eq_ok] at h
      obtain ⟨s₁, hone, hrest⟩ := h
      rw [List.map_cons, List.foldlM_cons, loadSegment_of_loadPhdr hone]
      exact ih hrest
  rw [loadElf, check_of _ hpasses, ok_bind]
  refine bind_eq_ok.mpr ⟨s.machine, hphdrs hloop, rfl⟩

/-! ## Segments -/

/-- The pages of a segment. -/
def segmentPages (data : List (BitVec 8)) (i : ℕ) : List ℕ :=
  if pType data i = ptLoad then pagesFrom (pVaddr data i) (addW (pVaddr data i) (pMemsz data i))
  else []

/-- The pages of the segments before one. -/
def pagesBefore (data : List (BitVec 8)) (i : ℕ) : List ℕ := (List.range i).flatMap (segmentPages data)

theorem pagesBefore_succ : pagesBefore data (i + 1) = pagesBefore data i ++ segmentPages data i := by
  rw [pagesBefore, List.range_succ, List.flatMap_append, List.flatMap_singleton]
  rfl

/-- The checks of `load_elf` on a segment. -/
def Accepts (data : List (BitVec 8)) (i : ℕ) : Prop :=
  pMemsz data i ≠ 0 ∧ userStart ≤ pVaddr data i ∧
    addW (pVaddr data i) (pMemsz data i) ≤ userEnd

/-- What is read for a segment is in the file. -/
structure Readable (data : List (BitVec 8)) (i : ℕ) : Prop where
  type : Inside data (phdrField data i 0) 4
  memsz : Inside data (phdrField data i 20) 4
  flags : Inside data (phdrField data i 24) 4
  vaddr : Inside data (phdrField data i 8) 4
  filesz : Inside data (phdrField data i 16) 4
  offset : pFilesz data i ≠ 0 → Inside data (phdrField data i 4) 4
  bytes : pFilesz data i ≠ 0 → Inside data (pOffset data i) (pFilesz data i)

theorem segmentPages_of_load (htype : pType data i = ptLoad) :
    segmentPages data i = pagesFrom (pVaddr data i) (addW (pVaddr data i) (pMemsz data i)) :=
  if_pos htype

theorem segmentPages_of_not (htype : pType data i ≠ ptLoad) : segmentPages data i = [] :=
  if_neg htype

theorem segmentFlags_lt (flags : BitVec 32) : (segmentFlags flags).toNat < 2 ^ 12 := by
  unfold segmentFlags
  split <;> decide

theorem segmentFlags_present (flags : BitVec 32) : segmentFlags flags &&& vmmPagePresent ≠ 0 := by
  unfold segmentFlags
  split <;> decide

/-- Pages are the user's, and writable exactly if `PF_W` is set. -/
theorem segmentFlags_user (flags : BitVec 32) : segmentFlags flags &&& vmmPageUser ≠ 0 ∧
    (segmentFlags flags &&& vmmPageWritable ≠ 0 ↔ flags &&& pfW ≠ 0) := by
  unfold segmentFlags
  split
  · exact ⟨by decide, iff_of_true (by decide) ‹_›⟩
  · exact ⟨by decide, iff_of_false (by decide) ‹_›⟩

/-- The page of an address. -/
theorem mem_pagesFrom {stop a : ℕ} (hva : va % pageSize = 0) (hle : va ≤ a) (hlt : a < stop) :
    a / pageSize * pageSize ∈ pagesFrom va stop := by
  rw [pagesFrom, List.mem_map]
  refine ⟨a / pageSize - va / pageSize, List.mem_range.mpr ?_, ?_⟩
  all_goals
    unfold pageSize at *
    omega

/-- The bytes of a segment are in its pages. -/
theorem within_pagesFrom {len : ℕ} (hva : va % pageSize = 0) (hle : len ≤ size)
    (hlt : va + size < wordMod) : Within (pagesFrom va (va + size)) va len := by
  intro n hn
  obtain ⟨a, ha, ha', rfl⟩ := mem_pageNumbers.mp hn
  have hbound : a / pageSize * pageSize < wordMod :=
    Nat.lt_of_le_of_lt (Nat.div_mul_le_self ..) (by omega)
  rw [Nat.mod_eq_of_lt hbound]
  exact mem_pagesFrom hva ha (by omega)

theorem readField_of {offset : ℕ} (h : Inside data offset size) :
    readField data offset size = .ok (number data offset size) := readField_eq_ok.mpr ⟨h, rfl⟩

theorem copySegment_of (hoffset : pFilesz data i ≠ 0 → Inside data (phdrField data i 4) 4)
    (hbytes : pFilesz data i ≠ 0 → Inside data (pOffset data i) (pFilesz data i))
    (hin : Within own va (pFilesz data i))
    (hstore : store m va (pFilesz data i) (fileBytes data (pOffset data i)) = .ok m') :
    copySegment data i own m va (pFilesz data i) = .ok m' := by
  rw [copySegment]
  split
  · rename_i hne
    have hread : readField data (phdrField data i 4) 4 = .ok (pOffset data i) :=
      readField_of (hoffset hne)
    rw [hread, ok_bind]
    exact check_bind_eq_ok.mpr ⟨hbytes hne, storeOwn_eq_ok.mpr ⟨hin, hstore⟩⟩
  · rename_i heq
    rw [store, if_pos (not_not.mp heq)] at hstore
    rw [pure_eq_ok, Except.ok.inj hstore]

/-- The steps on a segment whose pages are mapped. -/
theorem fillSegment_of {pages : List ℕ} {m₂ m₃ m₄ : Machine}
    (hfilesz : Inside data (phdrField data i 16) 4)
    (hoffset : pFilesz data i ≠ 0 → Inside data (phdrField data i 4) 4)
    (hbytes : pFilesz data i ≠ 0 → Inside data (pOffset data i) (pFilesz data i))
    (hin : Within own va (pMemsz data i))
    (hzero : store m₁ va (pMemsz data i) (fun _ => 0) = .ok m₂)
    (hin' : Within own va (pFilesz data i))
    (hcopy : store m₂ va (pFilesz data i) (fileBytes data (pOffset data i)) = .ok m₃)
    (hremap : pages.foldlM (fun m page =>
      vmmRemap m page (segmentFlags (BitVec.ofNat 32 (pFlags data i)))) m₃ = .ok m₄) :
    fillSegment data i own pages va (pMemsz data i) (pFlags data i) m₁ = .ok m₄ := by
  have hread : readField data (phdrField data i 16) 4 = .ok (pFilesz data i) := readField_of hfilesz
  refine bind_eq_ok.mpr ⟨m₂, storeOwn_eq_ok.mpr ⟨hin, hzero⟩, ?_⟩
  rw [hread, ok_bind]
  refine bind_eq_ok.mpr ⟨m₃, copySegment_of hoffset hbytes hin' hcopy, ?_⟩
  exact mapError_eq_ok.mpr hremap

/-- **A turn of the loop** on a segment that is accepted. -/
theorem loadPhdr_eq {s : Load} (htype : Inside data (phdrField data i 0) 4)
    (hload : pType data i = ptLoad) (hmemsz : Inside data (phdrField data i 20) 4)
    (hflags : Inside data (phdrField data i 24) 4) (hvaddr : Inside data (phdrField data i 8) 4)
    (haccepts : Accepts data i) :
    loadPhdr data s i = (((segmentPages data i).foldlM heapGrow s.machine).mapError Stop.fault >>=
      fun m => fillSegment data i (s.own ++ segmentPages data i) (segmentPages data i)
        (pVaddr data i) (pMemsz data i) (pFlags data i) m >>= fun m =>
          .ok ⟨m, s.own ++ segmentPages data i⟩) := by
  have hreadType : readField data (phdrField data i 0) 4 = .ok (pType data i) := readField_of htype
  have hreadMemsz : readField data (phdrField data i 20) 4 = .ok (pMemsz data i) :=
    readField_of hmemsz
  have hreadFlags : readField data (phdrField data i 24) 4 = .ok (pFlags data i) :=
    readField_of hflags
  have hreadVaddr : readField data (phdrField data i 8) 4 = .ok (pVaddr data i) :=
    readField_of hvaddr
  rw [segmentPages_of_load hload, loadPhdr, hreadType, ok_bind, if_pos hload, hreadMemsz, ok_bind,
    check_of _ haccepts.1, ok_bind, hreadFlags, ok_bind, hreadVaddr, ok_bind,
    check_of _ haccepts.2.1, ok_bind, check_of _ haccepts.2.2, ok_bind]
  rfl

end Rastapopoulos.Vmm
