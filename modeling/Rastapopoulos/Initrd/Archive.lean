import Mathlib.Data.List.TakeWhile
import Rastapopoulos.Heap.Invariant
import Rastapopoulos.Initrd.Basic

/-!
# Loading an archive

An archive as `tar` writes it: for each file a header of 512 bytes with the name and, in octal, the
size, and the contents, filled up to a multiple of 512; and two blocks of zeros at the end.

`initrd_init` walks through such an archive header by header (`tarWalk_archive`), and what
`initrd_get_file` finds afterwards are the files of the archive. It gets through if and only if the
heap has a block for each request, and no file is empty, for `kmalloc` does not accept a size of
zero (`loads_iff`).
-/

namespace Rastapopoulos.Initrd

open Strings (Byte CString)

/-! ## The format -/

/-- The digits of a number in base 8, from the last to the first. -/
def octalDigits : ℕ → ℕ → List ℕ
  | 0, _ => []
  | k + 1, n => n % 8 :: octalDigits k (n / 8)

/-- A number with `k` octal digits, as text. -/
def octal (k n : ℕ) : List Byte := ((octalDigits k n).map fun d => BitVec.ofNat 8 (48 + d)).reverse

/-- A file, with what its header has beside name and size. -/
structure TarFile where
  name : CString
  name_ne : name.chars ≠ []
  name_le : name.chars.length ≤ 99
  content : List Byte
  /-- `mode`, `uid` and `gid`. -/
  owner : List Byte
  length_owner : owner.length = 24
  /-- What comes behind the digits of the size. -/
  rest : List Byte
  length_rest : rest.length = 377

namespace TarFile

def nameField (f : TarFile) : List Byte :=
  f.name.chars ++ List.replicate (100 - f.name.chars.length) 0

def header (f : TarFile) : List Byte :=
  f.nameField ++ (f.owner ++ (octal 11 f.content.length ++ f.rest))

def padding (f : TarFile) : List Byte :=
  List.replicate ((f.content.length + 511) / 512 * 512 - f.content.length) 0

def bytes (f : TarFile) : List Byte := f.header ++ (f.content ++ f.padding)

/-- The record that `initrd_init` is to make of it. -/
def entry (f : TarFile) : InitrdFile := ⟨f.nameField, f.content, f.content.length⟩

/-- The sizes that are asked of the heap for it. -/
def requests (f : TarFile) : List ℕ := [initrdFileSize, f.content.length]

end TarFile

def archive (files : List TarFile) : List Byte :=
  files.flatMap TarFile.bytes ++ List.replicate 1024 0

/-! ## Sizes -/

theorem length_octalDigits (k n : ℕ) : (octalDigits k n).length = k := by
  induction k generalizing n with
  | zero => rfl
  | succ k ih => rw [octalDigits, List.length_cons, ih]

@[simp] theorem length_octal (k n : ℕ) : (octal k n).length = k := by
  rw [octal, List.length_reverse, List.length_map, length_octalDigits]

theorem octalDigits_lt {k n d : ℕ} (h : d ∈ octalDigits k n) : d < 8 := by
  induction k generalizing n with
  | zero => exact nomatch h
  | succ k ih =>
    rcases List.mem_cons.mp h with rfl | h
    · exact Nat.mod_lt _ (by decide)
    · exact ih h

theorem ofDigits_octalDigits (k n : ℕ) : Nat.ofDigits 8 (octalDigits k n) = n % 8 ^ k := by
  induction k generalizing n with
  | zero => rw [pow_zero, Nat.mod_one]; rfl
  | succ k ih =>
    rw [octalDigits, Nat.ofDigits_cons, ih, pow_succ, Nat.mul_comm (8 ^ k), Nat.mod_mul]

theorem digitValue_digit : ∀ d < 8, digitValue (BitVec.ofNat 8 (48 + d)) = d := by decide

/-- The loop adds up the digits, modulo `2 ^ 32`. -/
theorem getsizeLoop_digits {ds : List ℕ} (hds : ∀ d ∈ ds, d < 8) {size count : ℕ}
    (hsize : size < wordMod) :
    getsizeLoop (ds.map fun d => BitVec.ofNat 8 (48 + d)) size count =
      (size + count * Nat.ofDigits 8 ds) % wordMod := by
  induction ds generalizing size count with
  | nil => simpa [getsizeLoop] using (Nat.mod_eq_of_lt hsize).symm
  | cons d ds ih =>
    rw [List.map_cons, getsizeLoop, digitValue_digit d (hds d (.head _)),
      ih (fun e he => hds e (.tail _ he)) (addW_lt _ _), Nat.ofDigits_cons]
    refine Nat.ModEq.trans (Nat.ModEq.add
      (b := size + d * count) (d := count * 8 * Nat.ofDigits 8 ds) ?_ ?_) ?_
    · exact (Nat.mod_modEq _ _).trans (Nat.ModEq.add_left _ (Nat.mod_modEq _ _))
    · exact Nat.ModEq.mul_right _ (Nat.mod_modEq _ _)
    · exact congrArg (· % wordMod) (by ring)

theorem getsize_octal {n : ℕ} (hn : n < wordMod) : getsize (octal 11 n) = n := by
  rw [getsize, octal, List.reverse_reverse, getsizeLoop_digits (fun _ => octalDigits_lt) (by decide),
    ofDigits_octalDigits, Nat.zero_add, Nat.one_mul]
  have h8 : n < 8 ^ 11 := hn.trans (by decide)
  rw [Nat.mod_eq_of_lt h8, Nat.mod_eq_of_lt hn]

/-- A name with zeros behind it up to 100 bytes. -/
theorem append_zeros {s : List Byte} (hlt : s.length < 100) :
    s ++ List.replicate (100 - s.length) 0 = s ++ 0 :: List.replicate (99 - s.length) 0 := by
  have hlen : 100 - s.length = (99 - s.length) + 1 := by omega
  rw [hlen, List.replicate_succ]

namespace TarFile

variable (f : TarFile)

@[simp] theorem length_nameField : f.nameField.length = 100 := by
  have := f.name_le
  rw [nameField, List.length_append, List.length_replicate]
  omega

@[simp] theorem length_header : f.header.length = 512 := by
  simp [header, f.length_owner, f.length_rest]

theorem length_bytes (hfits : f.content.length + 512 ≤ wordMod) :
    f.bytes.length = 512 + alignUp f.content.length 512 := by
  have halign : alignUp f.content.length 512 = (f.content.length + 511) / 512 * 512 :=
    alignUp_two_pow (k := 9) (by decide) hfits
  rw [bytes, List.length_append, length_header, List.length_append, padding,
    List.length_replicate, halign]
  omega

end TarFile

/-! ## The walk -/

section Walk

variable {σ : Type} (alloc : σ → ℕ → Option σ) {m : Module} {heap heap' : σ} {hdr turns : ℕ}
  {acc : List InitrdFile} {f : TarFile} {files : List TarFile} {post : List Byte}

/-- **One turn**, at the header of a file: two requests to the heap, and on to the next header. -/
theorem tarWalk_file (h : m.At hdr (f.bytes ++ post)) :
    tarWalk alloc m (turns + 1) heap acc hdr = (do
      let heap ← kmalloc alloc heap initrdFileSize
      let heap ← kmalloc alloc heap f.content.length
      tarWalk alloc m turns heap (acc ++ [f.entry]) (hdr + f.bytes.length)) := by
  have hbytes := h.left
  have hle := hbytes.le
  have hlen : f.bytes.length = 512 + (f.content.length + f.padding.length) := by
    rw [TarFile.bytes, List.length_append, f.length_header, List.length_append]
  have hheader : m.At hdr f.header := hbytes.left
  have hname : m.At hdr (f.name.chars ++ 0 :: List.replicate (99 - f.name.chars.length) 0) := by
    rw [← append_zeros (Nat.lt_succ_of_le f.name_le)]
    exact hheader.left
  have hsize : m.load (addW hdr 124) 11 = .ok (octal 11 f.content.length) := by
    have hat := hheader.right.right
    rw [f.length_nameField, f.length_owner, Nat.add_assoc] at hat
    have hload := hat.left.load
    rw [length_octal] at hload
    rw [hheader.addW_eq (by rw [f.length_header]; decide)]
    exact hload
  have hdata : m.load (addW hdr 512) f.content.length = .ok f.content := by
    have hat := hbytes.right.left
    rw [f.length_header] at hat
    rw [hheader.addW_eq (by rw [f.length_header])]
    exact hat.load
  have hnext : addW (addW hdr 512) (alignUp f.content.length 512) = hdr + f.bytes.length := by
    have hfits : f.content.length + 512 ≤ wordMod := by omega
    have hround := f.length_bytes hfits
    rw [hheader.addW_eq (by rw [f.length_header]), addW_of_lt (by omega)]
    omega
  obtain ⟨c, s, hcs⟩ := List.exists_cons_of_ne_nil f.name_ne
  have hc : c ≠ 0 := fun hc => f.name.nonzero (by rw [hcs, hc]; exact .head _)
  have hfirst : m.read hdr = .ok c := by
    rw [hcs] at hname
    exact Module.At.read hname
  have hstring : m.string hdr 100 = .ok f.name.chars :=
    hname.string f.name.nonzero (Nat.succ_le_succ f.name_le)
  rw [tarWalk_succ alloc hfirst hc hsize hstring, getsize_octal (by omega)]
  simp only [hdata, ok_bind, hnext]
  rfl

/-- **The whole walk**: with enough turns the files of the archive, if the heap serves all
requests. -/
theorem tarWalk_archive (h : m.At hdr (archive files)) :
    tarWalk alloc m turns heap acc hdr = (do
      let heap ← ((files.take turns).flatMap TarFile.requests).foldlM (kmalloc alloc) heap
      if files.length < turns then return (heap, acc ++ files.map TarFile.entry)
      else .error .turns) := by
  induction files generalizing heap acc hdr turns with
  | nil =>
    cases turns with
    | zero => rfl
    | succ turns =>
      have hzero : m.read hdr = .ok 0 := Module.At.read h
      rw [tarWalk, hzero, ok_bind, if_pos rfl, List.map_nil, List.append_nil]
      rfl
  | cons f files ih =>
    have hat : m.At hdr (f.bytes ++ archive files) := by
      rwa [archive, List.flatMap_cons, List.append_assoc] at h
    cases turns with
    | zero => rfl
    | succ turns =>
      rw [tarWalk_file alloc hat]
      simp only [ih hat.right, List.take_succ_cons, List.flatMap_cons, TarFile.requests,
        List.foldlM_append, List.foldlM_cons, List.foldlM_nil, bind_assoc, pure_bind,
        List.length_cons, Nat.add_lt_add_iff_right, List.append_assoc, List.singleton_append,
        List.map_cons]

/-- The heap has a block for each request, one after the other. -/
def Serves (heap : σ) (requests : List ℕ) : Prop := (requests.foldlM alloc heap).isSome

instance (heap : σ) (requests : List ℕ) : Decidable (Serves alloc heap requests) :=
  inferInstanceAs (Decidable (_ = true))

theorem exists_foldlM_kmalloc {requests : List ℕ} :
    (∃ heap', requests.foldlM (kmalloc alloc) heap = .ok heap') ↔
      (∀ size ∈ requests, size ≠ 0) ∧ Serves alloc heap requests := by
  induction requests generalizing heap with
  | nil => exact ⟨fun _ => ⟨fun _ h => (nomatch h), rfl⟩, fun _ => ⟨heap, rfl⟩⟩
  | cons size requests ih =>
    simp only [Serves, List.foldlM_cons, bind_eq_ok, kmalloc_eq_ok, List.forall_mem_cons] at ih ⊢
    cases halloc : alloc heap size with
    | none => simp
    | some heap₁ =>
      simp only [Option.some.injEq, Option.bind_eq_bind, Option.bind_some, and_assoc, ← ih]
      constructor
      · rintro ⟨heap', _, hsize, rfl, hheap'⟩
        exact ⟨hsize, heap', hheap'⟩
      · rintro ⟨hsize, heap', hheap'⟩
        exact ⟨heap', heap₁, hsize, rfl, hheap'⟩

end Walk

/-! ## The lookup -/

/-- The name in the record of a file. -/
def InitrdFile.label (file : InitrdFile) : List Byte := file.name.takeWhile (· ≠ 0)

/-- A record as `initrd_init` makes it: a name of 1 to 99 characters with zeros behind it, and all
of the contents. -/
structure InitrdFile.Valid (file : InitrdFile) : Prop where
  label_ne : file.label ≠ []
  label_le : file.label.length ≤ 99
  name_eq : file.name = file.label ++ 0 :: List.replicate (99 - file.label.length) 0
  size_eq : file.size = file.data.length

/-- The first file of the name. -/
def Disk.lookup (disk : Disk) (name : CString) : Option InitrdFile :=
  disk.files.find? fun file => file.label = name.chars

theorem InitrdFile.zero_notMem_label (file : InitrdFile) : 0 ∉ file.label := fun h => by
  simpa using List.mem_takeWhile_imp h

theorem label_zeros {s : List Byte} (hs : 0 ∉ s) (data : List Byte) (size : ℕ) :
    InitrdFile.label ⟨s ++ List.replicate (100 - s.length) 0, data, size⟩ = s := by
  have hall : ∀ c ∈ s, decide (c ≠ 0) = true := fun c hc => by
    simpa using ne_of_mem_of_not_mem hc hs
  rw [InitrdFile.label, List.takeWhile_append_of_pos hall, List.takeWhile_replicate]
  simp

theorem valid_zeros {s data : List Byte} (hs : 0 ∉ s) (hne : s ≠ []) (hlt : s.length < 100) :
    InitrdFile.Valid ⟨s ++ List.replicate (100 - s.length) 0, data, data.length⟩ := by
  have hlabel := label_zeros hs data data.length
  refine ⟨?_, ?_, ?_, rfl⟩
  · rwa [hlabel]
  · rw [hlabel]
    exact Nat.le_of_lt_succ hlt
  · rw [hlabel]
    exact append_zeros hlt

namespace TarFile

variable (f : TarFile)

theorem label_entry : f.entry.label = f.name.chars := label_zeros f.name.nonzero _ _

theorem valid_entry : f.entry.Valid :=
  valid_zeros f.name.nonzero f.name_ne (Nat.lt_succ_of_le f.name_le)

end TarFile

/-- The lookup finds the first file of the name. -/
theorem initrdGetFile_eq {disk : Disk} (h : ∀ file ∈ disk.files, file.Valid) (name : CString) :
    initrdGetFile disk name = .ok (disk.lookup name) := by
  rw [initrdGetFile, Disk.lookup]
  generalize disk.files = files at h
  induction files with
  | nil => rfl
  | cons file files ih =>
    rw [List.forall_mem_cons] at h
    obtain ⟨d, hd, hiff⟩ := Strings.strcmp_strings file.zero_notMem_label name.nonzero
    rw [getFileLoop, h.1.name_eq, hd, ok_bind, List.find?_cons]
    by_cases hname : file.label = name.chars
    · simp [hiff.mpr hname, hname]
    · rw [if_neg (mt hiff.mp hname), ih h.2]
      simp [hname]

theorem initrdGetFile_entries (size : ℕ) (data : List Byte) (files : List TarFile) (name : CString) :
    initrdGetFile ⟨size, data, files.map TarFile.entry⟩ name =
      .ok ((files.find? fun f => f.name.chars = name.chars).map TarFile.entry) := by
  rw [initrdGetFile_eq (List.forall_mem_map.mpr fun f _ => f.valid_entry), Disk.lookup, List.find?_map]
  simp only [Function.comp_def, TarFile.label_entry]

section Valid

variable {σ : Type} (alloc : σ → ℕ → Option σ) {m : Module} {heap : σ}

theorem tarWalk_valid {turns hdr : ℕ} {files : List InitrdFile} {r : σ × List InitrdFile}
    (hfiles : ∀ file ∈ files, file.Valid) (h : tarWalk alloc m turns heap files hdr = .ok r) :
    ∀ file ∈ r.2, file.Valid := by
  induction turns generalizing heap hdr files with
  | zero => cases h
  | succ turns ih =>
    rw [tarWalk, bind_eq_ok] at h
    obtain ⟨c, hc, h⟩ := h
    split at h
    · cases h
      exact hfiles
    · rename_i hne
      simp only [bind_eq_ok] at h
      obtain ⟨field, -, heap₁, -, filename, hname, name, hcopy, heap₂, -, data, hdata, hwalk⟩ := h
      refine ih (fun file hfile => ?_) hwalk
      rcases List.mem_append.mp hfile with hfile | hfile
      · exact hfiles file hfile
      obtain ⟨hzero, hlt⟩ := (Module.string_ends (by decide)).of_ok hname
      rw [strlcpy_zeros hlt, mapError_ok, Except.ok.injEq] at hcopy
      rw [List.mem_singleton.mp hfile, ← hcopy, ← Module.load_ends.of_ok hdata]
      exact valid_zeros hzero (Module.string_ne_nil hc hne hname) hlt

/-- **Whatever the module is**, the records are as they should be. -/
theorem initrdInit_valid {turns : ℕ} {boot : Option Module} {heap' : σ} {disk : Disk}
    (h : initrdInit alloc turns heap boot = .ok (heap', disk)) :
    ∀ file ∈ disk.files, file.Valid := by
  cases boot with
  | none =>
    cases h
    exact List.forall_mem_nil _
  | some m =>
    simp only [initrdInit, bind_eq_ok, pure_inj] at h
    obtain ⟨heap₁, -, data, -, r, hwalk, heq⟩ := h
    cases heq
    exact tarWalk_valid alloc (List.forall_mem_nil _) hwalk

end Valid

section Loads

variable {σ : Type} (alloc : σ → ℕ → Option σ) {m : Module} {heap : σ} {files : List TarFile}

/-- `initrd_init` completes, and afterwards each file is found by its name, with its contents, and
nothing is found by any other name. -/
def Loads (heap : σ) (m : Module) (files : List TarFile) : Prop :=
  ∃ turns heap' disk, initrdInit alloc turns heap (some m) = .ok (heap', disk) ∧
    (∀ f ∈ files, ∃ file, initrdGetFile disk f.name = .ok (some file) ∧ file.data = f.content ∧
      file.size = f.content.length) ∧
    ∀ name : CString, (∀ f ∈ files, f.name.chars ≠ name.chars) →
      initrdGetFile disk name = .ok none

/-- `initrd_init` completes if `kmalloc` does for all requests, and has the files in order. -/
theorem initrdInit_archive (hm : m.bytes = archive files) {disk : Disk} :
    (∃ turns heap', initrdInit alloc turns heap (some m) = .ok (heap', disk)) ↔
      (∃ heap', (m.bytes.length :: files.flatMap TarFile.requests).foldlM (kmalloc alloc) heap =
        .ok heap') ∧ disk = ⟨m.bytes.length, m.bytes, files.map TarFile.entry⟩ := by
  have hat : m.At m.start (archive files) := hm ▸ Module.At.start m
  have hload : m.load m.start m.bytes.length = .ok m.bytes := (Module.At.start m).load
  simp only [initrdInit, List.foldlM_cons, tarWalk_archive alloc hat, bind_eq_ok, hload,
    Except.ok.injEq, pure_eq_ok]
  constructor
  · rintro ⟨turns, heap', heap₁, h₁, _, rfl, r, ⟨heap₂, h₂, hr⟩, hdisk⟩
    split at hr
    · rename_i hlt
      cases hr
      cases hdisk
      rw [List.take_of_length_le hlt.le] at h₂
      exact ⟨⟨heap₂, heap₁, h₁, h₂⟩, rfl⟩
    · cases hr
  · rintro ⟨⟨heap', heap₁, h₁, h₂⟩, rfl⟩
    refine ⟨files.length + 1, heap', heap₁, h₁, _, rfl, (heap', files.map TarFile.entry),
      ⟨heap', ?_, ?_⟩, rfl⟩
    · rwa [List.take_of_length_le (Nat.le_succ _)]
    · rw [if_pos (Nat.lt_succ_self _), List.nil_append]

/-- **Loading and looking up**: an archive is loaded if and only if no file in it is empty and the
heap serves the requests. -/
theorem loads_iff (hnames : (files.map fun f => f.name.chars).Nodup)
    (hm : m.bytes = archive files) :
    Loads alloc heap m files ↔ (∀ f ∈ files, f.content ≠ []) ∧
      Serves alloc heap (m.bytes.length :: files.flatMap TarFile.requests) := by
  have hsizes : (∀ size ∈ m.bytes.length :: files.flatMap TarFile.requests, size ≠ 0) ↔
      ∀ f ∈ files, f.content ≠ [] := by
    have hlen : m.bytes.length ≠ 0 := by
      rw [hm, archive, List.length_append, List.length_replicate]
      omega
    rw [List.forall_mem_cons]
    simp only [List.mem_flatMap, TarFile.requests, List.mem_cons, List.not_mem_nil, or_false]
    constructor
    · intro h f hf hnil
      exact h.2 _ ⟨f, hf, .inr rfl⟩ (by rw [hnil]; rfl)
    · intro h
      refine ⟨hlen, ?_⟩
      rintro size ⟨f, hf, rfl | rfl⟩
      · decide
      · exact mt List.length_eq_zero_iff.mp (h f hf)
  rw [← hsizes, ← exists_foldlM_kmalloc]
  constructor
  · rintro ⟨turns, heap', disk, hinit, -⟩
    exact ((initrdInit_archive alloc hm).mp ⟨turns, heap', hinit⟩).1
  · intro h
    obtain ⟨turns, heap', hinit⟩ := (initrdInit_archive alloc hm).mpr ⟨h, rfl⟩
    refine ⟨turns, heap', _, hinit, fun f hf => ⟨f.entry, ?_, rfl, rfl⟩, fun name hname => ?_⟩
    · rw [initrdGetFile_entries]
      have hfind : files.find? (fun g => g.name.chars = f.name.chars) = some f := by
        obtain ⟨g, hg⟩ : ∃ g, files.find? (fun g => g.name.chars = f.name.chars) = some g :=
          Option.isSome_iff_exists.mp (List.find?_isSome.mpr ⟨f, hf, by simp⟩)
        have hdec := List.find?_some hg
        have heq : g.name.chars = f.name.chars := by simpa using hdec
        rw [hg, List.inj_on_of_nodup_map hnames (List.mem_of_find?_eq_some hg) hf heq]
      rw [hfind]
      rfl
    · rw [initrdGetFile_entries, List.find?_eq_none.mpr (by simpa using hname)]
      rfl

end Loads

/-- The kernel heap as the allocator. `pages` says which requests for a page it gets while it grows,
for each call; the calls are counted. -/
def kernelAlloc (pages : ℕ → ℕ → Bool) (s : KernelHeap.Heap × ℕ) (size : ℕ) :
    Option (KernelHeap.Heap × ℕ) :=
  match KernelHeap.heapAllocAligned (pages s.2) s.1 size KernelHeap.kmallocAlignment with
  | .ok (heap, _) => some (heap, s.2 + 1)
  | .error _ => none

/-- A file with the one-letter name `a`. -/
def fileA (content : List Byte) : TarFile where
  name := ⟨[97], by decide⟩
  name_ne := by decide
  name_le := by decide
  content := content
  owner := List.replicate 24 48
  length_owner := List.length_replicate ..
  rest := List.replicate 377 0
  length_rest := List.length_replicate ..

theorem loads_fileA : ∃ heap m, KernelHeap.bootHeap = .ok heap ∧
    m.bytes = archive [fileA [1, 2, 3]] ∧
    Loads (kernelAlloc fun _ _ => true) (heap, 0) m [fileA [1, 2, 3]] := by
  have hrun : (do
      let heap ← KernelHeap.bootHeap
      return ([2048, initrdFileSize, 3].foldlM (kernelAlloc fun _ _ => true) (heap, 0)).isSome :
        Except KernelHeap.Fault Bool) = .ok true := by decide +kernel
  obtain ⟨heap, hheap, hserves⟩ := bind_eq_ok.mp hrun
  have hlen : (archive [fileA [1, 2, 3]]).length = 2048 := by decide +kernel
  refine ⟨heap, ⟨0x200000, archive [fileA [1, 2, 3]], by rw [hlen]; decide⟩, hheap, rfl, ?_⟩
  refine (loads_iff _ (by decide) rfl).mpr ⟨?_, ?_⟩
  · intro f hf
    rw [List.mem_singleton.mp hf]
    exact List.cons_ne_nil _ _
  · rw [hlen]
    exact Except.ok.inj hserves

/-- An empty file cannot be loaded, whatever the heap. -/
theorem empty_file_not_loaded : ∃ m, m.bytes = archive [fileA []] ∧
    ∀ (σ : Type) (alloc : σ → ℕ → Option σ) (heap : σ), ¬ Loads alloc heap m [fileA []] := by
  refine ⟨⟨0x200000, archive [fileA []], by decide +kernel⟩, rfl, ?_⟩
  rintro σ alloc heap ⟨turns, heap', disk, hinit, -⟩
  obtain ⟨⟨heap'', hfold⟩, -⟩ := (initrdInit_archive alloc rfl).mp ⟨turns, heap', hinit⟩
  have hzero := (exists_foldlM_kmalloc alloc).mp ⟨heap'', hfold⟩
  exact hzero.1 0 (.tail _ (.tail _ (.head _))) rfl

end Rastapopoulos.Initrd
