import Rastapopoulos.Strings.Numerals

/-!
# The initial RAM disk

The model of `initrd.c`. The boot module is a range of memory; a byte can only be read inside it.
The allocator behind `kmalloc` is a parameter: it may refuse a request, but what it does depends on
nothing else here. The contents of a file are kept in its record, in place of the pointer to them.

The loop over the headers takes a number of turns that is not bounded in the source, so it is a
parameter too.
-/

namespace Rastapopoulos.Initrd

open Strings (Byte CString ch)

inductive Fault
  /-- A byte outside the module is read. -/
  | outside
  /-- The loop goes on. -/
  | turns
  | assertion (text : String)
  /-- The kernel heap has no block of the size. -/
  | exhausted
  | string (fault : Strings.Fault)
  deriving DecidableEq

/-! ## The boot module -/

/-- The bytes from `mod->start` up to `mod->end`. -/
structure Module where
  start : ℕ
  bytes : List Byte
  fits : start + bytes.length < wordMod

namespace Module

variable {m : Module} {addr : ℕ} {s t : List Byte} {c : Byte}

def read (m : Module) (addr : ℕ) : Except Fault Byte := do
  check (m.start ≤ addr) .outside
  match m.bytes[addr - m.start]? with
  | some c => return c
  | none => .error .outside

/-- `n` bytes from an address on. -/
def load (m : Module) (addr : ℕ) : ℕ → Except Fault (List Byte)
  | 0 => .ok []
  | n + 1 => do
    let c ← m.read addr
    return c :: (← m.load (addW addr 1) n)

/-- The characters that `strlcpy` reads, with `siz` bytes at the destination. -/
def string (m : Module) (src : ℕ) : ℕ → Except Fault (List Byte)
  | siz + 2 => do
    let c ← m.read src
    if c = 0 then return [] else return c :: (← m.string (addW src 1) (siz + 1))
  | _ => .ok []

theorem read_ends : Ends (m.read addr) (· = .outside) fun _ => True := by
  refine .check (fun _ => rfl) fun _ => ?_
  split
  · exact .ok trivial
  · exact .error rfl

theorem load_ends {n : ℕ} : Ends (m.load addr n) (· = .outside) fun s => s.length = n := by
  induction n generalizing addr with
  | zero => exact .ok rfl
  | succ n ih => exact read_ends.bind fun c _ => ih.bind fun s hs => .ok (congrArg Nat.succ hs)

/-- The characters end at a NUL, or where there is room for a NUL only. -/
theorem string_ends {siz : ℕ} (hsiz : 0 < siz) :
    Ends (m.string addr siz) (· = .outside) fun s => 0 ∉ s ∧ s.length < siz := by
  induction siz using Nat.twoStepInduction generalizing addr with
  | zero => exact absurd hsiz (by decide)
  | one => exact .ok ⟨List.not_mem_nil, hsiz⟩
  | more siz _ ih =>
    refine read_ends.bind fun c _ => ?_
    split
    · exact .ok ⟨List.not_mem_nil, hsiz⟩
    · rename_i hc
      refine (ih (Nat.succ_pos _)).bind fun s hs => .ok ⟨?_, Nat.succ_lt_succ hs.2⟩
      rw [List.mem_cons, not_or]
      exact ⟨Ne.symm hc, hs.1⟩

theorem string_ne_nil {siz : ℕ} (hc : m.read addr = .ok c) (hne : c ≠ 0)
    (h : m.string addr (siz + 2) = .ok s) : s ≠ [] := by
  rw [string, hc, ok_bind, if_neg hne, bind_eq_ok] at h
  obtain ⟨t, -, h⟩ := h
  cases h
  exact List.cons_ne_nil _ _

/-- The bytes that stand at an address. -/
def At (m : Module) (addr : ℕ) (s : List Byte) : Prop :=
  ∃ pre post, m.bytes = pre ++ s ++ post ∧ addr = m.start + pre.length

namespace At

theorem start (m : Module) : m.At m.start m.bytes := ⟨[], [], by simp, rfl⟩

theorem le (h : m.At addr s) : addr + s.length < wordMod := by
  obtain ⟨pre, post, hbytes, rfl⟩ := h
  have hfits := m.fits
  rw [hbytes] at hfits
  simp only [List.length_append] at hfits
  omega

theorem addW_eq (h : m.At addr s) {n : ℕ} (hn : n ≤ s.length) : addW addr n = addr + n :=
  addW_of_lt (by have := h.le; omega)

theorem left (h : m.At addr (s ++ t)) : m.At addr s := by
  obtain ⟨pre, post, hbytes, haddr⟩ := h
  exact ⟨pre, t ++ post, by rw [hbytes]; simp only [List.append_assoc], haddr⟩

theorem right (h : m.At addr (s ++ t)) : m.At (addr + s.length) t := by
  obtain ⟨pre, post, hbytes, haddr⟩ := h
  refine ⟨pre ++ s, post, by rw [hbytes]; simp only [List.append_assoc], ?_⟩
  rw [haddr, List.length_append, Nat.add_assoc]

theorem read (h : m.At addr (c :: s)) : m.read addr = .ok c := by
  obtain ⟨pre, post, hbytes, rfl⟩ := h
  rw [Module.read, check_of _ (Nat.le_add_right _ _), ok_bind, Nat.add_sub_cancel_left, hbytes,
    List.append_assoc, List.getElem?_append_right (le_refl _), Nat.sub_self]
  rfl

/-- What stands behind the first byte. -/
theorem tail (h : m.At addr (c :: s)) : m.At (addW addr 1) s := by
  rw [h.addW_eq (by simp)]
  exact At.right (s := [c]) h

theorem load (h : m.At addr s) : m.load addr s.length = .ok s := by
  induction s generalizing addr with
  | nil => rfl
  | cons c s ih => rw [List.length_cons, Module.load, h.read, ok_bind, ih h.tail, ok_bind, pure_eq_ok]

/-- A string in front of a NUL, if there is room for it. -/
theorem string (h : m.At addr (s ++ 0 :: t)) (hs : 0 ∉ s) {siz : ℕ} (hsiz : s.length + 1 ≤ siz) :
    m.string addr siz = .ok s := by
  induction s generalizing addr siz with
  | nil =>
    obtain _ | _ | siz := siz
    · rfl
    · rfl
    · rw [Module.string, h.read, ok_bind, if_pos rfl, pure_eq_ok]
  | cons c s ih =>
    rw [List.mem_cons, not_or] at hs
    rw [List.length_cons] at hsiz
    obtain ⟨siz, rfl⟩ : ∃ k, siz = k + 2 := ⟨siz - 2, by omega⟩
    rw [Module.string, At.read h, ok_bind, if_neg (Ne.symm hs.1), ih (At.tail h) hs.2 (by omega),
      ok_bind, pure_eq_ok]

end At

end Module

/-! ## Loading -/

/-- `strlcpy` to an array of zeros. -/
theorem strlcpy_zeros {s : List Byte} {k : ℕ} (hk : s.length < k) :
    Strings.strlcpy (List.replicate k 0) 0 s k = .ok (s ++ List.replicate (k - s.length) 0) := by
  have htake : s.take (k - 1) = s := List.take_of_length_le (by omega)
  have hroom : (s.take (k - 1)).length < (List.replicate k (0 : Byte)).length := by
    rw [htake, List.length_replicate]
    exact hk
  have hzeros : k - s.length = k - (s.length + 1) + 1 := by omega
  have hcopy := Strings.strlcpy_append [] hroom
  rw [htake, List.drop_replicate] at hcopy
  rw [hzeros, List.replicate_succ]
  exact hcopy

/-- `sizeof(struct initrd_file)` -/
def initrdFileSize : ℕ := 116

/-- `struct initrd_file` -/
structure InitrdFile where
  name : List Byte
  data : List Byte
  size : ℕ
  deriving DecidableEq

/-- The variables of `initrd.c`. -/
structure Disk where
  initrdSize : ℕ
  initrdData : List Byte
  files : List InitrdFile
  deriving DecidableEq

section Load

variable {σ : Type} (alloc : σ → ℕ → Option σ) {heap heap' : σ} {size : ℕ}

def kmalloc (heap : σ) (size : ℕ) : Except Fault σ := do
  check (size ≠ 0) (.assertion "size")
  match alloc heap size with
  | some heap => return heap
  | none => .error .exhausted

theorem kmalloc_eq_ok : kmalloc alloc heap size = .ok heap' ↔
    size ≠ 0 ∧ alloc heap size = some heap' := by
  rw [kmalloc, check_bind_eq_ok]
  refine and_congr_right fun _ => ?_
  cases alloc heap size with
  | none => exact ⟨nofun, nofun⟩
  | some heap'' => exact ⟨fun h => by cases h; rfl, fun h => by cases h; rfl⟩

/-- `in[j - 1] - '0'`; a `char` is signed. -/
def digitValue (c : Byte) : ℕ := ((c.toInt - 48) % wordMod).toNat

/-- The loop of `getsize`, on the characters it has yet to look at. -/
def getsizeLoop : List Byte → ℕ → ℕ → ℕ
  | [], size, _ => size
  | c :: rest, size, count =>
    getsizeLoop rest (addW size (digitValue c * count % wordMod)) (count * 8 % wordMod)

/-- `getsize`: the last of the eleven characters comes first. -/
def getsize (field : List Byte) : ℕ := getsizeLoop field.reverse 0 1

/-- The loop of `initrd_init`. -/
def tarWalk (m : Module) : ℕ → σ → List InitrdFile → ℕ → Except Fault (σ × List InitrdFile)
  | 0, _, _, _ => .error .turns
  | turns + 1, heap, files, hdr => do
    let c ← m.read hdr
    if c = 0 then return (heap, files)
    let size := getsize (← m.load (addW hdr 124) 11)
    let heap ← kmalloc alloc heap initrdFileSize
    let filename ← m.string hdr 100
    let name ← (Strings.strlcpy (List.replicate 100 0) 0 filename 100).mapError Fault.string
    let heap ← kmalloc alloc heap size
    let data ← m.load (addW hdr 512) size
    tarWalk m turns heap (files ++ [⟨name, data, size⟩])
      (addW (addW hdr 512) (alignUp size 512))

/-- **One turn**, at a header that can be read. -/
theorem tarWalk_succ {m : Module} {turns hdr : ℕ} {files : List InitrdFile} {c : Byte}
    {field filename : List Byte} (hfirst : m.read hdr = .ok c) (hc : c ≠ 0)
    (hfield : m.load (addW hdr 124) 11 = .ok field) (hname : m.string hdr 100 = .ok filename) :
    tarWalk alloc m (turns + 1) heap files hdr = (do
      let heap ← kmalloc alloc heap initrdFileSize
      let heap ← kmalloc alloc heap (getsize field)
      let data ← m.load (addW hdr 512) (getsize field)
      tarWalk alloc m turns heap
        (files ++ [⟨filename ++ List.replicate (100 - filename.length) 0, data, getsize field⟩])
        (addW (addW hdr 512) (alignUp (getsize field) 512))) := by
  have hlt : filename.length < 100 := ((Module.string_ends (by decide)).of_ok hname).2
  have hcopy : Strings.strlcpy (List.replicate 100 0) 0 filename 100 =
      .ok (filename ++ List.replicate (100 - filename.length) 0) := strlcpy_zeros hlt
  rw [tarWalk, hfirst, ok_bind, if_neg hc, hfield, ok_bind]
  simp only [hname, ok_bind, hcopy, Except.mapError]

/-- `initrd_init`; there may be no module. -/
def initrdInit (turns : ℕ) (heap : σ) : Option Module → Except Fault (σ × Disk)
  | none => .ok (heap, ⟨0, [], []⟩)
  | some m => do
    let heap ← kmalloc alloc heap m.bytes.length
    let data ← m.load m.start m.bytes.length
    let (heap, files) ← tarWalk alloc m turns heap [] m.start
    return (heap, ⟨m.bytes.length, data, files⟩)

end Load

/-! ## Looking up -/

/-- The loop of `initrd_get_file`. -/
def getFileLoop (name : List Byte) : List InitrdFile → Except Strings.Fault (Option InitrdFile)
  | [] => .ok none
  | file :: files => do
    if (← Strings.strcmp file.name name) = 0 then return some file
    else getFileLoop name files

/-- `initrd_get_file`, for a string with a NUL behind it. -/
def initrdGetFile (initrd : Disk) (name : CString) : Except Strings.Fault (Option InitrdFile) :=
  getFileLoop (name.chars ++ [0]) initrd.files

end Rastapopoulos.Initrd
