import Mathlib.Data.List.Nodup
import Rastapopoulos.Strings.Basic

/-!
# The file server

The model of `vfs.c`: a table of processes, each with the descriptors it has opened, and the
handlers of the requests. The FAT code is behind `f_open` and `f_read`, whose outcomes come with a
request; the contents of a `FIL` are an arbitrary type.

A process is entered into the table at its first `open` and never leaves it, and its descriptors are
numbered by a counter of its own. So in every state that requests can lead to, no process is in the
table twice and no two descriptors of a process have the same number (`reach_inv`).
-/

namespace Rastapopoulos.Vfs

open Strings (CString)

abbrev Byte := BitVec 8

abbrev Word := BitVec 32

/-! ## The FAT code -/

/-- `FRESULT` -/
inductive FResult
  | ok
  | diskErr
  | intErr
  | notReady
  | noFile
  | noPath
  | invalidName
  | denied
  | exist
  | invalidObject
  | writeProtected
  | invalidDrive
  | notEnabled
  | noFilesystem
  | mkfsAborted
  | timeout
  | locked
  | notEnoughCore
  | tooManyOpenFiles
  | invalidParameter
  deriving DecidableEq, Repr

/-- What `f_read` leaves behind: its result, the file, the buffer and the number of bytes that it
reports, which are at most those it was asked for. -/
structure ReadOutcome (File : Type) (buffer : List Byte) (size : ℕ) where
  result : FResult
  hfile : File
  bytes : List Byte
  length_bytes : bytes.length = buffer.length
  readBytes : ℕ
  readBytes_le : readBytes ≤ size

/-- `f_read`, at one call. -/
def FRead (File : Type) : Type :=
  File → (buffer : List Byte) → (size : ℕ) → ReadOutcome File buffer size

/-- `f_open`, at one call. -/
def FOpen (File : Type) : Type := CString → FResult × File

/-! ## The tables -/

/-- `INVALID_FD` -/
def invalidFd : Word := -1

/-- `INVALID_PID` -/
def invalidPid : Word := -1

/-- `O_RDONLY` -/
def oRdonly : Word := 1

/-- `struct descriptor` -/
structure Descriptor (File : Type) where
  fd : Word
  pos : Word
  mode : Word
  hfile : File
  deriving DecidableEq

/-- `struct procinfo` -/
structure ProcInfo (File : Type) where
  pid : Word
  nextFd : Word
  descriptors : List (Descriptor File)
  deriving DecidableEq

/-- The variables of `vfs.c`. -/
structure Tables (File : Type) where
  procInfos : List (ProcInfo File)
  deriving DecidableEq

/-- The server does not return from a handler. -/
inductive Fault
  /-- A failed assertion, which reboots the machine. -/
  | assertion (text : String)
  /-- The memory that `malloc` did not give is written to. -/
  | nullPointer
  deriving DecidableEq

section Model

variable {File : Type}

/-- `malloc` and the `memset` behind it, with memory for so many blocks: what is left. -/
def malloc (blocks : ℕ) : Except Fault ℕ := do
  check (0 < blocks) .nullPointer
  return blocks - 1

def nextFd (pi : ProcInfo File) : Except Fault (Word × ProcInfo File) := do
  let result := pi.nextFd
  check (0 ≤ result.toInt) (.assertion "result >= 0")
  return (result, { pi with nextFd := result + 1 })

/-- `descriptor_create`, with the fields that `open_fn` fills in. -/
def descriptorCreate (pi : ProcInfo File) (blocks : ℕ) (mode : Word) (hfile : File) :
    Except Fault (Word × ProcInfo File) := do
  let _ ← malloc blocks
  let (fd, pi) ← nextFd pi
  return (fd, { pi with descriptors := pi.descriptors ++ [⟨fd, 0, mode, hfile⟩] })

def descriptorGet (pi : ProcInfo File) (fd : Word) : Option (Descriptor File) :=
  pi.descriptors.find? fun desc => desc.fd = fd

def descriptorDestroy (pi : ProcInfo File) (desc : Descriptor File) : ProcInfo File :=
  { pi with descriptors := pi.descriptors.eraseP fun d => d.fd = desc.fd }

/-- The file of a descriptor changes. -/
def ProcInfo.setFile (pi : ProcInfo File) (fd : Word) (hfile : File) : ProcInfo File :=
  { pi with
    descriptors := pi.descriptors.map fun desc =>
      if desc.fd = fd then { desc with hfile := hfile } else desc }

/-- The entry of a process changes. -/
def Tables.put (s : Tables File) (pi : ProcInfo File) : Tables File :=
  ⟨s.procInfos.map fun pi' => if pi'.pid = pi.pid then pi else pi'⟩

/-- The entry of a process, by the loop of `procinfo_get`. -/
def Tables.find (s : Tables File) (pid : Word) : Option (ProcInfo File) :=
  s.procInfos.find? fun pi => pi.pid = pid

/-- `procinfo_create`: the new entry, the tables and the memory left. -/
def procinfoCreate (s : Tables File) (pid : Word) (blocks : ℕ) :
    Except Fault (ProcInfo File × Tables File × ℕ) := do
  check (pid ≠ invalidPid) (.assertion "pid != INVALID_PID")
  check (s.find pid = none) (.assertion "!\"procinfo already exists\"")
  let blocks ← malloc blocks
  let pi := ⟨pid, 0, []⟩
  return (pi, ⟨s.procInfos ++ [pi]⟩, blocks)

def procinfoGet (s : Tables File) (pid : Word) : Except Fault (Option (ProcInfo File)) := do
  check (pid ≠ invalidPid) (.assertion "pid != INVALID_PID")
  return s.find pid

/-! ## The functions -/

def openFn (fOpen : FOpen File) (pi : ProcInfo File) (blocks : ℕ) (filename : CString)
    (mode _perm : Word) : Except Fault (Word × ProcInfo File) := do
  check (mode = oRdonly) (.assertion "mode == O_RDONLY")
  let (fres, hfile) := fOpen filename
  if fres ≠ .ok then return (-1, pi)
  descriptorCreate pi blocks mode hfile

def closeFn (pi : ProcInfo File) (fd : Word) : Except Fault (Word × ProcInfo File) :=
  match descriptorGet pi fd with
  | none => .error (.assertion "desc")
  | some desc => do
    check (desc.fd = fd) (.assertion "desc->fd == fd")
    return (0, descriptorDestroy pi desc)

/-- `read_fn`: the result, the buffer and the table. -/
def readFn (fRead : FRead File) (pi : ProcInfo File) (fd : Word) (buffer : List Byte) (size : Word) :
    Word × List Byte × ProcInfo File :=
  if fd = invalidFd then (-1, buffer, pi)
  else if size = 0 then (0, buffer, pi)
  else
    match descriptorGet pi fd with
    | none => (-1, buffer, pi)
    | some desc =>
      let r := fRead desc.hfile buffer size.toNat
      let pi := pi.setFile fd r.hfile
      if r.result ≠ .ok then (-1, r.bytes, pi) else (BitVec.ofNat 32 r.readBytes, r.bytes, pi)

def writeFn (_fd _size : Word) : Word := -1

/-! ## The handlers -/

/-- The entry of the sender of an `open`, made if there is none. -/
def senderInfo (s : Tables File) (senderPid : Word) (blocks : ℕ) :
    Except Fault (ProcInfo File × Tables File × ℕ) := do
  match ← procinfoGet s senderPid with
  | some pi => return (pi, s, blocks)
  | none => procinfoCreate s senderPid blocks

/-- `handle_vfs_open`. `taskInfo` is what `get_task_info` returns. -/
def handleVfsOpen (fOpen : FOpen File) (taskInfo : Bool) (blocks : ℕ) (s : Tables File)
    (senderPid : Word) (filename : CString) (openMode createPerms : Word) :
    Except Fault (Word × Tables File) := do
  let (pi, s, blocks) ← senderInfo s senderPid blocks
  -- in another mode, `get_task_info` is called for the trace
  check (openMode = oRdonly ∨ taskInfo = true) (.assertion "ret != false")
  let (fd, pi) ← openFn fOpen pi blocks filename openMode createPerms
  return (fd, s.put pi)

/-- The entry of the sender of another request, which has to be there. -/
def knownSender (s : Tables File) (senderPid : Word) : Except Fault (ProcInfo File) := do
  match ← procinfoGet s senderPid with
  | some pi => return pi
  | none => .error (.assertion "pi != NULL")

def handleVfsClose (s : Tables File) (senderPid fd : Word) : Except Fault (Word × Tables File) := do
  let pi ← knownSender s senderPid
  let (retcode, pi) ← closeFn pi fd
  return (retcode, s.put pi)

/-- The `size` that is left when it is cut to the buffer: the comparison is one of unsigned
numbers. -/
def clampedSize (size bufferSize : Word) : Word := if bufferSize < size then bufferSize else size

/-- `handle_vfs_read`: the result, the buffer, `*buffer_size` and the tables. -/
def handleVfsRead (fRead : FRead File) (s : Tables File) (senderPid : Word) (buffer : List Byte)
    (bufferSize fd size : Word) : Except Fault (Word × List Byte × Word × Tables File) := do
  let pi ← knownSender s senderPid
  let (readSize, buffer, pi) := readFn fRead pi fd buffer (clampedSize size bufferSize)
  return (readSize, buffer, readSize, s.put pi)

def handleVfsWrite (s : Tables File) (senderPid fd size bufferSize : Word) : Except Fault Word := do
  let _ ← knownSender s senderPid
  return writeFn fd (clampedSize size bufferSize)

/-- A request, with what the handler gets from outside. -/
inductive Request (File : Type)
  | vfsOpen (fOpen : FOpen File) (taskInfo : Bool) (blocks : ℕ) (senderPid : Word)
      (filename : CString) (openMode createPerms : Word)
  | vfsClose (senderPid fd : Word)
  | vfsRead (fRead : FRead File) (senderPid : Word) (buffer : List Byte) (bufferSize fd size : Word)
  | vfsWrite (senderPid fd size bufferSize : Word)

/-- The handler of a request: the result and the tables. -/
def handle (s : Tables File) : Request File → Except Fault (Word × Tables File)
  | .vfsOpen fOpen taskInfo blocks senderPid filename openMode createPerms =>
    handleVfsOpen fOpen taskInfo blocks s senderPid filename openMode createPerms
  | .vfsClose senderPid fd => handleVfsClose s senderPid fd
  | .vfsRead fRead senderPid buffer bufferSize fd size => do
    let r ← handleVfsRead fRead s senderPid buffer bufferSize fd size
    return (r.1, r.2.2.2)
  | .vfsWrite senderPid fd size bufferSize => do
    let r ← handleVfsWrite s senderPid fd size bufferSize
    return (r, s)

/-- A turn of the server. -/
def step (s : Tables File) (request : Request File) : Except Fault (Tables File) := do
  return (← handle s request).2

/-- The tables at the start. -/
def Tables.empty : Tables File := ⟨[]⟩

/-! ## When a handler returns -/

variable {s s' s₁ : Tables File} {pi pi' : ProcInfo File} {desc : Descriptor File}
  {pid fd r mode perm size bufferSize : Word} {hfile : File} {filename : CString}
  {fOpen : FOpen File} {fRead : FRead File} {taskInfo : Bool} {blocks blocks' : ℕ}
  {buffer : List Byte}

theorem find_eq_some (h : s.find pid = some pi) : pi ∈ s.procInfos ∧ pi.pid = pid :=
  ⟨List.mem_of_find?_eq_some h, by simpa using List.find?_some h⟩

theorem descriptorGet_eq_some (h : descriptorGet pi fd = some desc) :
    desc ∈ pi.descriptors ∧ desc.fd = fd :=
  ⟨List.mem_of_find?_eq_some h, by simpa using List.find?_some h⟩

/-- The number of a new descriptor is the counter. -/
theorem descriptorCreate_eq_ok : descriptorCreate pi blocks mode hfile = .ok (fd, pi') ↔
    0 < blocks ∧ pi.nextFd.toNat < 2 ^ 31 ∧ fd = pi.nextFd ∧
      pi' = ⟨pi.pid, pi.nextFd + 1, pi.descriptors ++ [⟨pi.nextFd, 0, mode, hfile⟩]⟩ := by
  simp only [descriptorCreate, malloc, nextFd, toInt_nonneg_iff, bind_eq_ok, check_eq_ok]
  constructor
  · rintro ⟨_, ⟨-, hblocks, -⟩, _, ⟨-, hlt, hfd⟩, hok⟩
    cases hfd
    cases hok
    exact ⟨hblocks, hlt, rfl, rfl⟩
  · rintro ⟨hblocks, hlt, rfl, rfl⟩
    exact ⟨_, ⟨⟨⟩, hblocks, rfl⟩, _, ⟨⟨⟩, hlt, rfl⟩, rfl⟩

theorem procinfoGet_eq_ok {result : Option (ProcInfo File)} :
    procinfoGet s pid = .ok result ↔ pid ≠ invalidPid ∧ result = s.find pid := by
  rw [procinfoGet, check_bind_eq_ok, pure_inj, @eq_comm _ result]

theorem senderInfo_eq_ok : senderInfo s pid blocks = .ok (pi, s₁, blocks') ↔ pid ≠ invalidPid ∧
    (s.find pid = some pi ∧ s₁ = s ∧ blocks' = blocks ∨
      s.find pid = none ∧ 0 < blocks ∧ pi = ⟨pid, 0, []⟩ ∧ s₁ = ⟨s.procInfos ++ [⟨pid, 0, []⟩]⟩ ∧
        blocks' = blocks - 1) := by
  rw [senderInfo, bind_eq_ok]
  simp only [procinfoGet_eq_ok, and_assoc, exists_eq_left, exists_and_left]
  refine and_congr_right fun hpid => ?_
  cases hfind : s.find pid with
  | some pi' => simp [eq_comm]
  | none =>
    simp only [procinfoCreate, malloc, bind_eq_ok, check_eq_ok]
    constructor
    · rintro ⟨-, -, -, -, _, ⟨-, hblocks, hleft⟩, hok⟩
      cases hleft
      cases hok
      exact .inr ⟨trivial, hblocks, rfl, rfl, rfl⟩
    · rintro (⟨h, -⟩ | ⟨-, hblocks, rfl, rfl, rfl⟩)
      · cases h
      · exact ⟨⟨⟩, hpid, ⟨⟩, hfind, _, ⟨⟨⟩, hblocks, rfl⟩, rfl⟩

theorem knownSender_eq_ok :
    knownSender s pid = .ok pi ↔ pid ≠ invalidPid ∧ s.find pid = some pi := by
  rw [knownSender, bind_eq_ok]
  simp only [procinfoGet_eq_ok, and_assoc, exists_eq_left, exists_and_left]
  refine and_congr_right fun _ => ?_
  cases s.find pid <;> simp

theorem closeFn_eq_ok : closeFn pi fd = .ok (r, pi') ↔
    ∃ desc, descriptorGet pi fd = some desc ∧ r = 0 ∧ pi' = descriptorDestroy pi desc := by
  rw [closeFn]
  cases hget : descriptorGet pi fd with
  | none => simp
  | some desc =>
    simp only [check_of _ (descriptorGet_eq_some hget).2, ok_bind, pure_inj,
      Prod.mk.injEq, Option.some.injEq, exists_eq_left', @eq_comm _ r, @eq_comm _ pi']

theorem openFn_eq_ok : openFn fOpen pi blocks filename mode perm = .ok (r, pi') ↔
    mode = oRdonly ∧ ((fOpen filename).1 ≠ .ok ∧ r = -1 ∧ pi' = pi ∨
      (fOpen filename).1 = .ok ∧
        descriptorCreate pi blocks mode (fOpen filename).2 = .ok (r, pi')) := by
  rw [openFn, check_bind_eq_ok]
  refine and_congr_right fun _ => ?_
  by_cases hres : (fOpen filename).1 = .ok
  · simp [hres]
  · simp [hres, eq_comm]

theorem handleVfsOpen_eq_ok :
    handleVfsOpen fOpen taskInfo blocks s pid filename mode perm = .ok (r, s') ↔
      ∃ pi s₁ blocks' pi', senderInfo s pid blocks = .ok (pi, s₁, blocks') ∧
        openFn fOpen pi blocks' filename mode perm = .ok (r, pi') ∧ s' = s₁.put pi' := by
  simp only [handleVfsOpen, bind_eq_ok]
  constructor
  · rintro ⟨⟨pi, s₁, blocks'⟩, hinfo, _, -, ⟨fd, pi'⟩, hopen, hok⟩
    cases hok
    exact ⟨pi, s₁, blocks', pi', hinfo, hopen, rfl⟩
  · rintro ⟨pi, s₁, blocks', pi', hinfo, hopen, rfl⟩
    exact ⟨_, hinfo, ⟨⟩, check_of _ (.inl (openFn_eq_ok.mp hopen).1), _, hopen, rfl⟩

theorem handleVfsClose_eq_ok : handleVfsClose s pid fd = .ok (r, s') ↔ pid ≠ invalidPid ∧
    ∃ pi desc, s.find pid = some pi ∧ descriptorGet pi fd = some desc ∧ r = 0 ∧
      s' = s.put (descriptorDestroy pi desc) := by
  simp only [handleVfsClose, bind_eq_ok, knownSender_eq_ok]
  constructor
  · rintro ⟨pi, ⟨hpid, hfind⟩, ⟨_, pi'⟩, hclose, hok⟩
    obtain ⟨desc, hget, rfl, rfl⟩ := closeFn_eq_ok.mp hclose
    cases hok
    exact ⟨hpid, pi, desc, hfind, hget, rfl, rfl⟩
  · rintro ⟨hpid, pi, desc, hfind, hget, rfl, rfl⟩
    exact ⟨pi, ⟨hpid, hfind⟩, _, closeFn_eq_ok.mpr ⟨desc, hget, rfl, rfl⟩, rfl⟩

theorem handleVfsRead_eq_ok {result : Word × List Byte × Word × Tables File} :
    handleVfsRead fRead s pid buffer bufferSize fd size = .ok result ↔ pid ≠ invalidPid ∧
      ∃ pi, s.find pid = some pi ∧
        let q := readFn fRead pi fd buffer (clampedSize size bufferSize)
        result = (q.1, q.2.1, q.1, s.put q.2.2) := by
  simp only [handleVfsRead, bind_eq_ok, knownSender_eq_ok, and_assoc, exists_and_left, pure_eq_ok,
    Except.ok.injEq, @eq_comm _ result]

theorem handleVfsWrite_eq_ok : handleVfsWrite s pid fd size bufferSize = .ok r ↔
    pid ≠ invalidPid ∧ (∃ pi, s.find pid = some pi) ∧ r = -1 := by
  simp only [handleVfsWrite, writeFn, bind_eq_ok, knownSender_eq_ok, and_assoc, exists_and_left,
    exists_and_right, pure_inj, @eq_comm _ r]

/-! ## The invariant -/

/-- The descriptors of a process have numbers that its counter has passed, and no two the same. -/
structure ProcInfo.Inv (pi : ProcInfo File) : Prop where
  pid : pi.pid ≠ invalidPid
  nextFd : pi.nextFd.toNat ≤ 2 ^ 31
  fd_lt : ∀ desc ∈ pi.descriptors, desc.fd.toNat < pi.nextFd.toNat
  nodup : (pi.descriptors.map Descriptor.fd).Nodup

structure Tables.Inv (s : Tables File) : Prop where
  nodup : (s.procInfos.map ProcInfo.pid).Nodup
  procInfos : ∀ pi ∈ s.procInfos, pi.Inv

/-! ### The steps keep it -/

theorem ProcInfo.Inv.setFile (h : pi.Inv) (fd : Word) (hfile : File) : (pi.setFile fd hfile).Inv := by
  have hfds : (pi.setFile fd hfile).descriptors.map Descriptor.fd =
      pi.descriptors.map Descriptor.fd := by
    simp only [ProcInfo.setFile, List.map_map]
    refine List.map_congr_left fun desc _ => ?_
    by_cases hfd : desc.fd = fd <;> simp [hfd]
  refine ⟨h.pid, h.nextFd, ?_, hfds ▸ h.nodup⟩
  intro desc hdesc
  obtain ⟨desc', hmem, heq⟩ := List.mem_map.mp (hfds ▸ List.mem_map_of_mem hdesc)
  exact heq ▸ h.fd_lt desc' hmem

theorem ProcInfo.Inv.destroy (h : pi.Inv) (desc : Descriptor File) :
    (descriptorDestroy pi desc).Inv := by
  have hsub : (descriptorDestroy pi desc).descriptors.Sublist pi.descriptors :=
    List.eraseP_sublist
  exact ⟨h.pid, h.nextFd, fun d hd => h.fd_lt d (hsub.subset hd), h.nodup.sublist (hsub.map _)⟩

theorem ProcInfo.Inv.create (h : pi.Inv)
    (hok : descriptorCreate pi blocks mode hfile = .ok (fd, pi')) : pi'.Inv := by
  obtain ⟨-, hlt, rfl, rfl⟩ := descriptorCreate_eq_ok.mp hok
  have hnext : (pi.nextFd + 1).toNat = pi.nextFd.toNat + 1 := by
    rw [BitVec.toNat_add]
    exact Nat.mod_eq_of_lt (by simp; omega)
  refine ⟨h.pid, by rw [hnext]; exact hlt, ?_, ?_⟩
  · intro desc hdesc
    rw [hnext]
    rcases List.mem_append.mp hdesc with hdesc | hdesc
    · exact (h.fd_lt desc hdesc).trans (Nat.lt_succ_self _)
    · rw [List.mem_singleton.mp hdesc]
      exact Nat.lt_succ_self _
  · rw [List.map_append, List.nodup_append]
    refine ⟨h.nodup, List.nodup_singleton _, ?_⟩
    intro fd hfd fd' hfd'
    obtain ⟨desc, hdesc, rfl⟩ := List.mem_map.mp hfd
    rw [List.mem_singleton.mp hfd']
    intro heq
    exact absurd (h.fd_lt desc hdesc) (by rw [heq]; exact lt_irrefl _)

theorem Tables.Inv.put (h : s.Inv) (hpi : pi.Inv) : (s.put pi).Inv := by
  have hpids : (s.put pi).procInfos.map ProcInfo.pid = s.procInfos.map ProcInfo.pid := by
    simp only [Tables.put, List.map_map]
    refine List.map_congr_left fun pi' _ => ?_
    by_cases hpid : pi'.pid = pi.pid <;> simp [hpid]
  refine ⟨hpids ▸ h.nodup, ?_⟩
  intro pi' hpi'
  obtain ⟨pi'', hmem, rfl⟩ := List.mem_map.mp hpi'
  split
  · exact hpi
  · exact h.procInfos pi'' hmem

/-- Putting back an entry that has not changed changes nothing. -/
theorem Tables.Inv.put_self (h : s.Inv) (hfind : s.find pid = some pi) : s.put pi = s := by
  obtain ⟨hmem, -⟩ := find_eq_some hfind
  have hmap : s.procInfos.map (fun pi' => if pi'.pid = pi.pid then pi else pi') = s.procInfos := by
    conv_rhs => rw [← List.map_id s.procInfos]
    refine List.map_congr_left fun pi' hmem' => ?_
    split
    · rename_i hpid
      exact (List.inj_on_of_nodup_map h.nodup hmem' hmem hpid).symm
    · rfl
  exact congrArg Tables.mk hmap

/-- The entry of a sender, new or old. -/
theorem senderInfo_inv (h : s.Inv) (hok : senderInfo s pid blocks = .ok (pi, s₁, blocks')) :
    s₁.Inv ∧ pi.Inv := by
  obtain ⟨hpid, ⟨hfind, rfl, -⟩ | ⟨hfind, -, rfl, rfl, -⟩⟩ := senderInfo_eq_ok.mp hok
  · exact ⟨h, h.procInfos _ (find_eq_some hfind).1⟩
  · have hnew : (⟨pid, 0, []⟩ : ProcInfo File).Inv := ⟨hpid, by simp, by simp, by simp⟩
    refine ⟨⟨?_, ?_⟩, hnew⟩
    · rw [List.map_append, List.nodup_append]
      refine ⟨h.nodup, List.nodup_singleton _, ?_⟩
      intro pid' hpid' pid'' hpid'' heq
      obtain ⟨pi', hmem, rfl⟩ := List.mem_map.mp hpid'
      rw [List.mem_singleton.mp hpid''] at heq
      exact absurd heq (by simpa using List.find?_eq_none.mp hfind pi' hmem)
    · intro pi' hmem
      rcases List.mem_append.mp hmem with hmem | hmem
      · exact h.procInfos pi' hmem
      · rw [List.mem_singleton.mp hmem]
        exact hnew

theorem openFn_inv (h : pi.Inv) (hok : openFn fOpen pi blocks filename mode perm = .ok (fd, pi')) :
    pi'.Inv := by
  obtain ⟨-, ⟨-, -, rfl⟩ | ⟨-, hcreate⟩⟩ := openFn_eq_ok.mp hok
  · exact h
  · exact h.create hcreate

theorem readFn_inv (fRead : FRead File) (h : pi.Inv) (fd : Word) (buffer : List Byte) (size : Word) :
    (readFn fRead pi fd buffer size).2.2.Inv := by
  unfold readFn
  split
  · exact h
  · split
    · exact h
    · split
      · exact h
      · dsimp only
        split <;> exact h.setFile fd _

/-- **A turn** keeps the tables in order. -/
theorem step_inv {request : Request File} (h : s.Inv) (hstep : step s request = .ok s') :
    s'.Inv := by
  obtain ⟨r, hr, hs'⟩ := bind_eq_ok.mp hstep
  cases hs'
  cases request with
  | vfsOpen fOpen taskInfo blocks senderPid filename openMode createPerms =>
    obtain ⟨pi, s₁, blocks', pi', hinfo, hopen, hput⟩ := handleVfsOpen_eq_ok.mp hr
    obtain ⟨hs₁, hpi⟩ := senderInfo_inv h hinfo
    rw [hput]
    exact hs₁.put (openFn_inv hpi hopen)
  | vfsClose senderPid fd =>
    obtain ⟨-, pi, desc, hfind, -, -, hput⟩ := handleVfsClose_eq_ok.mp hr
    rw [hput]
    exact h.put ((h.procInfos pi (find_eq_some hfind).1).destroy desc)
  | vfsRead fRead senderPid buffer bufferSize fd size =>
    obtain ⟨result, hread, hr⟩ := bind_eq_ok.mp hr
    cases hr
    obtain ⟨-, pi, hfind, rfl⟩ := handleVfsRead_eq_ok.mp hread
    exact h.put (readFn_inv fRead (h.procInfos pi (find_eq_some hfind).1) fd buffer _)
  | vfsWrite senderPid fd size bufferSize =>
    obtain ⟨_, -, hr⟩ := bind_eq_ok.mp hr
    cases hr
    exact h

/-- **The tables are in order** in every state that requests lead to. -/
theorem reach_inv (h : Reach step (fun _ _ => True) Tables.empty s) : s.Inv :=
  h.invariant ⟨List.nodup_nil, by simp [Tables.empty]⟩ fun _ _ _ hs _ hstep => step_inv hs hstep

end Model

end Rastapopoulos.Vfs
