import Rastapopoulos.Rpc.Stub
import Rastapopoulos.Vfs.Basic

/-!
# Requests to the file server

What a client gets for a request that cannot be served. Only some of the checks in `vfs.c` return an
error: an `open` with another mode than `O_RDONLY`, a `close` of a descriptor that is not open, and
any request but `open` of a process that has not opened anything yet, end at an assertion. The
requests that are answered as they should be are exactly those of `Request.Accepted` (`clean_iff`).

A `read` that fails has a result of -1, which is also stored as the size of the data that are sent
back; so the marshaller goes beyond its buffer, unless the read is answered with data (`fits_iff`).
-/

namespace Rastapopoulos.Vfs

section Clean

variable {File : Type} {s s' : Tables File} {pi pi' : ProcInfo File} {desc : Descriptor File}
  {pid fd size : Word} {buffer : List Byte} {fRead : FRead File}

/-! ## Requests that fail cleanly -/

/-- The descriptors that a process has open. -/
def Tables.descriptors (s : Tables File) (pid : Word) : List (Descriptor File) :=
  ((s.find pid).map ProcInfo.descriptors).getD []

def Tables.Opens (s : Tables File) (pid fd : Word) : Prop :=
  ∃ desc ∈ s.descriptors pid, desc.fd = fd

/-- The request is for a mode that is not supported, or for a descriptor that the sender does not
have open. -/
def Request.Invalid (s : Tables File) : Request File → Prop
  | .vfsOpen _ _ _ _ _ openMode _ => openMode ≠ oRdonly
  | .vfsClose senderPid fd => ¬ s.Opens senderPid fd
  | .vfsRead _ senderPid _ _ fd _ => ¬ s.Opens senderPid fd
  | .vfsWrite senderPid fd _ _ => ¬ s.Opens senderPid fd

/-- The handler returns, and if the request is not valid it returns -1 and leaves the descriptors of
all processes as they are. -/
def Clean (s : Tables File) (request : Request File) : Prop :=
  ∃ r s', handle s request = .ok (r, s') ∧
    (request.Invalid s → r = -1 ∧ ∀ pid, s'.descriptors pid = s.descriptors pid)

/-- The memory that an `open` takes: for the sender's entry if it has none, and for the descriptor
if the file can be opened. -/
def blocksNeeded (s : Tables File) (senderPid : Word) (fres : FResult) : ℕ :=
  (if (s.find senderPid).isSome then 0 else 1) + if fres = .ok then 1 else 0

/-- The number that the next descriptor of a process gets. -/
def Tables.nextFd (s : Tables File) (pid : Word) : Word :=
  ((s.find pid).map ProcInfo.nextFd).getD 0

/-- The requests that no assertion is in the way of. -/
def Request.Accepted (s : Tables File) : Request File → Prop
  | .vfsOpen fOpen _ blocks senderPid filename openMode _ =>
    openMode = oRdonly ∧ senderPid ≠ invalidPid ∧
      blocksNeeded s senderPid (fOpen filename).1 ≤ blocks ∧
      ((fOpen filename).1 = .ok → (s.nextFd senderPid).toNat < 2 ^ 31)
  | .vfsClose senderPid fd => s.Opens senderPid fd
  | .vfsRead _ senderPid _ bufferSize fd size =>
    (s.find senderPid).isSome ∧
      -- a read of nothing succeeds for any descriptor but `INVALID_FD`
      (s.Opens senderPid fd ∨ fd = invalidFd ∨ clampedSize size bufferSize ≠ 0)
  | .vfsWrite senderPid _ _ _ => (s.find senderPid).isSome

theorem opens_iff : s.Opens pid fd ↔
    ∃ pi desc, s.find pid = some pi ∧ descriptorGet pi fd = some desc := by
  unfold Tables.Opens Tables.descriptors
  cases s.find pid with
  | none => simp
  | some pi =>
    simp only [Option.map_some, Option.getD_some, Option.some.injEq, exists_and_left,
      exists_eq_left', descriptorGet]
    rw [← Option.isSome_iff_exists, List.find?_isSome]
    simp

/-- Opening a file, for a sender that has an entry. -/
theorem exists_openFn {fOpen : FOpen File} {blocks : ℕ} {filename : Strings.CString}
    {mode perm : Word} : (∃ r, openFn fOpen pi blocks filename mode perm = .ok r) ↔
      mode = oRdonly ∧ ((fOpen filename).1 = .ok → 0 < blocks ∧ pi.nextFd.toNat < 2 ^ 31) := by
  constructor
  · rintro ⟨⟨r, pi'⟩, hok⟩
    obtain ⟨hmode, ⟨hne, -⟩ | ⟨-, hcreate⟩⟩ := openFn_eq_ok.mp hok
    · exact ⟨hmode, fun hres => absurd hres hne⟩
    · obtain ⟨hblocks, hlt, -⟩ := descriptorCreate_eq_ok.mp hcreate
      exact ⟨hmode, fun _ => ⟨hblocks, hlt⟩⟩
  · rintro ⟨hmode, hok⟩
    by_cases hres : (fOpen filename).1 = .ok
    · obtain ⟨hblocks, hlt⟩ := hok hres
      exact ⟨(_, _), openFn_eq_ok.mpr
        ⟨hmode, .inr ⟨hres, descriptorCreate_eq_ok.mpr ⟨hblocks, hlt, rfl, rfl⟩⟩⟩⟩
    · exact ⟨(_, _), openFn_eq_ok.mpr ⟨hmode, .inl ⟨hres, rfl, rfl⟩⟩⟩

/-- **Opening** a file. -/
theorem exists_handleVfsOpen (fOpen : FOpen File) (taskInfo : Bool) (blocks : ℕ)
    (filename : Strings.CString) (mode perm : Word) :
    (∃ r, handleVfsOpen fOpen taskInfo blocks s pid filename mode perm = .ok r) ↔
      mode = oRdonly ∧ pid ≠ invalidPid ∧ blocksNeeded s pid (fOpen filename).1 ≤ blocks ∧
        ((fOpen filename).1 = .ok → (s.nextFd pid).toNat < 2 ^ 31) := by
  have hopen : (∃ r, handleVfsOpen fOpen taskInfo blocks s pid filename mode perm = .ok r) ↔
      ∃ pi s₁ blocks', senderInfo s pid blocks = .ok (pi, s₁, blocks') ∧
        ∃ r, openFn fOpen pi blocks' filename mode perm = .ok r := by
    constructor
    · rintro ⟨⟨r, s'⟩, hok⟩
      obtain ⟨pi, s₁, blocks', pi', hinfo, hopen, -⟩ := handleVfsOpen_eq_ok.mp hok
      exact ⟨pi, s₁, blocks', hinfo, _, hopen⟩
    · rintro ⟨pi, s₁, blocks', hinfo, ⟨r, pi'⟩, hopen⟩
      exact ⟨(_, _), handleVfsOpen_eq_ok.mpr ⟨pi, s₁, blocks', pi', hinfo, hopen, rfl⟩⟩
  rw [hopen]
  simp only [exists_openFn, senderInfo_eq_ok, blocksNeeded, Tables.nextFd]
  cases hfind : s.find pid with
  | some pi =>
    constructor
    · rintro ⟨_, _, _, ⟨hpid, ⟨hpi, -, rfl⟩ | ⟨hnone, -⟩⟩, hmode, hok⟩
      · cases hpi
        refine ⟨hmode, hpid, ?_, fun hres => (hok hres).2⟩
        by_cases hres : (fOpen filename).1 = .ok
        · simpa [hres] using Nat.succ_le_of_lt (hok hres).1
        · simp [hres]
      · cases hnone
    · rintro ⟨hmode, hpid, hblocks, hlt⟩
      refine ⟨pi, s, blocks, ⟨hpid, .inl ⟨rfl, rfl, rfl⟩⟩, hmode, ?_⟩
      intro hres
      exact ⟨Nat.lt_of_succ_le (by simpa [hres] using hblocks), hlt hres⟩
  | none =>
    constructor
    · rintro ⟨_, _, _, ⟨hpid, ⟨hsome, -⟩ | ⟨-, hblocks, rfl, -, rfl⟩⟩, hmode, hok⟩
      · cases hsome
      · refine ⟨hmode, hpid, ?_, fun _ => by simp⟩
        by_cases hres : (fOpen filename).1 = .ok
        · have := (hok hres).1
          simp [hres]
          omega
        · simpa [hres] using Nat.succ_le_of_lt hblocks
    · rintro ⟨hmode, hpid, hblocks, -⟩
      simp only [Option.isSome_none, Bool.false_eq_true, if_false] at hblocks
      refine ⟨_, _, _, ⟨hpid, .inr ⟨rfl, by omega, rfl, rfl, rfl⟩⟩, hmode, ?_⟩
      intro hres
      rw [if_pos hres] at hblocks
      exact ⟨by omega, by simp⟩

/-- A read of a descriptor that is not open. -/
theorem readFn_of_none (h : descriptorGet pi fd = none) :
    readFn fRead pi fd buffer size =
      (if fd ≠ invalidFd ∧ size = 0 then 0 else -1, buffer, pi) := by
  unfold readFn
  by_cases hfd : fd = invalidFd
  · rw [if_pos hfd, if_neg fun hne => hne.1 hfd]
  · by_cases hsize : size = 0
    · rw [if_neg hfd, if_pos hsize, if_pos ⟨hfd, hsize⟩]
    · rw [if_neg hfd, if_neg hsize, h, if_neg fun hzero => hsize hzero.2]

/-- **Requests that are answered as they should be**, in every state that requests lead to. -/
theorem clean_iff (hs : Reach step (fun _ _ => True) Tables.empty s) (request : Request File) :
    Clean s request ↔ request.Accepted s := by
  have hinv := reach_inv hs
  have hknown : ∀ {pid pi}, s.find pid = some pi → pid ≠ invalidPid := by
    intro pid pi hfind
    obtain ⟨hmem, rfl⟩ := find_eq_some hfind
    exact (hinv.procInfos pi hmem).pid
  have hnone : ∀ {pid pi fd}, s.find pid = some pi → ¬ s.Opens pid fd →
      descriptorGet pi fd = none := by
    intro pid pi fd hfind hopens
    by_contra hne
    obtain ⟨desc, hget⟩ := Option.ne_none_iff_exists'.mp hne
    exact hopens (opens_iff.mpr ⟨pi, desc, hfind, hget⟩)
  cases request with
  | vfsOpen fOpen taskInfo blocks senderPid filename openMode createPerms =>
    have hopen := @exists_handleVfsOpen File s senderPid fOpen taskInfo blocks filename openMode
      createPerms
    refine Iff.trans ?_ hopen
    constructor
    · rintro ⟨r, s', hok, -⟩
      exact ⟨(r, s'), hok⟩
    · rintro ⟨⟨r, s'⟩, hok⟩
      exact ⟨r, s', hok, fun hinvalid => absurd (hopen.mp ⟨_, hok⟩).1 hinvalid⟩
  | vfsClose senderPid fd =>
    constructor
    · rintro ⟨r, s', hok, -⟩
      obtain ⟨-, pi, desc, hfind, hget, -⟩ := handleVfsClose_eq_ok.mp hok
      exact opens_iff.mpr ⟨pi, desc, hfind, hget⟩
    · intro hopens
      obtain ⟨pi, desc, hfind, hget⟩ := opens_iff.mp hopens
      exact ⟨_, _, handleVfsClose_eq_ok.mpr ⟨hknown hfind, pi, desc, hfind, hget, rfl, rfl⟩,
        fun hinvalid => absurd hopens hinvalid⟩
  | vfsRead fRead senderPid buffer bufferSize fd size =>
    constructor
    · rintro ⟨r, s', hok, hclean⟩
      obtain ⟨result, hread, heq⟩ := bind_eq_ok.mp hok
      obtain ⟨-, pi, hfind, rfl⟩ := handleVfsRead_eq_ok.mp hread
      cases heq
      refine ⟨Option.isSome_iff_exists.mpr ⟨pi, hfind⟩, ?_⟩
      by_contra hnot
      rw [not_or, not_or, not_not] at hnot
      obtain ⟨hopens, hfd, hsize⟩ := hnot
      have hr := (hclean hopens).1
      dsimp only at hr
      rw [readFn_of_none (hnone hfind hopens), if_pos ⟨hfd, hsize⟩] at hr
      exact absurd (show (0 : Word) = -1 from hr) (by decide)
    · rintro ⟨hsome, hread⟩
      obtain ⟨pi, hfind⟩ := Option.isSome_iff_exists.mp hsome
      refine ⟨_, _, bind_eq_ok.mpr
        ⟨_, handleVfsRead_eq_ok.mpr ⟨hknown hfind, pi, hfind, rfl⟩, rfl⟩, ?_⟩
      intro hopens
      dsimp only
      have hfails : ¬ (fd ≠ invalidFd ∧ clampedSize size bufferSize = 0) := by
        rintro ⟨hfd, hsize⟩
        exact (hread.resolve_left hopens).elim hfd fun hne => hne hsize
      rw [readFn_of_none (hnone hfind hopens), if_neg hfails, hinv.put_self hfind]
      exact ⟨rfl, fun _ => rfl⟩
  | vfsWrite senderPid fd size bufferSize =>
    constructor
    · rintro ⟨r, s', hok, -⟩
      obtain ⟨_, hwrite, -⟩ := bind_eq_ok.mp hok
      obtain ⟨-, hfind, -⟩ := handleVfsWrite_eq_ok.mp hwrite
      exact Option.isSome_iff_exists.mpr hfind
    · intro hsome
      obtain ⟨pi, hfind⟩ := Option.isSome_iff_exists.mp hsome
      exact ⟨-1, s, bind_eq_ok.mpr
        ⟨-1, handleVfsWrite_eq_ok.mpr ⟨hknown hfind, ⟨pi, hfind⟩, rfl⟩, rfl⟩, fun _ => ⟨rfl, fun _ => rfl⟩⟩

end Clean

/-- A file that can be opened. -/
def openable : FOpen Unit := fun _ => (.ok, ())

/-- The first `open` of a process. -/
theorem clean_first_open : Reach step (fun _ _ => True) Tables.empty (Tables.empty : Tables Unit) ∧
    Clean Tables.empty (.vfsOpen openable true 2 5 ⟨[97], by decide⟩ oRdonly 0) :=
  ⟨.refl, (clean_iff .refl _).mpr ⟨rfl, by decide, by decide, fun _ => by decide⟩⟩

/-- An `open` for writing. -/
theorem not_clean_open_for_writing : ¬ ∀ (File : Type) (s : Tables File),
    Reach step (fun _ _ => True) Tables.empty s → ∀ request, Clean s request := by
  intro h
  obtain ⟨r, s', hok, -⟩ := h Unit Tables.empty .refl
    (.vfsOpen openable true 2 5 ⟨[97], by decide⟩ 2 0)
  have hfault : handle (Tables.empty : Tables Unit)
      (.vfsOpen openable true 2 5 ⟨[97], by decide⟩ 2 0) =
        .error (.assertion "mode == O_RDONLY") := by decide
  rw [hfault] at hok
  cases hok

/-! ## Replies that fit -/

section Fits

variable {File : Type} {s : Tables File} {pi : ProcInfo File} {pid fd size c r n : Word}
  {buffer bytes : List Byte} {fRead : FRead File}

/-- `vfs_read` in `vfs.rpc`. -/
def vfsRead : Rpc.RPCFunction :=
  ⟨"vfs_read", ⟨.int, .null⟩,
    [⟨"buffer", .blob, .out⟩, ⟨"fd", .int, .null⟩, ⟨"size", .int, .null⟩]⟩

/-- The variables of the marshaller when the handler has returned. -/
def served (result : Word) (buffer : List Byte) (bufferSize : Word) : Rpc.Env where
  value x := if x = "fn_result" then .int result else .memory buffer
  size _ := bufferSize

/-- The handler returns; the size it leaves in `*buffer_size` is at most the capacity `c` of the
buffer, and is the result if that is not negative; and the marshaller gets a reply out of it, if a
buffer of that capacity leaves room for the result and the typecodes. -/
def Fits (fRead : FRead File) (s : Tables File) (pid : Word) (buffer : List Byte)
    (c fd size : Word) : Prop :=
  ∃ r bytes n s', handleVfsRead fRead s pid buffer c fd size = .ok (r, bytes, n, s') ∧
    n ≤ c ∧ (0 ≤ r.toInt → n = r) ∧
    (c.toNat + 10 ≤ Rpc.replyRoom → ∀ resbuf : List Byte, resbuf.length = Rpc.replyRoom →
      ∃ reply, Rpc.marshallReply vfsRead (served r bytes n) resbuf = .ok (some reply))

/-- The read is answered with data, if only none because none were asked for. -/
def Answered (fRead : FRead File) (pi : ProcInfo File) (fd : Word) (buffer : List Byte)
    (size : Word) : Prop :=
  fd ≠ invalidFd ∧ (size = 0 ∨ ∃ desc, descriptorGet pi fd = some desc ∧
    (fRead desc.hfile buffer size.toNat).result = .ok)

theorem clampedSize_le (size c : Word) : clampedSize size c ≤ c := by
  unfold clampedSize
  split
  · exact BitVec.le_refl _
  · exact BitVec.not_lt.mp ‹_›

/-- **A read** returns at most as many bytes as it was asked for, or -1. -/
theorem readFn_cases (fRead : FRead File) (pi : ProcInfo File) (fd : Word) (buffer : List Byte)
    (size : Word) : (readFn fRead pi fd buffer size).2.1.length = buffer.length ∧
      (Answered fRead pi fd buffer size ∧ (readFn fRead pi fd buffer size).1 ≤ size ∨
        ¬ Answered fRead pi fd buffer size ∧ (readFn fRead pi fd buffer size).1 = -1) := by
  unfold readFn Answered
  by_cases hfd : fd = invalidFd
  · rw [if_pos hfd]
    exact ⟨rfl, .inr ⟨fun h => h.1 hfd, rfl⟩⟩
  · rw [if_neg hfd]
    by_cases hsize : size = 0
    · rw [if_pos hsize]
      exact ⟨rfl, .inl ⟨⟨hfd, .inl hsize⟩, Nat.zero_le _⟩⟩
    · rw [if_neg hsize]
      cases hget : descriptorGet pi fd with
      | none =>
        refine ⟨rfl, .inr ⟨?_, rfl⟩⟩
        rintro ⟨-, hzero | ⟨desc, hdesc, -⟩⟩
        · exact hsize hzero
        · cases hdesc
      | some desc =>
        dsimp only
        by_cases hres : (fRead desc.hfile buffer size.toNat).result = .ok
        · rw [if_neg (not_not.mpr hres)]
          refine ⟨(fRead desc.hfile buffer size.toNat).length_bytes,
            .inl ⟨⟨hfd, .inr ⟨desc, rfl, hres⟩⟩, ?_⟩⟩
          have hle := (fRead desc.hfile buffer size.toNat).readBytes_le
          rw [BitVec.le_def, BitVec.toNat_ofNat, Nat.mod_eq_of_lt (hle.trans_lt size.isLt)]
          exact hle
        · rw [if_pos hres]
          refine ⟨(fRead desc.hfile buffer size.toNat).length_bytes, .inr ⟨?_, rfl⟩⟩
          rintro ⟨-, hzero | ⟨desc', hdesc', hok⟩⟩
          · exact hsize hzero
          · cases hdesc'
            exact hres hok

/-- The reply to a read: the result, the size and so many bytes of the buffer. -/
theorem exists_marshallReply (hlen : bytes.length = c.toNat) (hle : n ≤ c)
    (hroom : c.toNat + 10 ≤ Rpc.replyRoom) {resbuf : List Byte}
    (hresbuf : resbuf.length = Rpc.replyRoom) :
    ∃ reply, Rpc.marshallReply vfsRead (served r bytes n) resbuf = .ok (some reply) := by
  have hanswers : vfsRead.Answers := ⟨.inr (.inl rfl), by decide, by simp [vfsRead]⟩
  have hn : n.toNat ≤ bytes.length := hlen ▸ hle
  have houts : ∀ arg ∈ vfsRead.args, arg.type.modifier = .out →
      Rpc.OutSet (served r bytes n) c arg := by
    intro arg harg hout
    simp only [vfsRead, List.mem_cons, List.not_mem_nil, or_false] at harg
    rcases harg with rfl | rfl | rfl
    · exact ⟨bytes, rfl, hlen.le, hn⟩
    · exact absurd hout (by decide)
    · exact absurd hout (by decide)
  have hsize : Rpc.replySize (served r bytes n) vfsRead = n.toNat + 10 := by
    simp [Rpc.replySize, Rpc.resultSize, vfsRead, Rpc.outBytes, served, Rpc.outName,
      Rpc.Value.bytes, Nat.min_eq_left hn]
    omega
  exact ⟨_, (@Rpc.marshallReply_eq_ok vfsRead ⟨fun _ => .int 0, fun _ => c⟩ (served r bytes n) resbuf
    _ hanswers houts hresbuf).mpr
      ⟨by rw [hsize]; exact le_trans (Nat.add_le_add_right hle 10) hroom, rfl⟩⟩

/-- **Replies that fit**: those with data. The size 2³² - 1 that a failed read leaves is no more
than the capacity only if that is 2³² - 1. -/
theorem fits_iff (hpid : pid ≠ invalidPid) (hfind : s.find pid = some pi)
    (hlen : buffer.length = c.toNat) :
    Fits fRead s pid buffer c fd size ↔
      Answered fRead pi fd buffer (clampedSize size c) ∨ c = -1 := by
  obtain ⟨hbytes, hcases⟩ := readFn_cases fRead pi fd buffer (clampedSize size c)
  generalize hq : readFn fRead pi fd buffer (clampedSize size c) = q at hbytes hcases
  have hhandle : handleVfsRead fRead s pid buffer c fd size =
      .ok (q.1, q.2.1, q.1, s.put q.2.2) :=
    handleVfsRead_eq_ok.mpr ⟨hpid, pi, hfind, by rw [hq]⟩
  constructor
  · rintro ⟨r, bytes, n, s', hok, hle, -⟩
    rw [hhandle] at hok
    cases hok
    rcases hcases with ⟨hanswered, -⟩ | ⟨-, hr⟩
    · exact .inl hanswered
    · rw [hr] at hle
      exact .inr (by bv_omega)
  · intro h
    have hle : q.1 ≤ c := by
      rcases h with hanswered | rfl
      · rcases hcases with ⟨-, hr⟩ | ⟨hnot, -⟩
        · exact BitVec.le_trans hr (clampedSize_le size c)
        · exact absurd hanswered hnot
      · bv_omega
    exact ⟨_, _, _, _, hhandle, hle, fun _ => rfl, fun hroom resbuf hresbuf =>
      exists_marshallReply (hbytes.trans hlen) hle hroom hresbuf⟩

/-- `f_read`, with a given result and one byte. -/
def oneByte (result : FResult) : FRead Unit := fun _ buffer size =>
  ⟨result, (), buffer, rfl, min 1 size, Nat.min_le_right _ _⟩

/-- The tables with one file open. -/
def oneFile : Tables Unit := ⟨[⟨5, 1, [⟨0, 0, oRdonly, ()⟩]⟩]⟩

/-- One byte is read. -/
theorem fits_one_byte : oneFile.find 5 = some ⟨5, 1, [⟨0, 0, oRdonly, ()⟩]⟩ ∧
    Fits (oneByte .ok) oneFile 5 [0] 1 0 1 := by
  have hfind : oneFile.find 5 = some ⟨5, 1, [⟨0, 0, oRdonly, ()⟩]⟩ := by decide
  exact ⟨hfind, (fits_iff (by decide) hfind (by decide)).mpr
    (.inl ⟨by decide, .inr ⟨⟨0, 0, oRdonly, ()⟩, by decide, rfl⟩⟩)⟩

/-- A read error of the disk. -/
theorem not_fits_disk_error : ¬ ∀ (File : Type) (fRead : FRead File) (s : Tables File)
    (pid : Word) (pi : ProcInfo File) (buffer : List Byte) (c fd size : Word),
    pid ≠ invalidPid → s.find pid = some pi → buffer.length = c.toNat →
    Fits fRead s pid buffer c fd size := by
  intro h
  obtain ⟨r, bytes, n, s', hok, hle, -⟩ := h Unit (oneByte .diskErr) oneFile 5
    ⟨5, 1, [⟨0, 0, oRdonly, ()⟩]⟩ [0] 1 0 1 (by decide) (by decide) (by decide)
  have hread : handleVfsRead (oneByte .diskErr) oneFile 5 [0] 1 0 1 =
      .ok (-1, [0], -1, oneFile) := by decide
  rw [hread] at hok
  cases hok
  exact absurd hle (by decide)

end Fits

end Rastapopoulos.Vfs
