import Rastapopoulos.Blk.Ata
import Rastapopoulos.Rpc.System

/-!
# Reading sectors through the layers

`disk_read` of the FAT code asks `blk_read_sector` for a number of bytes, this is a call of the
block driver with a buffer of that size, and the driver's handler reads one sector into it, whatever
the size of the buffer is. So a read of several sectors that is reported as successful has delivered
the first one only (`diskRead_delivers_iff`).

The call is made of the two halves of the client's stub and of the server's marshaller; in between,
the messages are delivered as they are.
-/

namespace Rastapopoulos.Blk

open Rpc (Word Env Datum RPCFunction RPCArgument)

open Ipc (Message)

/-! ## The interface of the block driver -/

def blkimplRead : RPCFunction :=
  ⟨"blkimpl_read", ⟨.int, .null⟩, [⟨"buffer", .blob, .out⟩, ⟨"offset", .int, .null⟩]⟩

def blkimplTotalSize : RPCFunction := ⟨"blkimpl_total_size", ⟨.long, .null⟩, []⟩

def blkimplSectorCount : RPCFunction := ⟨"blkimpl_sector_count", ⟨.int, .null⟩, []⟩

def blkimplReadSector : RPCFunction :=
  ⟨"blkimpl_read_sector", ⟨.int, .null⟩, [⟨"buffer", .blob, .out⟩, ⟨"sector", .int, .null⟩]⟩

/-- `blockdrv.rpc`. -/
def blockdrv : List RPCFunction :=
  [blkimplRead, blkimplTotalSize, blkimplSectorCount, blkimplReadSector]

/-- Why a read does not return. -/
inductive DiskFault
  | driver (fault : Fault)
  | rpc (fault : Rpc.RpcFault)
  /-- An assertion or a `panic` of the caller. -/
  | assertion
  deriving DecidableEq

/-! ## The driver -/

/-- `handle_blkimpl_read_sector`: the result, the buffer, `*buffer_size`, and the drive. -/
def handleBlkimplReadSector (drive : Drive) (s : Ata) (buffer : List Byte) (bufferSize sector : Word) :
    Except Fault (Word × List Byte × Word × Ata) := do
  if bufferSize.toNat < sectorSize then return (-1, buffer, 0, s)
  let (readRet, buffer, s) ← ataReadLba28 drive s buffer bufferSize.toNat 1 0 sector
  if readRet ≠ 1 then return (-1, buffer, 0, s)
  else return (0, buffer, BitVec.ofNat 32 sectorSize, s)

/-- The `int` that a message has for a variable. -/
def intIn (log : List (String × Datum)) (x : String) : Word :=
  match log.lookup x with
  | some (.int v) => v
  | _ => 0

/-- The bytes that a message has for a variable. -/
def blobIn (log : List (String × Datum)) (x : String) : List Byte :=
  match log.lookup x with
  | some (.blob b) => b
  | _ => []

/-- The driver's variables when the handler has returned. -/
def served (ret : Word) (buffer : List Byte) (size : Word) : Env where
  value x := if x = "fn_result" then .int ret else .memory buffer
  size _ := size

/-- The marshaller of `blkimpl_read_sector`. `malloc` returns memory with some `fresh` contents, and
the reply goes over what stood in `resbuf`. -/
def marshallReadSector (drive : Drive) (s : Ata) (fresh : ℕ → Byte) (resbuf : List Byte)
    (request : Message) : Except DiskFault (Option (List Byte) × Ata) := do
  let log ← (Rpc.marshallArgs blkimplReadSector request).mapError .rpc
  let size := Rpc.capacityIn log "buffer"
  let (ret, buffer, size, s) ← (handleBlkimplReadSector drive s
    ((List.range size.toNat).map fresh) size (intIn log "sector")).mapError .driver
  let reply ← (Rpc.marshallReply blkimplReadSector (served ret buffer size) resbuf).mapError .rpc
  return (reply, s)

/-- The turn of `rpc_dispatch` for a request. The other functions are not called here. -/
def rpcDispatch (drive : Drive) (s : Ata) (fresh : ℕ → Byte) (resbuf : List Byte)
    (request : Message) : Except DiskFault (Option (List Byte) × Ata) := do
  check (request.size ≤ Rpc.dispatchBufferSize) (.rpc .panic)
  match Rpc.caseFor request.code 0 blockdrv with
  | some fn =>
    check (fn = blkimplReadSector) (.rpc .stuck)
    marshallReadSector drive s fresh resbuf request
  | none => .error (.rpc .panic)

/-! ## The caller -/

/-- The variables of a call of the stub. -/
def calling (buffer : List Byte) (size sector : Word) : Env where
  value x := if x = "sector" then .int sector else .memory buffer
  size _ := size

/-- The stub `blkimpl_read_sector`, with the driver at the other end. -/
def callReadSector (drive : Drive) (s : Ata) (fresh : ℕ → Byte) (resbuf : List Byte) (ackPort : Word)
    (env : Env) : Except DiskFault (Rpc.Result × Ata) := do
  let request ← (Rpc.stubRequest blkimplReadSector 3 env ackPort).mapError .rpc
  let (reply, s) ← rpcDispatch drive s fresh resbuf request
  match reply with
  | none => .error (.rpc .stuck)
  | some data =>
    let message ← (Rpc.newMessage Scheduler.invalidPort 0 data).mapError .rpc
    let rcvbufSize ← (Rpc.stubReceiveSize blkimplReadSector env).mapError .rpc
    if rcvbufSize < message.size then return (.failRecv, s)
    let results ← (Rpc.stubResult blkimplReadSector env rcvbufSize message).mapError .rpc
    return (.ok data results, s)

/-- `blk_read_sector`, with the outcome of the call of the stub. `ret` is not initialised, and it is
`ret` that `handle_rpc_ret` looks at. -/
def blkReadSector (call : Env → Except DiskFault (Rpc.Result × Ata)) (ret : Word)
    (buffer : List Byte) (size sector : Word) : Except DiskFault (Word × List Byte × Ata) := do
  check (sectorSize ≤ size.toNat) .assertion
  let (result, s) ← call (calling buffer size sector)
  let (ret, buffer) :=
    match result with
    | .ok _ results =>
      (intIn results "rpc_result",
        blobIn results "buffer" ++ buffer.drop (blobIn results "buffer").length)
    | .failSend | .failRecv => (ret, buffer)
  check (ret ≠ 1 ∧ ret ≠ 2) .assertion
  return (ret, buffer, s)

/-- `DRESULT`. -/
inductive DResult
  | ok
  | error
  | wrPrt
  | notRdy
  | parErr
  deriving DecidableEq, Repr

def staNoInit : Word := 1

/-- `disk_initialize`, on `g_disk_status`. -/
def diskInitialize (status : Word) (pdrv : Byte) : Word :=
  if pdrv ≠ 0 then status else status &&& ~~~staNoInit

/-- `disk_read`. -/
def diskRead (call : Env → Except DiskFault (Rpc.Result × Ata)) (ret status : Word) (pdrv : Byte)
    (s : Ata) (buff : List Byte) (sector count : Word) :
    Except DiskFault (DResult × List Byte × Ata) := do
  if pdrv ≠ 0 then return (.parErr, buff, s)
  if 7 < count then return (.parErr, buff, s)
  if status &&& staNoInit ≠ 0 then return (.notRdy, buff, s)
  let (ret, buff, s) ← blkReadSector call ret buff (512 * count) sector
  if ret ≠ 0 then return (.error, buff, s) else return (.ok, buff, s)

/-! ## What arrives -/

section Call

variable {drive : Drive} {s : Ata} {fresh : ℕ → Byte} {resbuf buffer : List Byte}
  {ackPort size sector : Word}

theorem blkimplReadSector_answers : blkimplReadSector.Answers :=
  ⟨.inr (.inl rfl), by decide, by simp [blkimplReadSector]⟩

theorem calling_args : ∀ arg ∈ blkimplReadSector.args, arg.type.modifier ≠ .out →
    Rpc.ArgSet (calling buffer size sector) arg := by
  intro arg harg hout
  simp only [blkimplReadSector, List.mem_cons, List.not_mem_nil, or_false] at harg
  rcases harg with rfl | rfl
  · exact absurd rfl hout
  · exact ⟨sector, rfl⟩

/-- The handler reads one sector. -/
theorem handleBlkimplReadSector_eq (hreads : ∀ sector, drive.fails sector = false)
    (hlen : buffer.length = size.toNat) (hsize : sectorSize ≤ size.toNat) :
    ∃ s', handleBlkimplReadSector drive s buffer size sector =
      .ok (0, drive.sectors (sector.toNat % 2 ^ 28) 1 ++ buffer.drop sectorSize,
        BitVec.ofNat 32 sectorSize, s') := by
  obtain ⟨s', hread⟩ := ataReadLba28_eq s sector Nat.one_pos (by decide) hreads
    (by rw [hlen]; exact hsize)
  refine ⟨s', ?_⟩
  rw [hlen] at hread
  rw [handleBlkimplReadSector, if_neg (Nat.not_lt.mpr hsize), hread]
  rfl

/-- The driver's variables after a sector has been read into `out`. -/
def sectorRead (out : List Byte) : Env := served 0 out (BitVec.ofNat 32 sectorSize)

variable {out : List Byte}

theorem sectorRead_outs (buffer : List Byte) (sector : Word) (hlen : out.length = size.toNat)
    (hsize : sectorSize ≤ size.toNat) :
    ∀ arg ∈ blkimplReadSector.args, arg.type.modifier = .out →
      Rpc.OutSet (sectorRead out) ((calling buffer size sector).size arg.name) arg := by
  intro arg harg hout
  simp only [blkimplReadSector, List.mem_cons, List.not_mem_nil, or_false] at harg
  rcases harg with rfl | rfl
  · exact ⟨out, rfl, hlen.le, hsize.trans hlen.ge⟩
  · exact absurd hout (by decide)

theorem sectorRead_replySize (hlen : sectorSize ≤ out.length) :
    Rpc.replySize (sectorRead out) blkimplReadSector = 522 := by
  have htake : min sectorSize out.length = 512 := Nat.min_eq_left hlen
  simp [Rpc.replySize, Rpc.resultSize, blkimplReadSector, Rpc.outBytes, sectorRead, served,
    Rpc.outName, Rpc.Value.bytes, sectorSize] at htake ⊢
  omega

theorem sectorRead_length_reply (hresbuf : resbuf.length = Rpc.replyRoom)
    (hlen : sectorSize ≤ out.length) :
    (Rpc.replyBytes (sectorRead out) resbuf blkimplReadSector).length = 522 := by
  rw [← sectorRead_replySize hlen, Rpc.replyBytes, List.length_append, Rpc.length_resultBytes]
  · rfl
  · rw [hresbuf]
    decide

/-- The stub offers room for the buffer. -/
theorem calling_receiveSize (hlt : size.toNat < 4096) :
    Rpc.stubReceiveSize blkimplReadSector (calling buffer size sector) =
      .ok (38 + size.toNat) := by
  have heq : (Rpc.headerSize + (Rpc.resultSize blkimplReadSector.returnType.type +
      (blkimplReadSector.args.map (Rpc.outRoom (calling buffer size sector))).sum)) =
        38 + size.toNat := by
    simp [Rpc.headerSize, Rpc.resultSize, blkimplReadSector, Rpc.outRoom, calling]
    omega
  rw [Rpc.stubReceiveSize_eq blkimplReadSector_answers, heq, Nat.mod_eq_of_lt (by omega)]

/-- The driver's turn for the request of the stub: a result of 0, and one sector. -/
theorem rpcDispatch_eq {request : Message} (s : Ata) (fresh : ℕ → Byte)
    (hreads : ∀ sector, drive.fails sector = false) (hsize : sectorSize ≤ size.toNat)
    (hresbuf : resbuf.length = Rpc.replyRoom) (hcode : request.code = Rpc.messageCode 3)
    (hdata : request.data = Rpc.requestBytes (calling buffer size sector) blkimplReadSector) :
    ∃ s' out, out.length = size.toNat ∧
      out.take sectorSize = drive.sectors (sector.toNat % 2 ^ 28) 1 ∧
      rpcDispatch drive s fresh resbuf request =
        .ok (some (Rpc.replyBytes (sectorRead out) resbuf blkimplReadSector), s') := by
  have hfits : request.size ≤ Rpc.dispatchBufferSize := by
    have hlen : request.data.length = 10 := by
      rw [hdata]
      simp [Rpc.requestBytes, blkimplReadSector, Rpc.argBytes]
    rw [Message.size, hlen]
    decide
  have hcase : Rpc.caseFor request.code 0 blockdrv = some blkimplReadSector := by
    rw [hcode]
    decide
  have hargs : Rpc.marshallArgs blkimplReadSector request =
      .ok [("buffer", .capacity size), ("sector", .int sector)] :=
    Rpc.marshallArgs_request blkimplReadSector_answers.args calling_args hdata
  have hlen : ((List.range size.toNat).map fresh).length = size.toNat := by
    rw [List.length_map, List.length_range]
  obtain ⟨s', hhandle⟩ : ∃ s', handleBlkimplReadSector drive s ((List.range size.toNat).map fresh)
      size sector = _ := handleBlkimplReadSector_eq hreads hlen hsize
  have hsector := drive.length_sectors (sector.toNat % 2 ^ 28) 1
  have hout : (drive.sectors (sector.toNat % 2 ^ 28) 1 ++
      ((List.range size.toNat).map fresh).drop sectorSize).length = size.toNat := by
    rw [List.length_append, List.length_drop, hlen]
    omega
  have hreply : Rpc.marshallReply blkimplReadSector (served 0 _ (BitVec.ofNat 32 sectorSize)) resbuf =
      _ := (Rpc.marshallReply_eq_ok blkimplReadSector_answers
        (sectorRead_outs buffer sector hout hsize) hresbuf).mpr
        ⟨(sectorRead_replySize (hsize.trans hout.ge)).trans_le (by decide), rfl⟩
  refine ⟨s', _, hout, List.take_left' (by rw [hsector, Nat.mul_one]), ?_⟩
  rw [rpcDispatch, check_of _ hfits, hcase]
  simp only [marshallReadSector, hargs]
  show (Except.mapError DiskFault.driver (handleBlkimplReadSector drive s
    ((List.range size.toNat).map fresh) size sector) >>= _) = _
  rw [hhandle]
  simp only [Except.mapError, ok_bind, hreply]
  rfl

/-- **The call** returns 0 and one sector. -/
theorem callReadSector_eq (hreads : ∀ sector, drive.fails sector = false)
    (hsize : sectorSize ≤ size.toNat) (hlt : size.toNat < 4096)
    (hresbuf : resbuf.length = Rpc.replyRoom) :
    ∃ s' data, callReadSector drive s fresh resbuf ackPort (calling buffer size sector) =
      .ok (.ok data [("rpc_result", .int 0),
        ("buffer", .blob (drive.sectors (sector.toNat % 2 ^ 28) 1))], s') := by
  -- the request
  obtain ⟨request, hsent⟩ : ∃ m, Rpc.stubRequest blkimplReadSector 3 (calling buffer size sector)
      ackPort = .ok m := by
    refine Rpc.exists_stubRequest blkimplReadSector_answers.args calling_args ?_
    simp [Rpc.requestBytes, blkimplReadSector, Rpc.argBytes]
  obtain ⟨-, hcode, hdata⟩ :=
    Rpc.stubRequest_eq_ok blkimplReadSector_answers.args calling_args hsent
  -- the reply
  obtain ⟨s', out, hout, htake, hdispatch⟩ :=
    rpcDispatch_eq s fresh hreads hsize hresbuf hcode hdata
  have hlen := sectorRead_length_reply hresbuf (hsize.trans hout.ge)
  obtain ⟨message, hmessage⟩ : ∃ m, Rpc.newMessage Scheduler.invalidPort 0
      (Rpc.replyBytes (sectorRead out) resbuf blkimplReadSector) = .ok m :=
    ⟨_, dif_pos (by omega)⟩
  obtain ⟨-, -, hmdata⟩ := Rpc.newMessage_eq_ok hmessage
  have hroom : ¬ 38 + size.toNat < message.size := by
    have hmsize : message.size = 28 + 522 := by
      rw [Message.size, hmdata, hlen]
      rfl
    unfold sectorSize at hsize
    omega
  -- what is made of it
  have hresult : Rpc.stubResult blkimplReadSector (calling buffer size sector) (38 + size.toNat)
      message = .ok [("rpc_result", .int 0),
        ("buffer", .blob (drive.sectors (sector.toNat % 2 ^ 28) 1))] := by
    rw [Rpc.stubResult_eq blkimplReadSector_answers (sectorRead_outs buffer sector hout hsize)
      (by rw [sectorRead_replySize (hsize.trans hout.ge), hresbuf]; decide) hmdata, ← htake]
    rfl
  refine ⟨s', Rpc.replyBytes (sectorRead out) resbuf blkimplReadSector, ?_⟩
  rw [callReadSector, hsent]
  simp only [Except.mapError, ok_bind, hdispatch, hmessage, calling_receiveSize hlt, if_neg hroom,
    hresult]
  rfl

/-- **The read**, on its way through all layers: of the buffer, the first sector is replaced. -/
theorem diskRead_eq {ret status n : Word} (hreads : ∀ sector, drive.fails sector = false)
    (hstatus : status &&& staNoInit = 0) (hpos : 1 ≤ n) (hle : n ≤ 7)
    (hresbuf : resbuf.length = Rpc.replyRoom) :
    ∃ s', diskRead (callReadSector drive s fresh resbuf ackPort) ret status 0 s buffer sector n =
      .ok (.ok, drive.sectors (sector.toNat % 2 ^ 28) 1 ++ buffer.drop sectorSize, s') := by
  have hcount : (512 * n).toNat = 512 * n.toNat ∧ 1 ≤ n.toNat ∧ n.toNat ≤ 7 := by
    rw [BitVec.le_def] at hpos hle
    simp at hpos hle ⊢
    omega
  have hsize : sectorSize ≤ (512 * n).toNat := by
    unfold sectorSize
    omega
  obtain ⟨s', data, hcall⟩ : ∃ s' data, callReadSector drive s fresh resbuf ackPort
      (calling buffer (512 * n) sector) = _ :=
    callReadSector_eq hreads hsize (by omega) hresbuf
  refine ⟨s', ?_⟩
  have hblob : ∀ b : List Byte, blobIn [("rpc_result", .int 0), ("buffer", .blob b)] "buffer" = b :=
    fun b => rfl
  rw [diskRead, if_neg (not_not.mpr rfl), if_neg (BitVec.not_lt.mpr hle),
    if_neg (not_not.mpr hstatus), blkReadSector, check_of _ hsize, ok_bind, hcall, ok_bind]
  simp only [hblob, drive.length_sectors]
  rfl

end Call

/-! ## What was promised -/

/-- The arguments and the surroundings of a read of `n` sectors from drive 0 after it has been
initialised. -/
structure Read where
  drive : Drive
  /-- The state of the drive. -/
  s : Ata
  /-- What memory holds that is not initialised: `ret` of `blk_read_sector`, what `malloc` returns
  in the driver, and the buffer for replies. -/
  ret : Word
  fresh : ℕ → Byte
  resbuf : List Byte
  resbuf_length : resbuf.length = Rpc.replyRoom
  ackPort : Word
  status : Word
  status_eq : status &&& staNoInit = 0
  sector : Word
  n : Word
  n_pos : 1 ≤ n
  n_le : n ≤ 7
  buff : List Byte
  buff_length : buff.length = sectorSize * n.toNat

namespace Read

/-- The call of `disk_read`. -/
def run (r : Read) : Except DiskFault (DResult × List Byte × Ata) :=
  diskRead (callReadSector r.drive r.s r.fresh r.resbuf r.ackPort) r.ret r.status 0 r.s r.buff r.sector
    r.n

/-- If the read is reported as successful, the buffer holds the sectors that were asked for. -/
def Delivers (r : Read) : Prop :=
  ∀ buff s, r.run = .ok (.ok, buff, s) → buff = r.drive.sectors r.sector.toNat r.n.toNat

/-- The read is reported as successful, and has replaced the first sector. -/
theorem run_eq (r : Read) (hreads : ∀ sector, r.drive.fails sector = false) :
    ∃ s', r.run = .ok (.ok, r.drive.sectors (r.sector.toNat % 2 ^ 28) 1 ++
      r.buff.drop sectorSize, s') :=
  diskRead_eq hreads r.status_eq r.n_pos r.n_le r.resbuf_length

end Read

/-- **A read delivers** what it reports exactly if the sectors behind the first one are in the
buffer already (as when there are none), and the first sector is the one with that number modulo
`2 ^ 28`. -/
theorem diskRead_delivers_iff (r : Read) (hreads : ∀ sector, r.drive.fails sector = false) :
    r.Delivers ↔ r.drive.sectors (r.sector.toNat % 2 ^ 28) 1 = r.drive.sectors r.sector.toNat 1 ∧
      r.buff.drop sectorSize = r.drive.sectors (r.sector.toNat + 1) (r.n.toNat - 1) := by
  obtain ⟨s', hrun⟩ := r.run_eq hreads
  have hpos : 1 ≤ r.n.toNat := r.n_pos
  have hsplit := r.drive.sectors_succ r.sector.toNat (r.n.toNat - 1)
  rw [Nat.sub_add_cancel hpos] at hsplit
  have hdelivers : r.Delivers ↔ r.drive.sectors (r.sector.toNat % 2 ^ 28) 1 ++
      r.buff.drop sectorSize = r.drive.sectors r.sector.toNat r.n.toNat := by
    constructor
    · exact fun h => h _ _ hrun
    · intro h buff s hok
      have heq := hrun.symm.trans hok
      rw [Except.ok.injEq, Prod.mk.injEq, Prod.mk.injEq] at heq
      exact heq.2.1.symm.trans h
  rw [hdelivers, hsplit]
  constructor
  · intro h
    exact List.append_inj h (by rw [r.drive.length_sectors, r.drive.length_sectors])
  · rintro ⟨hfirst, hrest⟩
    rw [hfirst, hrest]

/-- A drive with zeros in sector 0 and ones behind it. -/
def zeroOne : Drive := ⟨fun i => if i < 512 then 0 else 1, fun _ => false, fun _ => 0⟩

/-- A read of sectors of that drive into a buffer of zeros. -/
def readZeroOne (n : Word) (hpos : 1 ≤ n) (hle : n ≤ 7) : Read where
  drive := zeroOne
  s := ⟨0, 0, 0, 0, 0, 0, 0, 0, 0, 0⟩
  ret := 0
  fresh _ := 0
  resbuf := List.replicate Rpc.replyRoom 0
  resbuf_length := List.length_replicate
  ackPort := 5
  status := diskInitialize staNoInit 0
  status_eq := by decide
  sector := 0
  n := n
  n_pos := hpos
  n_le := hle
  buff := List.replicate (sectorSize * n.toNat) 0
  buff_length := List.length_replicate

/-- One sector. -/
theorem diskRead_delivers_one : (∀ sector, zeroOne.fails sector = false) ∧
    (readZeroOne 1 (by decide) (by decide)).Delivers :=
  ⟨fun _ => rfl, (diskRead_delivers_iff _ fun _ => rfl).mpr
    ⟨congrArg (fun sector => zeroOne.sectors sector 1) (by decide), by decide +kernel⟩⟩

/-- Two sectors: the read is reported as successful, and the buffer holds the first one only. -/
theorem not_diskRead_delivers :
    ¬ ∀ r : Read, (∀ sector, r.drive.fails sector = false) → r.Delivers := by
  intro hall
  have hdelivers := hall (readZeroOne 2 (by decide) (by decide)) fun _ => rfl
  obtain ⟨s', hrun⟩ := (readZeroOne 2 (by decide) (by decide)).run_eq fun _ => rfl
  have heq := congrArg (fun l => l.getD 512 0) (hdelivers _ _ hrun)
  revert heq
  decide +kernel

end Rastapopoulos.Blk
