import Rastapopoulos.Blk.Ata

/-!
# Reading bytes from a drive

`perform_read` of `userland/blk/blockdrv.c`: a read of any number of bytes from any offset, put
together from sectors. A part of a sector is read into a buffer of its own and copied; whole sectors
are read where they belong, by one command.

`perform_read` is modelled over any operation that reads sectors. For one that gets the sectors
across up to the first that cannot be read (`transfer`), which is what `ata_read_lba28` does for
commands of up to 256 sectors (`ataReadLba28_transfer`), the bytes of the drive arrive
(`performRead_slice`); but if the command for whole sectors gets only some of them across, they
count as read all the same (`performRead_honest_iff`).
-/

namespace Rastapopoulos.Blk

/-! ## The program -/

/-- An operation that reads sectors: the arguments are those of `ata_read_lba28`. -/
def ReadOp (σ : Type) : Type :=
  σ → (buffer : List Byte) → (bufferSize sectors : ℕ) → (sector : BitVec 32) →
    Except Fault (ℤ × List Byte × σ)

/-- The variables of the loop of `perform_read`. The memory of the buffer is split where `buffer`
points to. -/
structure ReadLoop (σ : Type) where
  dev : σ
  before : List Byte
  buffer : List Byte
  bufferSize : ℕ
  offset : ℕ
  byteCount : ℤ
  readBytes : ℤ

/-- Ways to leave the loop from within. -/
inductive Stop (σ : Type)
  | fault (fault : Fault)
  | done (result : ℤ) (buffer : List Byte) (dev : σ)

section Program

variable {σ : Type}

/-- `return read_bytes` -/
def ReadLoop.stop (s : ReadLoop σ) : Stop σ := .done s.readBytes (s.before ++ s.buffer) s.dev

/-- The updates of the counters, and of the pointer into the memory, at the end of a part. -/
def ReadLoop.advance (s : ReadLoop σ) (dev : σ) (buffer : List Byte) (dataSize : ℕ) :
    ReadLoop σ where
  dev := dev
  before := s.before ++ buffer.take dataSize
  buffer := buffer.drop dataSize
  bufferSize := subW s.bufferSize dataSize
  offset := (s.offset + dataSize) % 2 ^ 64
  byteCount := s.byteCount - dataSize
  readBytes := s.readBytes + dataSize

def memcpy (dest source : List Byte) (size : ℕ) : Except Fault (List Byte) := do
  check (size ≤ dest.length ∧ size ≤ source.length) .overrun
  return source.take size ++ dest.drop size

/-- `tmp`, which is not initialised. -/
def tmp : List Byte := List.replicate sectorSize 0xCC

/-- `offset_in_sector` -/
def ReadLoop.offsetInSector (s : ReadLoop σ) : ℕ := s.offset % sectorSize

/-- `data_size`, for a part of a sector. -/
def ReadLoop.dataSize (s : ReadLoop σ) : ℕ :=
  let dataSize := sectorSize - s.offsetInSector
  let dataSize := if s.bufferSize < dataSize then s.bufferSize else dataSize
  if s.byteCount < dataSize then s.byteCount.toNat else dataSize

variable (read : ReadOp σ)

/-- The first half of a turn: a part of a sector. -/
def readPart (s : ReadLoop σ) : Except (Stop σ) (ReadLoop σ) :=
  if s.offset % sectorSize ≠ 0 ∨ s.byteCount < sectorSize then do
    let sector := BitVec.ofNat 32 (s.offset / sectorSize)
    let r ← (read s.dev tmp sectorSize 1 sector).mapError .fault
    if r.1 ≠ 1 then .error { s with dev := r.2.2 }.stop
    else do
      let buffer ← (memcpy s.buffer (r.2.1.drop s.offsetInSector) s.dataSize).mapError .fault
      return s.advance r.2.2 buffer s.dataSize
  else return s

/-- The second half: as many whole sectors as there are. -/
def readWhole (s : ReadLoop σ) : Except (Stop σ) (ReadLoop σ) :=
  if sectorSize ≤ s.byteCount then do
    let wholesectors := s.byteCount.toNat / sectorSize
    let startSector := BitVec.ofNat 32 (s.offset / sectorSize)
    let r ← (read s.dev s.buffer s.bufferSize wholesectors startSector).mapError .fault
    if r.1 ≤ 0 then .error { s with buffer := r.2.1, dev := r.2.2 }.stop
    else return s.advance r.2.2 r.2.1 (wholesectors * sectorSize)
  else return s

/-- `while(byte_count)`, for at most `fuel` turns. -/
def readLoop : ℕ → ReadLoop σ → Except (Stop σ) (ReadLoop σ)
  | 0, _ => .error (.fault .hang)
  | fuel + 1, s =>
    if s.byteCount = 0 then .ok s
    else do
      let s ← readPart read s
      let s ← readWhole read s
      check (0 ≤ s.byteCount) (.fault .assertion)
      readLoop fuel s

/-- What `perform_read` returns, and the buffer. -/
def finish : Except (Stop σ) (ReadLoop σ) → Except Fault (ℤ × List Byte × σ)
  | .ok s => .ok (s.readBytes, s.before ++ s.buffer, s.dev)
  | .error (.done result buffer dev) => .ok (result, buffer, dev)
  | .error (.fault fault) => .error fault

def performRead (fuel : ℕ) (dev : σ) (buffer : List Byte) (bufferSize offset : ℕ) (byteCount : ℤ)
    (deviceSize : ℕ) : Except Fault (ℤ × List Byte × σ) :=
  if byteCount < 0 ∨ bufferSize = 0 then .ok (-1, buffer, dev)
  else if byteCount = 0 then .ok (0, buffer, dev)
  else if deviceSize ≤ offset then .ok (0, buffer, dev)
  else
    let left := deviceSize - offset
    let byteCount := if left < byteCount then (left : ℤ) else byteCount
    finish (readLoop read fuel ⟨dev, [], buffer, bufferSize, offset, byteCount, 0⟩)

/-- `handle_blkimpl_read`: the result, the buffer, `*buffer_size` and the device. The `int` offset
is extended to 64 bits with its sign. -/
def handleBlkimplRead (fuel : ℕ) (dev : σ) (maxlba28 : BitVec 32) (buffer : List Byte)
    (bufferSize offset : BitVec 32) : Except Fault (ℤ × List Byte × BitVec 32 × σ) := do
  let (result, buffer, dev) ← performRead read fuel dev buffer bufferSize.toNat
    (offset.signExtend 64).toNat bufferSize.toInt (maxlba28.toNat * sectorSize)
  return (result, buffer, if 0 ≤ result then BitVec.ofInt 32 result else 0, dev)

end Program

/-! ## Getting sectors across -/

/-- Sectors get across up to the first that cannot be read. -/
def transfer (drive : Drive) : ReadOp Unit := fun _ buffer bufferSize sectors sector => do
  check (0 < sectors) .assertion
  if bufferSize < sectorSize * sectors % wordMod then return (-1, buffer, ())
  let n := drive.readable sector.toNat sectors
  check (sectorSize * n ≤ buffer.length) .overrun
  return (n, drive.sectors sector.toNat n ++ buffer.drop (sectorSize * n), ())

section Transfer

variable {drive : Drive} {sector n bufferSize : ℕ} {buffer : List Byte}

theorem transfer_eq (dev : Unit) (hpos : 0 < n) (hsector : sector < 2 ^ 32)
    (hlen : buffer.length = bufferSize) (hsize : sectorSize * n ≤ bufferSize) :
    transfer drive dev buffer bufferSize n (BitVec.ofNat 32 sector) =
      .ok (drive.readable sector n, drive.sectors sector (drive.readable sector n) ++
        buffer.drop (sectorSize * drive.readable sector n), ()) := by
  have hle : sectorSize * drive.readable sector n ≤ buffer.length :=
    (Nat.mul_le_mul_left _ (drive.readable_le sector n)).trans (hsize.trans hlen.ge)
  have hfits : ¬ bufferSize < sectorSize * n % wordMod :=
    Nat.not_lt.mpr ((Nat.mod_le _ _).trans hsize)
  rw [transfer, check_of _ hpos, ok_bind, if_neg hfits, BitVec.toNat_ofNat,
    Nat.mod_eq_of_lt hsector]
  dsimp only
  rw [check_of _ hle]
  rfl

/-- `ata_read_lba28` does just this, if the number of sectors fits its register. -/
theorem ataReadLba28_transfer (s : Ata) (hpos : 0 < n) (hn : n ≤ 256) (hsector : sector < 2 ^ 28)
    (hlen : buffer.length = bufferSize) (hsize : sectorSize * n ≤ bufferSize) :
    ∃ r data s', transfer drive () buffer bufferSize n (BitVec.ofNat 32 sector) = .ok (r, data, ()) ∧
      ataReadLba28 drive s buffer bufferSize n 0 (BitVec.ofNat 32 sector) = .ok (r, data, s') := by
  have hlt : sector < 2 ^ 32 := hsector.trans (by decide)
  have hmod : (BitVec.ofNat 32 sector).toNat % 2 ^ 28 = sector := by
    rw [BitVec.toNat_ofNat, Nat.mod_eq_of_lt hlt, Nat.mod_eq_of_lt hsector]
  subst hlen
  obtain ⟨s', hread⟩ := @ataReadLba28_readable drive buffer n s (BitVec.ofNat 32 sector) hpos hn hsize
  rw [hmod] at hread
  exact ⟨_, _, s', transfer_eq () hpos hlt rfl hsize, hread⟩

end Transfer

/-! ## The halves of a turn -/

theorem Drive.take_drop_bytes (drive : Drive) (start : ℕ) {i d len : ℕ} (h : i + d ≤ len) :
    ((drive.bytes start len).drop i).take d = drive.bytes (start + i) d := by
  obtain ⟨rest, rfl⟩ := Nat.exists_eq_add_of_le h
  rw [Nat.add_assoc, drive.bytes_add, List.drop_left' (drive.length_bytes _ _), drive.bytes_add,
    List.take_left' (drive.length_bytes _ _)]

/-- The state when `n` bytes are left to be read, and there is room for them. -/
structure ReadLoop.Ready (s : ReadLoop Unit) (n : ℕ) : Prop where
  byteCount : s.byteCount = n
  length : s.buffer.length = s.bufferSize
  le : n ≤ s.bufferSize
  lt : s.bufferSize < 2 ^ 31
  offset : s.offset + n ≤ 2 ^ 41

/-- The state when the next bytes have been stored. -/
def ReadLoop.moved (s : ReadLoop Unit) (data : List Byte) : ReadLoop Unit where
  dev := ()
  before := s.before ++ data
  buffer := s.buffer.drop data.length
  bufferSize := s.bufferSize - data.length
  offset := s.offset + data.length
  byteCount := s.byteCount - data.length
  readBytes := s.readBytes + data.length

/-- The bytes that are read as a part of a sector. -/
def partSize (offset n : ℕ) : ℕ := min (sectorSize - offset % sectorSize) n

/-- The bytes that the first half of a turn reads. -/
def headSize (offset n : ℕ) : ℕ :=
  if offset % sectorSize ≠ 0 ∨ n < sectorSize then partSize offset n else 0

/-- The next whole sectors as they stand in the buffer after the command: those that got across, and
the old bytes in the place of the others. -/
def wholeData (drive : Drive) (buffer : List Byte) (offset n : ℕ) : List Byte :=
  let whole := n / sectorSize
  let got := drive.readable (offset / sectorSize) whole
  drive.bytes offset (sectorSize * got) ++
    (buffer.drop (sectorSize * got)).take (sectorSize * (whole - got))

variable {buffer : List Byte}

section Halves

variable {drive : Drive} {s : ReadLoop Unit} {n : ℕ} {data : List Byte}

theorem length_wholeData (drive : Drive) (offset : ℕ) (h : n ≤ buffer.length) :
    (wholeData drive buffer offset n).length = sectorSize * (n / sectorSize) := by
  have hwhole : sectorSize * (n / sectorSize) ≤ n := Nat.mul_div_le n sectorSize
  have hgot := Nat.mul_le_mul_left sectorSize (drive.readable_le (offset / sectorSize) (n / sectorSize))
  simp only [wholeData, List.length_append, drive.length_bytes, List.length_take, List.length_drop,
    Nat.mul_sub]
  omega

theorem ReadLoop.moved_nil (s : ReadLoop Unit) : s.moved [] = s := by
  simp [ReadLoop.moved]

namespace ReadLoop.Ready

theorem moved (h : s.Ready n) (hle : data.length ≤ n) : (s.moved data).Ready (n - data.length) where
  byteCount := by
    show s.byteCount - data.length = _
    rw [h.byteCount, Nat.cast_sub hle]
  length := by
    show (s.buffer.drop data.length).length = _
    rw [List.length_drop, h.length]
    rfl
  le := Nat.sub_le_sub_right h.le _
  lt := (Nat.sub_le _ _).trans_lt h.lt
  offset := by
    have := h.offset
    show s.offset + data.length + (n - data.length) ≤ _
    omega

theorem advance_eq (h : s.Ready n) (hle : data.length ≤ n) :
    s.advance () (data ++ s.buffer.drop data.length) data.length = s.moved data := by
  have hlt := h.lt
  have hoffset := h.offset
  have hsub : subW s.bufferSize data.length = s.bufferSize - data.length :=
    subW_of_le (by unfold wordMod; omega) (hle.trans h.le)
  have hadd : (s.offset + data.length) % 2 ^ 64 = s.offset + data.length :=
    Nat.mod_eq_of_lt (by omega)
  rw [ReadLoop.advance, List.take_left, List.drop_left, hsub, hadd]
  rfl

theorem sector_lt (h : s.Ready n) (hpos : 0 < n) : s.offset / sectorSize < 2 ^ 32 := by
  have := h.offset
  unfold sectorSize
  omega

theorem dataSize_eq (h : s.Ready n) : s.dataSize = partSize s.offset n := by
  have hle := h.le
  simp only [ReadLoop.dataSize, ReadLoop.offsetInSector, h.byteCount, Nat.cast_lt,
    Int.toNat_natCast, partSize]
  by_cases hsize : s.bufferSize < sectorSize - s.offset % sectorSize
  · simp only [hsize, if_true]
    split <;> omega
  · simp only [hsize, if_false]
    split <;> omega

theorem partSize_le (offset n : ℕ) : partSize offset n ≤ n := Nat.min_le_right _ _

/-- The part that is copied. -/
theorem take_drop_sector (drive : Drive) (offset n : ℕ) :
    ((drive.sectors (offset / sectorSize) 1).drop (offset % sectorSize)).take (partSize offset n) =
      drive.bytes offset (partSize offset n) := by
  have hle : offset % sectorSize + partSize offset n ≤ sectorSize * 1 := by
    have hmod : offset % sectorSize < sectorSize := Nat.mod_lt _ (by decide)
    have hpart : partSize offset n ≤ sectorSize - offset % sectorSize := Nat.min_le_left _ _
    omega
  rw [Drive.sectors, drive.take_drop_bytes _ hle, Nat.div_add_mod]

theorem readable_one (drive : Drive) (sector : ℕ) :
    drive.readable sector 1 = if drive.fails sector then 0 else 1 := rfl

/-- **A part of a sector.** -/
theorem readPart_head (h : s.Ready n) (hpos : 0 < n) :
    readPart (transfer drive) s =
      if headSize s.offset n ≠ 0 ∧ drive.fails (s.offset / sectorSize) then .error s.stop
      else .ok (s.moved (drive.bytes s.offset (headSize s.offset n))) := by
  have hcond : s.offset % sectorSize ≠ 0 ∨ s.byteCount < sectorSize ↔
      s.offset % sectorSize ≠ 0 ∨ n < sectorSize := by
    rw [h.byteCount, Nat.cast_lt]
  by_cases hpart : s.offset % sectorSize ≠ 0 ∨ n < sectorSize
  · have hne : partSize s.offset n ≠ 0 := by
      have hmod : s.offset % sectorSize < sectorSize := Nat.mod_lt _ (by decide)
      unfold partSize
      omega
    have hread : transfer drive s.dev tmp sectorSize 1 (BitVec.ofNat 32 (s.offset / sectorSize)) =
        _ :=
      transfer_eq s.dev Nat.one_pos (h.sector_lt hpos) List.length_replicate (Nat.le_refl _)
    rw [readPart, if_pos (hcond.mpr hpart), headSize, if_pos hpart,
      if_congr (and_iff_right hne) rfl rfl]
    dsimp only
    rw [hread, mapError_ok, ok_bind, readable_one]
    by_cases hfails : drive.fails (s.offset / sectorSize) = true
    · rw [if_pos hfails, if_pos hfails]
      rfl
    · have htmp : tmp.drop (sectorSize * 1) = [] :=
        List.drop_eq_nil_of_le (by rw [tmp, List.length_replicate, Nat.mul_one])
      have hdata := take_drop_sector drive s.offset n
      have hcopy : memcpy s.buffer
          ((drive.sectors (s.offset / sectorSize) 1).drop (s.offset % sectorSize))
          (partSize s.offset n) = .ok (drive.bytes s.offset (partSize s.offset n) ++
            s.buffer.drop (partSize s.offset n)) := by
        have hroom : partSize s.offset n ≤ s.buffer.length := by
          rw [h.length]
          exact (partSize_le _ _).trans h.le
        have hthere := congrArg List.length hdata
        rw [List.length_take, drive.length_bytes] at hthere
        rw [memcpy, check_of _ ⟨hroom, by omega⟩, hdata]
        rfl
      have hadvance := h.advance_eq
        ((drive.length_bytes s.offset (partSize s.offset n)).trans_le (partSize_le _ _))
      rw [drive.length_bytes] at hadvance
      rw [if_neg hfails, if_neg hfails]
      rw [if_neg (not_not.mpr Nat.cast_one), h.dataSize_eq, htmp, List.append_nil,
        ReadLoop.offsetInSector, hcopy, mapError_ok, ok_bind, hadvance]
      rfl
  · rw [readPart, if_neg (mt hcond.mp hpart), headSize, if_neg hpart]
    exact congrArg Except.ok s.moved_nil.symm

/-- **Whole sectors.** -/
theorem readWhole_sectors (h : s.Ready n) (haligned : n = 0 ∨ s.offset % sectorSize = 0) :
    readWhole (transfer drive) s =
      if n / sectorSize ≠ 0 ∧ drive.readable (s.offset / sectorSize) (n / sectorSize) = 0 then
        .error s.stop
      else .ok (s.moved (wholeData drive s.buffer s.offset n)) := by
  have hcond : (sectorSize : ℤ) ≤ s.byteCount ↔ sectorSize ≤ n := by rw [h.byteCount, Nat.cast_le]
  have hgot := drive.readable_le (s.offset / sectorSize) (n / sectorSize)
  have hdata : wholeData drive s.buffer s.offset n = drive.bytes s.offset (sectorSize *
      drive.readable (s.offset / sectorSize) (n / sectorSize)) ++ _ := rfl
  set got := drive.readable (s.offset / sectorSize) (n / sectorSize) with hreadable
  by_cases hle : sectorSize ≤ n
  · have hpos : 0 < n / sectorSize := Nat.div_pos hle (by decide)
    have hwhole : sectorSize * (n / sectorSize) ≤ n := Nat.mul_div_le n sectorSize
    have hn : 0 < n := by unfold sectorSize at hle; omega
    have hstart : sectorSize * (s.offset / sectorSize) = s.offset :=
      Nat.mul_div_cancel' (Nat.dvd_of_mod_eq_zero (haligned.resolve_left hn.ne'))
    have hread : transfer drive s.dev s.buffer s.bufferSize (n / sectorSize)
        (BitVec.ofNat 32 (s.offset / sectorSize)) = _ :=
      transfer_eq s.dev hpos (h.sector_lt hn) h.length (hwhole.trans h.le)
    rw [← hreadable] at hread
    -- behind the sectors that got across, the buffer is as it was
    have hsectors : drive.sectors (s.offset / sectorSize) got ++ s.buffer.drop (sectorSize * got) =
        wholeData drive s.buffer s.offset n ++ s.buffer.drop (sectorSize * (n / sectorSize)) := by
      have hsplit := Nat.mul_add sectorSize got (n / sectorSize - got)
      rw [Nat.add_sub_cancel' hgot] at hsplit
      rw [Drive.sectors, hstart, hdata, List.append_assoc, hsplit, ← List.drop_drop,
        List.take_append_drop]
    have hlen := length_wholeData drive s.offset (h.le.trans h.length.ge)
    have hadvance := h.advance_eq (hlen.trans_le hwhole)
    rw [hlen, ← hsectors, Nat.mul_comm sectorSize (n / sectorSize)] at hadvance
    rw [readWhole, if_pos (hcond.mpr hle)]
    dsimp only
    rw [h.byteCount, Int.toNat_natCast, hread, mapError_ok, ok_bind]
    dsimp only
    by_cases hzero : got = 0
    · rw [if_pos (by rw [hzero]; exact le_rfl), if_pos ⟨hpos.ne', hzero⟩, hzero]
      rfl
    · rw [if_neg (not_le.mpr (by exact_mod_cast Nat.pos_of_ne_zero hzero)),
        if_neg fun hc => hzero hc.2]
      exact congrArg Except.ok hadvance
  · have hzero : n / sectorSize = 0 := Nat.div_eq_of_lt (Nat.not_le.mp hle)
    have hdata : wholeData drive s.buffer s.offset n = [] := by
      simp [wholeData, hzero, Drive.readable, Drive.bytes]
    rw [readWhole, if_neg (mt hcond.mp hle), if_neg fun h => h.1 hzero, hdata, s.moved_nil]
    rfl

end ReadLoop.Ready

end Halves

/-! ## The turns -/

theorem headSize_le (offset n : ℕ) : headSize offset n ≤ n := by
  unfold headSize partSize
  split
  · exact Nat.min_le_right _ _
  · exact Nat.zero_le _

/-- Behind the head, the offset is that of a sector, unless there is nothing left. -/
theorem headSize_aligned (offset n : ℕ) :
    headSize offset n = n ∨ (offset + headSize offset n) % sectorSize = 0 := by
  unfold headSize partSize
  split
  · rcases Nat.le_total (sectorSize - offset % sectorSize) n with hle | hle
    · unfold sectorSize at *
      omega
    · exact .inl (Nat.min_eq_right hle)
  · right
    rename_i h
    rw [not_or, not_not] at h
    exact h.1

section Turns

variable {drive : Drive} {s : ReadLoop Unit} {n fuel : ℕ}

/-- The state behind the head. -/
def ReadLoop.afterHead (drive : Drive) (s : ReadLoop Unit) (n : ℕ) : ReadLoop Unit :=
  s.moved (drive.bytes s.offset (headSize s.offset n))

/-- The state behind the whole sectors. -/
def ReadLoop.afterWhole (drive : Drive) (s : ReadLoop Unit) (n : ℕ) : ReadLoop Unit :=
  s.moved (wholeData drive s.buffer s.offset n)

/-- The state behind both. -/
def ReadLoop.afterTurn (drive : Drive) (s : ReadLoop Unit) (n : ℕ) : ReadLoop Unit :=
  (s.afterHead drive n).afterWhole drive (n - headSize s.offset n)

theorem ReadLoop.Ready.afterHead (h : s.Ready n) :
    (s.afterHead drive n).Ready (n - headSize s.offset n) := by
  have hready := h.moved ((drive.length_bytes s.offset (headSize s.offset n)).trans_le
    (headSize_le _ _))
  rwa [drive.length_bytes] at hready

theorem ReadLoop.Ready.afterWhole (h : s.Ready n) :
    (s.afterWhole drive n).Ready (n % sectorSize) := by
  have hlen := length_wholeData drive s.offset (h.le.trans h.length.ge)
  have hready := h.moved (hlen.trans_le (Nat.mul_div_le n sectorSize))
  rwa [hlen, ← Nat.mod_eq_sub_mul_div] at hready

theorem afterHead_offset (drive : Drive) (s : ReadLoop Unit) (n : ℕ) :
    (s.afterHead drive n).offset = s.offset + headSize s.offset n :=
  congrArg (s.offset + ·) (drive.length_bytes _ _)

theorem afterHead_aligned (drive : Drive) (s : ReadLoop Unit) (n : ℕ) :
    n - headSize s.offset n = 0 ∨ (s.afterHead drive n).offset % sectorSize = 0 := by
  rw [afterHead_offset]
  refine (headSize_aligned s.offset n).imp_left fun heq => ?_
  rw [heq, Nat.sub_self]

theorem afterWhole_aligned (h : s.Ready n) (haligned : n = 0 ∨ s.offset % sectorSize = 0) :
    n % sectorSize = 0 ∨ (s.afterWhole drive n).offset % sectorSize = 0 := by
  have hoffset : (s.afterWhole drive n).offset = s.offset + sectorSize * (n / sectorSize) :=
    congrArg (s.offset + ·) (length_wholeData drive s.offset (h.le.trans h.length.ge))
  rw [hoffset, Nat.add_mul_mod_self_left]
  exact haligned.imp_left fun hzero => by rw [hzero, Nat.zero_mod]

/-- **A turn.** -/
theorem readLoop_turn (h : s.Ready n) (hpos : 0 < n) :
    let s₁ := s.afterHead drive n
    let n₁ := n - headSize s.offset n
    readLoop (transfer drive) (fuel + 1) s =
      if headSize s.offset n ≠ 0 ∧ drive.fails (s.offset / sectorSize) then .error s.stop
      else if n₁ / sectorSize ≠ 0 ∧
          drive.readable (s₁.offset / sectorSize) (n₁ / sectorSize) = 0 then .error s₁.stop
      else readLoop (transfer drive) fuel (s.afterTurn drive n) := by
  intro s₁ n₁
  have hcount : s.byteCount ≠ 0 := by
    rw [h.byteCount]
    exact_mod_cast hpos.ne'
  have h₁ : s₁.Ready n₁ := h.afterHead
  have hnonneg : 0 ≤ (s₁.afterWhole drive n₁).byteCount := by
    rw [h₁.afterWhole.byteCount]
    exact Int.natCast_nonneg _
  rw [readLoop, if_neg hcount, h.readPart_head hpos]
  split
  · rfl
  · show (readWhole (transfer drive) s₁ >>= _) = _
    rw [h₁.readWhole_sectors (afterHead_aligned drive s n)]
    split
    · rfl
    · show (check (0 ≤ (s₁.afterWhole drive n₁).byteCount) _ >>= _) = _
      rw [check_of _ hnonneg]
      rfl

/-- **The last turn**: less than a sector is left. -/
theorem readLoop_tail (h : s.Ready n) (hlt : n < sectorSize)
    (haligned : n = 0 ∨ s.offset % sectorSize = 0) :
    readLoop (transfer drive) (fuel + 2) s =
      if n = 0 then .ok s
      else if drive.fails (s.offset / sectorSize) then .error s.stop
      else .ok (s.moved (drive.bytes s.offset n)) := by
  rcases Nat.eq_zero_or_pos n with rfl | hpos
  · rw [readLoop, if_pos (by rw [h.byteCount]; rfl), if_pos rfl]
  · have hhead : headSize s.offset n = n := by
      have hoffset := haligned.resolve_left hpos.ne'
      rw [headSize, if_pos (.inr hlt), partSize, hoffset]
      exact Nat.min_eq_right hlt.le
    have hturn := @readLoop_turn drive s n (fuel + 1) h hpos
    simp only [hhead, Nat.sub_self, Nat.zero_div, ne_eq, not_true_eq_false, false_and, if_false,
      hpos.ne', not_false_eq_true, true_and] at hturn
    have hdata : wholeData drive (s.afterHead drive n).buffer (s.afterHead drive n).offset 0 = [] := by
      simp [wholeData, Drive.readable, Drive.bytes]
    have hlast : s.afterTurn drive n = s.moved (drive.bytes s.offset n) := by
      rw [ReadLoop.afterTurn, hhead, Nat.sub_self, ReadLoop.afterWhole, hdata, ReadLoop.moved_nil, ReadLoop.afterHead, hhead]
    have hzero : (s.moved (drive.bytes s.offset n)).byteCount = 0 := by
      show s.byteCount - ((drive.bytes s.offset n).length : ℤ) = 0
      rw [drive.length_bytes, h.byteCount, sub_self]
    rw [hturn, hlast, if_neg hpos.ne', readLoop, if_pos hzero]

/-- What is returned in a state. -/
def ReadLoop.returned (s : ReadLoop Unit) : ℤ × List Byte × Unit :=
  (s.readBytes, s.before ++ s.buffer, ())

/-- **The loop**: after the first turn, less than a sector is left. -/
theorem finish_readLoop (h : s.Ready n) (hpos : 0 < n) :
    let s₁ := s.afterHead drive n
    let n₁ := n - headSize s.offset n
    let s₂ := s.afterTurn drive n
    let n₂ := n₁ % sectorSize
    finish (readLoop (transfer drive) (fuel + 3) s) = .ok (
      if headSize s.offset n ≠ 0 ∧ drive.fails (s.offset / sectorSize) then s.returned
      else if n₁ / sectorSize ≠ 0 ∧
          drive.readable (s₁.offset / sectorSize) (n₁ / sectorSize) = 0 then s₁.returned
      else if n₂ = 0 ∨ drive.fails (s₂.offset / sectorSize) then s₂.returned
      else (s₂.moved (drive.bytes s₂.offset n₂)).returned) := by
  intro s₁ n₁ s₂ n₂
  have h₁ : s₁.Ready n₁ := h.afterHead
  have htail : readLoop (transfer drive) (fuel + 2) s₂ = _ :=
    readLoop_tail h₁.afterWhole (Nat.mod_lt _ (by decide))
      (afterWhole_aligned h₁ (afterHead_aligned drive s n))
  rw [readLoop_turn h hpos, htail]
  split
  · rfl
  · split
    · rfl
    · by_cases hzero : n₂ = 0
      · rw [if_pos hzero, if_pos (.inl hzero)]
        rfl
      · by_cases hfails : drive.fails (s₂.offset / sectorSize) = true
        · rw [if_neg hzero, if_pos hfails, if_pos (.inr hfails)]
          rfl
        · rw [if_neg hzero, if_neg hfails, if_neg (not_or.mpr ⟨hzero, hfails⟩)]
          rfl

end Turns

/-! ## What has been read -/

/-- So many bytes have been read from `start` on into `memory` as have been counted, and nothing
else has changed. -/
structure ReadLoop.Holds (drive : Drive) (memory : List Byte) (start : ℕ) (s : ReadLoop Unit) :
    Prop where
  offset : s.offset = start + s.before.length
  readBytes : s.readBytes = s.before.length
  before : s.before = drive.bytes start s.before.length
  buffer : s.buffer = memory.drop s.before.length

section Holds

variable {drive : Drive} {memory : List Byte} {start n : ℕ} {s : ReadLoop Unit}

theorem ReadLoop.Holds.moved (h : s.Holds drive memory start) (d : ℕ) :
    (s.moved (drive.bytes s.offset d)).Holds drive memory start := by
  have hlen : (s.before ++ drive.bytes s.offset d).length = s.before.length + d := by
    rw [List.length_append, drive.length_bytes]
  constructor
  · show s.offset + (drive.bytes s.offset d).length = start + (s.before ++ _).length
    rw [hlen, drive.length_bytes, h.offset, Nat.add_assoc]
  · show s.readBytes + ((drive.bytes s.offset d).length : ℤ) = ((s.before ++ _).length : ℤ)
    rw [hlen, drive.length_bytes, h.readBytes, Nat.cast_add]
  · show s.before ++ drive.bytes s.offset d = drive.bytes start (s.before ++ _).length
    rw [hlen, drive.bytes_add, ← h.offset, ← h.before]
  · show s.buffer.drop (drive.bytes s.offset d).length = memory.drop (s.before ++ _).length
    rw [hlen, drive.length_bytes, h.buffer, List.drop_drop]

/-- If all whole sectors got across, or there are none. -/
theorem ReadLoop.Holds.afterWhole (h : s.Holds drive memory start)
    (hgot : drive.readable (s.offset / sectorSize) (n / sectorSize) = n / sectorSize) :
    (s.afterWhole drive n).Holds drive memory start := by
  have hdata : wholeData drive s.buffer s.offset n =
      drive.bytes s.offset (sectorSize * (n / sectorSize)) := by
    simp [wholeData, hgot]
  rw [ReadLoop.afterWhole, hdata]
  exact h.moved _

/-- What is returned is what has been read. -/
theorem ReadLoop.Holds.returned (h : s.Holds drive memory start) :
    s.returned = ((s.before.length : ℤ), drive.bytes start s.before.length ++
      memory.drop s.before.length, ()) := by
  rw [ReadLoop.returned, h.readBytes, h.buffer, ← h.before]

theorem ReadLoop.moved_total (s : ReadLoop Unit) (data : List Byte) :
    (s.moved data).byteCount + (s.moved data).readBytes = s.byteCount + s.readBytes := by
  simp only [ReadLoop.moved]
  omega

/-- If nothing is left, everything has been read. -/
theorem ReadLoop.Holds.returned_all (h : s.Holds drive memory start) (hready : s.Ready 0)
    (htotal : s.byteCount + s.readBytes = n) :
    s.returned = ((n : ℤ), drive.bytes start n ++ memory.drop n, ()) := by
  have hlen : s.before.length = n := by
    have hcount := hready.byteCount
    have hread := h.readBytes
    omega
  rw [h.returned, hlen]

end Holds

/-! ## The call -/

/-- The state at the start of the loop. -/
def ReadLoop.first (memory : List Byte) (offset n : ℕ) : ReadLoop Unit :=
  ⟨(), [], memory, memory.length, offset, n, 0⟩

variable {s : ReadLoop Unit}

section Call

variable {drive : Drive} {memory : List Byte} {offset n deviceSize fuel : ℕ}

theorem ReadLoop.holds_first (drive : Drive) (memory : List Byte) (offset n : ℕ) :
    (ReadLoop.first memory offset n).Holds drive memory offset :=
  ⟨rfl, rfl, rfl, rfl⟩

theorem ReadLoop.ready_first (hle : n ≤ memory.length) (hlt : memory.length < 2 ^ 31)
    (hoffset : offset + n ≤ 2 ^ 41) : (ReadLoop.first memory offset n).Ready n :=
  ⟨rfl, rfl, hle, hlt, hoffset⟩

/-- The checks at the start, and the cut at the end of the device. -/
theorem performRead_loop (hpos : 0 < memory.length) (hoffset : offset < deviceSize) :
    performRead (transfer drive) fuel () memory memory.length offset memory.length deviceSize =
      finish (readLoop (transfer drive) fuel
        (ReadLoop.first memory offset (min memory.length (deviceSize - offset)))) := by
  have hcount : ((if ((deviceSize - offset : ℕ) : ℤ) < memory.length
      then ((deviceSize - offset : ℕ) : ℤ) else memory.length)) =
        ((min memory.length (deviceSize - offset) : ℕ) : ℤ) := by
    split <;> omega
  rw [performRead, if_neg (by omega), if_neg (by omega), if_neg (by omega)]
  dsimp only
  rw [hcount]
  rfl

/-- A drive without errors. -/
theorem finish_readLoop_all (hreads : ∀ sector, drive.fails sector = false)
    (h : s.Ready n) (hpos : 0 < n) (hholds : s.Holds drive memory offset) (hstart : s.readBytes = 0) :
    finish (readLoop (transfer drive) (fuel + 3) s) =
      .ok ((n : ℤ), drive.bytes offset n ++ memory.drop n, ()) := by
  have hrun := @finish_readLoop drive s n fuel h hpos
  simp only [hreads, Bool.false_eq_true, and_false, if_false, or_false,
    drive.readable_eq hreads, not_and_self, ne_eq] at hrun
  have h₂ : (s.afterTurn drive n).Ready _ := h.afterHead.afterWhole
  have hholds₂ : (s.afterTurn drive n).Holds drive memory offset :=
    (hholds.moved _).afterWhole (drive.readable_eq hreads _ _)
  have htotal : (s.afterTurn drive n).byteCount + (s.afterTurn drive n).readBytes = n := by
    rw [ReadLoop.afterTurn, ReadLoop.afterWhole, ReadLoop.moved_total, ReadLoop.afterHead,
      ReadLoop.moved_total, hstart, h.byteCount, add_zero]
  revert hrun h₂ hholds₂ htotal
  generalize s.afterTurn drive n = s₂
  generalize (n - headSize s.offset n) % sectorSize = n₂
  intro hrun h₂ hholds₂ htotal
  rw [hrun]
  split
  · rename_i hzero
    rw [hholds₂.returned_all (hzero ▸ h₂) htotal]
  · have h₃ : (s₂.moved (drive.bytes s₂.offset n₂)).Ready (n₂ - n₂) := by
      have hmoved := h₂.moved (drive.length_bytes s₂.offset n₂).le
      rwa [drive.length_bytes] at hmoved
    rw [Nat.sub_self] at h₃
    rw [(hholds₂.moved n₂).returned_all h₃ ((ReadLoop.moved_total _ _).trans htotal)]

/-- **The bytes of the drive arrive**, as many as there are up to its end, and nothing else is
written. -/
theorem performRead_slice {byteCount : ℕ} (hreads : ∀ sector, drive.fails sector = false)
    (hdevice : deviceSize ≤ 2 ^ 28 * sectorSize) (hpos : 1 ≤ byteCount)
    (hlt : byteCount ≤ 2 ^ 31 - 1) (hlen : memory.length = byteCount) (hfuel : 3 ≤ fuel) :
    performRead (transfer drive) fuel () memory byteCount offset byteCount deviceSize =
      .ok ((min byteCount (deviceSize - offset) : ℕ),
        drive.bytes offset (min byteCount (deviceSize - offset)) ++
          memory.drop (min byteCount (deviceSize - offset)), ()) := by
  by_cases hoffset : offset < deviceSize
  · subst hlen
    obtain ⟨fuel, rfl⟩ := Nat.exists_eq_add_of_le' hfuel
    have hend : offset + min memory.length (deviceSize - offset) ≤ 2 ^ 41 := by
      unfold sectorSize at hdevice
      omega
    rw [performRead_loop hpos hoffset]
    exact finish_readLoop_all hreads
      (ReadLoop.ready_first (Nat.min_le_left _ _) (by omega) hend) (by omega)
      (ReadLoop.holds_first drive memory offset _) rfl
  · have hzero : deviceSize - offset = 0 := by omega
    rw [performRead, if_neg (by omega), if_neg (by omega), if_pos (by omega), hzero, Nat.min_zero]
    rfl

end Call

/-- A drive whose bytes count up. -/
def counting : Drive := ⟨fun i => BitVec.ofNat 8 i, fun _ => false, fun _ => 0⟩

/-- A read across the end of a device of one sector. -/
theorem performRead_slice_end : (∀ sector, counting.fails sector = false) ∧
    performRead (transfer counting) 3 () [7, 7, 7] 3 510 3 512 = .ok (2, [254, 255, 7], ()) :=
  ⟨fun _ => rfl, (performRead_slice (fun _ => rfl) (by decide) (by decide) (by decide) rfl
    (by decide)).trans (by decide)⟩

/-! ## Drives that fail -/

section Honest

variable {σ : Type} {read : ReadOp σ} {fuel : ℕ} {s : ReadLoop σ}

/-- More turns do not change what a run comes to. -/
theorem readLoop_mono (k : ℕ) (h : readLoop read fuel s ≠ .error (.fault .hang)) :
    readLoop read (fuel + k) s = readLoop read fuel s := by
  induction fuel generalizing s with
  | zero => exact absurd rfl h
  | succ fuel ih =>
    rw [Nat.succ_add, readLoop, readLoop]
    rw [readLoop] at h
    split
    · rfl
    · rename_i hcount
      rw [if_neg hcount] at h
      cases hpart : readPart read s with
      | error e => rfl
      | ok s₁ =>
        rw [hpart, ok_bind] at h
        rw [ok_bind, ok_bind]
        cases hwhole : readWhole read s₁ with
        | error e => rfl
        | ok s₂ =>
          rw [hwhole, ok_bind] at h
          rw [ok_bind, ok_bind]
          by_cases hnonneg : 0 ≤ s₂.byteCount
          · rw [check_of _ hnonneg] at h
            rw [check_of _ hnonneg, ok_bind, ok_bind, ih h]
          · rw [check_of_not _ hnonneg]
            rfl

end Honest

section Honest

variable {drive : Drive} {offset n : ℕ}

/-- If a number of bytes is returned, so many bytes of the drive are at the start of the buffer. The
size of the buffer is also the number of bytes to read, as an `int`. -/
def Honest (drive : Drive) (maxlba28 size : BitVec 32) (offset : ℕ) : Prop :=
  ∀ memory : List Byte, memory.length = size.toNat → ∀ fuel r buffer,
    performRead (transfer drive) fuel () memory size.toNat offset size.toInt
        (maxlba28.toNat * sectorSize) = .ok (r, buffer, ()) →
      0 ≤ r → buffer.take r.toNat = drive.bytes offset r.toNat

/-- If the whole sectors among the `n` bytes from `offset` on are read at all, then the first of
them cannot be read or all of them can. -/
def AllOrNothing (drive : Drive) (offset n : ℕ) : Prop :=
  let head := headSize offset n
  let sector := (offset + head) / sectorSize
  let whole := (n - head) / sectorSize
  (head ≠ 0 → drive.fails (offset / sectorSize) = false) →
    drive.readable sector whole = 0 ∨ drive.readable sector whole = whole

variable {memory : List Byte} {fuel : ℕ}

theorem ReadLoop.Holds.honest {r : ℤ}
    (h : s.Holds drive memory offset) (hr : s.returned = (r, buffer, ())) :
    buffer.take r.toNat = drive.bytes offset r.toNat := by
  rw [h.returned] at hr
  obtain ⟨rfl, rfl, -⟩ := hr
  rw [Int.toNat_natCast, List.take_left' (drive.length_bytes _ _)]

/-- Sectors that are read all or not at all leave nothing in the buffer that does not belong
there. -/
theorem honest_of_allOrNothing {r : ℤ}
    (h : s.Ready n) (hpos : 0 < n) (hholds : s.Holds drive memory offset)
    (hall : AllOrNothing drive s.offset n)
    (hr : finish (readLoop (transfer drive) fuel s) = .ok (r, buffer, ())) :
    buffer.take r.toNat = drive.bytes offset r.toNat := by
  have hholds₁ : (s.afterHead drive n).Holds drive memory offset := hholds.moved _
  have hreturns : readLoop (transfer drive) fuel s ≠ .error (.fault .hang) := by
    intro hhang
    rw [hhang] at hr
    cases hr
  rw [← readLoop_mono 3 hreturns, finish_readLoop h hpos, Except.ok.injEq] at hr
  split at hr
  · exact hholds.honest hr
  · rename_i hhead
    have hgot := hall fun hne => Bool.eq_false_iff.mpr fun hfails => hhead ⟨hne, hfails⟩
    rw [← afterHead_offset drive] at hgot
    split at hr
    · exact hholds₁.honest hr
    · rename_i hwhole
      have hholds₂ := hholds₁.afterWhole (hgot.elim
        (fun hzero => hzero.trans (not_not.mp fun hne => hwhole ⟨Ne.symm hne, hzero⟩)) id)
      split at hr
      · exact hholds₂.honest hr
      · exact (hholds₂.moved _).honest hr

/-- The old bytes in the place of the sectors that did not get across. -/
theorem getElem?_afterWhole {got : ℕ} (h : s.Ready n) (hholds : s.Holds drive memory offset)
    (hgot : drive.readable (s.offset / sectorSize) (n / sectorSize) = got)
    (hlt : got < n / sectorSize) :
    s.before.length + sectorSize * got < (s.afterWhole drive n).before.length ∧
      (s.afterWhole drive n).before[s.before.length + sectorSize * got]? =
        memory[s.before.length + sectorSize * got]? := by
  have hlen := length_wholeData drive s.offset (h.le.trans h.length.ge)
  have hstale : 0 < sectorSize * (n / sectorSize - got) :=
    Nat.mul_pos (by decide) (Nat.sub_pos_of_lt hlt)
  constructor
  · show _ < (s.before ++ wholeData drive s.buffer s.offset n).length
    rw [List.length_append, hlen]
    exact Nat.add_lt_add_left ((Nat.mul_lt_mul_left (by decide)).mpr hlt) _
  · show (s.before ++ wholeData drive s.buffer s.offset n)[_]? = _
    rw [List.getElem?_append_right (Nat.le_add_right _ _), Nat.add_sub_cancel_left, wholeData,
      hgot, List.getElem?_append_right (drive.length_bytes _ _).le, drive.length_bytes,
      Nat.sub_self, List.getElem?_take_of_lt hstale, List.getElem?_drop, hholds.buffer,
      List.getElem?_drop, Nat.add_zero]

theorem ReadLoop.moved_counted (h : s.readBytes = s.before.length)
    (data : List Byte) : (s.moved data).readBytes = (s.moved data).before.length := by
  simp [ReadLoop.moved, h]

/-- If some but not all of the whole sectors get across, an old byte counts as read. -/
theorem exists_old_byte (h : s.Ready n)
    (hholds : s.Holds drive memory offset) (hsome : ¬ AllOrNothing drive s.offset n) :
    ∃ r buffer i, finish (readLoop (transfer drive) 3 s) = .ok ((r : ℕ), buffer, ()) ∧
      i < r ∧ buffer[i]? = memory[i]? := by
  simp only [AllOrNothing, not_forall, not_or, ← afterHead_offset drive] at hsome
  obtain ⟨hhead, hzero, hne⟩ := hsome
  have hpos : 0 < n := by
    rcases Nat.eq_zero_or_pos n with rfl | hpos
    · rw [Nat.zero_sub] at hzero
      exact absurd rfl hzero
    · exact hpos
  have h₁ : (s.afterHead drive n).Ready (n - headSize s.offset n) := h.afterHead
  have hholds₁ : (s.afterHead drive n).Holds drive memory offset := hholds.moved _
  obtain ⟨hlt₂, hold⟩ := getElem?_afterWhole h₁ hholds₁ rfl
    (lt_of_le_of_ne (drive.readable_le _ _) hne)
  have hcounted : (s.afterTurn drive n).readBytes = _ :=
    ReadLoop.moved_counted hholds₁.readBytes _
  have hhead' : ¬ (headSize s.offset n ≠ 0 ∧ drive.fails (s.offset / sectorSize) = true) := by
    rintro ⟨hne, hfails⟩
    rw [hhead hne] at hfails
    cases hfails
  have hrun := @finish_readLoop drive s n 0 h hpos
  dsimp only at hrun
  rw [if_neg hhead', if_neg fun h => hzero h.2] at hrun
  split at hrun
  · exact ⟨_, _, _, hrun.trans (congrArg Except.ok (Prod.ext hcounted rfl)), hlt₂,
      (List.getElem?_append_left hlt₂).trans hold⟩
  · have hlt₃ := hlt₂.trans_le (List.sublist_append_left _ (drive.bytes
      (s.afterTurn drive n).offset ((n - headSize s.offset n) % sectorSize))).length_le
    exact ⟨_, _, _, hrun.trans (congrArg Except.ok
      (Prod.ext (ReadLoop.moved_counted hcounted _) rfl)), hlt₃,
      (List.getElem?_append_left hlt₃).trans ((List.getElem?_append_left hlt₂).trans hold)⟩

theorem allOrNothing_zero (drive : Drive) (offset : ℕ) : AllOrNothing drive offset 0 := by
  intro _
  rw [Nat.zero_sub]
  exact .inl rfl

theorem Drive.getElem?_bytes (drive : Drive) (start : ℕ) {i len : ℕ} (h : i < len) :
    (drive.bytes start len)[i]? = some (drive.content (start + i)) := by
  simp [Drive.bytes, h]

/-- A buffer with other bytes than those of the drive. -/
def otherBytes (drive : Drive) (start len : ℕ) : List Byte := (drive.bytes start len).map (· + 1)

theorem getElem?_otherBytes_ne (drive : Drive) (start len i : ℕ) :
    (otherBytes drive start len)[i]? ≠ some (drive.content (start + i)) := by
  have hne : ∀ b : Byte, b + 1 ≠ b := by decide
  rcases Nat.lt_or_ge i len with hi | hi
  · rw [otherBytes, List.getElem?_map, drive.getElem?_bytes start hi]
    exact fun h => hne _ (Option.some.inj h)
  · rw [List.getElem?_eq_none (by rw [otherBytes, List.length_map, drive.length_bytes]; exact hi)]
    simp

/-- **No more is reported than was read** exactly if the command for whole sectors gets none of them
across, or all. -/
theorem performRead_honest_iff (drive : Drive) (maxlba28 size : BitVec 32) (offset : ℕ) :
    Honest drive maxlba28 size offset ↔ size.toInt < 0 ∨
      AllOrNothing drive offset (min size.toNat (maxlba28.toNat * sectorSize - offset)) := by
  have hsize : ¬ size.toInt < 0 → size.toNat < 2 ^ 31 ∧ size.toInt = size.toNat := fun h =>
    ⟨(toInt_nonneg_iff size).mp (not_lt.mp h), toInt_of_nonneg (not_lt.mp h)⟩
  have hend : offset + min size.toNat (maxlba28.toNat * sectorSize - offset) ≤ 2 ^ 41 ∨
      maxlba28.toNat * sectorSize ≤ offset := by
    have := maxlba28.isLt
    unfold sectorSize
    omega
  constructor
  · intro hhonest
    by_contra hnot
    obtain ⟨hneg, hsome⟩ := not_or.mp hnot
    obtain ⟨hlt, hint⟩ := hsize hneg
    have hmin : min size.toNat (maxlba28.toNat * sectorSize - offset) ≠ 0 := by
      intro hzero
      rw [hzero] at hsome
      exact hsome (allOrNothing_zero drive offset)
    have hlen : (otherBytes drive offset size.toNat).length = size.toNat := by
      rw [otherBytes, List.length_map, drive.length_bytes]
    have hready := ReadLoop.ready_first ((Nat.min_le_left _ _).trans hlen.ge) (hlen.trans_lt hlt)
      (hend.resolve_right (by omega))
    obtain ⟨r, buffer, i, hrun, hi, hold⟩ :=
      exists_old_byte hready (ReadLoop.holds_first drive _ offset _) hsome
    have htake : buffer.take r = drive.bytes offset r := by
      refine hhonest _ hlen 3 r buffer ?_ (Int.natCast_nonneg r)
      have hcall := @performRead_loop drive (otherBytes drive offset size.toNat) offset
        (maxlba28.toNat * sectorSize) 3 (by omega) (by omega)
      rw [hlen] at hcall
      rw [hint, hcall]
      exact hrun
    refine getElem?_otherBytes_ne drive offset size.toNat i ?_
    rw [← hold, ← List.getElem?_take_of_lt hi, htake, drive.getElem?_bytes offset hi]
  · intro h memory hlen fuel r buffer hr hnonneg
    by_cases hneg : size.toInt < 0 ∨ size.toNat = 0
    · rw [performRead, if_pos hneg] at hr
      cases hr
      exact absurd hnonneg (by decide)
    · obtain ⟨hneg, hzero⟩ := not_or.mp hneg
      obtain ⟨hlt, hint⟩ := hsize hneg
      by_cases hoffset : offset < maxlba28.toNat * sectorSize
      · rw [hint, ← hlen, performRead_loop (by omega) hoffset, hlen] at hr
        exact honest_of_allOrNothing (ReadLoop.ready_first ((Nat.min_le_left _ _).trans hlen.ge)
          (hlen.trans_lt hlt) (hend.resolve_right (by omega))) (by omega)
          (ReadLoop.holds_first drive memory offset _) (h.resolve_left hneg) hr
      · rw [performRead, if_neg (not_or.mpr ⟨hneg, hzero⟩), if_neg (by omega), if_pos (by omega)] at hr
        cases hr
        rfl

end Honest

/-- A drive of which sector 1 cannot be read. -/
def oneBad : Drive := ⟨fun _ => 0, fun sector => sector = 1, fun _ => 0⟩

/-- Two sectors are asked for, the first gets across, and both count. -/
theorem not_honest_one_bad : ¬ ∀ drive maxlba28 size offset, Honest drive maxlba28 size offset := by
  intro h
  have hrun : performRead (transfer oneBad) 3 () (List.replicate 1024 7) 1024 0 1024 1024 =
      .ok (1024, List.replicate 512 0 ++ List.replicate 512 7, ()) := by decide +kernel
  have htake := h oneBad 2 1024 0 (List.replicate 1024 7) List.length_replicate 3 _ _ hrun (by decide)
  exact absurd (congrArg (fun l => l.getD 512 0) htake) (by decide +kernel)

end Rastapopoulos.Blk
