import Rastapopoulos.Foundations.Bytes
import Rastapopoulos.Foundations.Fallible
import Rastapopoulos.Foundations.Word

/-!
# Reading from an ATA drive

`ata_read_lba28` of `userland/blk/blockdrv.c`, and the drive behind the ports that it reads and
writes. A drive gets a command through its registers and then hands out its sectors, two bytes at a
time; it may stay busy for any time before each sector, and after a reset. All calls are for drive 0
of `ATA0`.

In whatever state the drive is, the driver gets the sectors that it asked for, from the sector
number modulo `2 ^ 28` on, up to the first that the drive cannot read (`ataReadLba28_readable`).
-/

namespace Rastapopoulos.Blk

abbrev Byte := BitVec 8

/-- Why the driver does not go on. -/
inductive Fault
  | assertion
  /-- A store outside the buffer. -/
  | overrun
  /-- A loop that waits for something that does not come. -/
  | hang
  deriving DecidableEq, Repr

/-! ## The drive -/

/-- A drive: its bytes, the sectors that cannot be read, and how long it stays busy each time. -/
structure Drive where
  content : ℕ → Byte
  fails : ℕ → Bool
  delay : ℕ → ℕ

def sectorSize : ℕ := 512

/-- The bytes from `start` on. -/
def Drive.bytes (drive : Drive) (start len : ℕ) : List Byte :=
  (List.range len).map fun i => drive.content (start + i)

/-- The bytes of `n` sectors. -/
def Drive.sectors (drive : Drive) (sector n : ℕ) : List Byte :=
  drive.bytes (sectorSize * sector) (sectorSize * n)

/-- The registers, and the command that is being carried out. -/
structure Ata where
  select : Byte
  sectorCount : Byte
  lbaLo : Byte
  lbaMid : Byte
  lbaHi : Byte
  /-- How often it has been busy so far. -/
  clock : ℕ
  /-- How long it will be busy yet, counted in reads of the status. -/
  busy : ℕ
  /-- The next sector, and how many are left. -/
  next : ℕ
  left : ℕ
  /-- The words of the next sector that have been read. -/
  word : ℕ
  deriving DecidableEq

/-- The ports that are written to. -/
inductive Port
  | errInfo
  | sectorCount
  | lbaLo
  | lbaMid
  | lbaHi
  | select
  | command
  | devCtrl
  deriving DecidableEq, Repr

def ataCmdRead : Byte := 0x20
def ataCtrlSrst : Byte := 0x04
def ataStatusErr : Byte := 0x01
def ataStatusDrq : Byte := 0x08
def ataStatusDf : Byte := 0x20
def ataStatusRdy : Byte := 0x40
def ataStatusBsy : Byte := 0x80

variable (drive : Drive)

/-- The drive is busy. -/
def Ata.wait (s : Ata) : Ata :=
  { s with clock := s.clock + 1, busy := drive.delay s.clock, word := 0 }

/-- The sector that the registers name. -/
def Ata.lba (s : Ata) : ℕ :=
  (s.select &&& 0x0F).toNat * 2 ^ 24 + s.lbaHi.toNat * 2 ^ 16 + s.lbaMid.toNat * 2 ^ 8 +
    s.lbaLo.toNat

/-- A write to a port. There is no drive 1. -/
def outb (s : Ata) (v : Byte) : Port → Ata
  | .errInfo => s
  | .sectorCount => { s with sectorCount := v }
  | .lbaLo => { s with lbaLo := v }
  | .lbaMid => { s with lbaMid := v }
  | .lbaHi => { s with lbaHi := v }
  | .select => { s with select := v }
  | .command =>
    if v = ataCmdRead ∧ s.select &&& 0x10 = 0 then
      { s.wait drive with
        next := s.lba
        left := if s.sectorCount = 0 then 256 else s.sectorCount.toNat }
    else s
  | .devCtrl => if v &&& ataCtrlSrst ≠ 0 then { s.wait drive with left := 0 } else s

/-- The alternate status. -/
def inb (s : Ata) : Byte × Ata :=
  if s.busy ≠ 0 then (ataStatusBsy, { s with busy := s.busy - 1 })
  else if s.left = 0 then (ataStatusRdy, s)
  else if drive.fails s.next then (ataStatusRdy ||| ataStatusErr, s)
  else (ataStatusRdy ||| ataStatusDrq, s)

/-- The data register. -/
def inw (s : Ata) : BitVec 16 × Ata :=
  if s.busy = 0 ∧ s.left ≠ 0 then
    (ofLeBytes 16 (drive.bytes (sectorSize * s.next + 2 * s.word) 2),
      if s.word + 1 = 256 then { s.wait drive with next := s.next + 1, left := s.left - 1 }
      else { s with word := s.word + 1 })
  else (0xFFFF, s)

/-! ## The driver -/

/-- `while(true)` in `ata_soft_reset`, for at most `fuel` turns. -/
def awaitReady : ℕ → Ata → Except Fault Ata
  | 0, _ => .error .hang
  | fuel + 1, s =>
    let (status, s) := inb drive s
    if status &&& ataStatusBsy = 0 ∧ status &&& ataStatusRdy ≠ 0 then .ok s else awaitReady fuel s

/-- Four reads of the status, to pass the time. -/
def pause (s : Ata) : Ata :=
  (inb drive (inb drive (inb drive (inb drive s).2).2).2).2

def ataSoftReset (s : Ata) : Except Fault Ata :=
  let s := outb drive s ataCtrlSrst .devCtrl
  let s := outb drive s 0 .devCtrl
  let s := pause drive s
  awaitReady drive (s.busy + 1) s

/-- A reset, unless busy and data request are clear. -/
def clearStatus (s : Ata) : Except Fault Ata :=
  let (status, s) := inb drive s
  if status &&& (ataStatusBsy ||| ataStatusDrq) ≠ 0 then ataSoftReset drive s else .ok s

/-- `for(int i = 0;; i++)` in `ata_read_lba28`, for at most `fuel` turns: wait for data, and ignore
errors for the first four turns if `ignoreError`. -/
def awaitData : ℕ → ℕ → Bool → Ata → Except Fault (Byte × Ata)
  | 0, _, _, _ => .error .hang
  | fuel + 1, i, ignoreError, s =>
    let ignoreError := ignoreError && decide (i < 4)
    let (status, s) := inb drive s
    if status &&& ataStatusBsy = 0 ∧ (status &&& ataStatusDrq ≠ 0 ∨
        (ignoreError = false ∧ status &&& (ataStatusErr ||| ataStatusDf) ≠ 0)) then
      .ok (status, s)
    else awaitData fuel (i + 1) ignoreError s

/-- `*wbuffer = v`, at a byte offset. -/
def storeWord (buffer : List Byte) (i : ℕ) (v : BitVec 16) : Except Fault (List Byte) := do
  check (i + 2 ≤ buffer.length) .overrun
  return buffer.take i ++ leBytes 2 v ++ buffer.drop (i + 2)

/-- Read words into the buffer. -/
def readWords : ℕ → List Byte → ℕ → Ata → Except Fault (List Byte × Ata)
  | 0, buffer, _, s => .ok (buffer, s)
  | n + 1, buffer, wbuffer, s => do
    let (v, s) := inw drive s
    let buffer ← storeWord buffer wbuffer v
    readWords n buffer (wbuffer + 2) s

/-- `while(sectors)`. The drive is ready when it has been busy, so that the loop in it takes so many
turns, and a few more for the errors that it ignores. -/
def readSectors : ℕ → Bool → List Byte → ℕ → ℕ → Ata → Except Fault (ℕ × List Byte × Ata)
  | 0, _, buffer, _, result, s => .ok (result, buffer, s)
  | sectors + 1, ignoreError, buffer, wbuffer, result, s => do
    let (status, s) ← awaitData drive (s.busy + 6) 0 ignoreError s
    if status &&& (ataStatusErr ||| ataStatusDf) ≠ 0 then return (result, buffer, s)
    let (buffer, s) ← readWords drive 256 buffer wbuffer s
    readSectors sectors false buffer (wbuffer + sectorSize) (result + 1) (pause drive s)

/-- The registers for a command, and the command. -/
def sendRead (s : Ata) (sectors : ℕ) (slave : Byte) (sector : BitVec 32) : Ata :=
  let s := outb drive s ((0xE0 : Byte) ||| (slave <<< 4) ||| ((sector >>> 24).setWidth 8 &&& 0x0F)) .select
  let s := outb drive s 0 .errInfo
  let s := outb drive s (BitVec.ofNat 8 sectors) .sectorCount
  let s := outb drive s (sector.setWidth 8) .lbaLo
  let s := outb drive s ((sector >>> 8).setWidth 8) .lbaMid
  let s := outb drive s ((sector >>> 16).setWidth 8) .lbaHi
  outb drive s ataCmdRead .command

/-- `ata_read_lba28(buffer, buffer_size, sectors, ATA0_BASE, slave, sector)`: the result, the buffer
and the drive after it. -/
def ataReadLba28 (s : Ata) (buffer : List Byte) (bufferSize sectors : ℕ) (slave : Byte)
    (sector : BitVec 32) : Except Fault (ℤ × List Byte × Ata) := do
  check (0 < sectors) .assertion
  check (slave = 0 ∨ slave = 1) .assertion
  if bufferSize < sectorSize * sectors % wordMod then return (-1, buffer, s)
  let s ← clearStatus drive s
  let (result, buffer, s) ←
    readSectors drive sectors true buffer 0 0 (sendRead drive s sectors slave sector)
  return (result, buffer, s)

/-! ## Waiting -/

variable {drive : Drive} {s : Ata} {before rest buffer : List Byte} {fuel n sector : ℕ}

theorem inb_snd (drive : Drive) (s : Ata) : (inb drive s).2 = { s with busy := s.busy - 1 } := by
  unfold inb
  split
  · rfl
  · have hbusy : s.busy = s.busy - 1 := by omega
    have hsame : s = { s with busy := s.busy - 1 } := by rw [← hbusy]
    split
    · exact hsame
    · split <;> exact hsame

theorem pause_eq (drive : Drive) (s : Ata) : pause drive s = { s with busy := s.busy - 4 } := by
  simp only [pause, inb_snd, Nat.sub_sub]

theorem inb_busy (h : s.busy ≠ 0) : inb drive s = (ataStatusBsy, { s with busy := s.busy - 1 }) :=
  if_pos h

theorem awaitReady_eq (hleft : s.left = 0) (hfuel : s.busy < fuel) :
    ∃ s', awaitReady drive fuel s = .ok s' := by
  induction fuel generalizing s with
  | zero => exact absurd hfuel (Nat.not_lt_zero _)
  | succ fuel ih =>
    rw [awaitReady]
    by_cases hbusy : s.busy = 0
    · refine ⟨s, ?_⟩
      have hin : inb drive s = (ataStatusRdy, s) := by
        rw [inb, if_neg (not_not.mpr hbusy), if_pos hleft]
      rw [hin]
      rfl
    · rw [inb_busy hbusy]
      exact ih hleft (by show s.busy - 1 < fuel; omega)

theorem ataSoftReset_eq (drive : Drive) (s : Ata) : ∃ s', ataSoftReset drive s = .ok s' := by
  refine awaitReady_eq ?_ (Nat.lt_succ_self _)
  rw [pause_eq]
  rfl

theorem clearStatus_eq (drive : Drive) (s : Ata) : ∃ s', clearStatus drive s = .ok s' := by
  unfold clearStatus
  dsimp only
  split
  · exact ataSoftReset_eq _ _
  · exact ⟨_, rfl⟩

/-- Once it is no longer busy, the drive has data or, after the turns in which errors are ignored,
reports an error. -/
theorem awaitData_eq {i : ℕ} {ignoreError : Bool} (hleft : s.left ≠ 0)
    (hfuel : s.busy + (4 - i) < fuel) :
    awaitData drive fuel i ignoreError s =
      .ok (ataStatusRdy ||| if drive.fails s.next then ataStatusErr else ataStatusDrq,
        { s with busy := 0 }) := by
  induction fuel generalizing s i ignoreError with
  | zero => exact absurd hfuel (Nat.not_lt_zero _)
  | succ fuel ih =>
    rw [awaitData]
    by_cases hbusy : s.busy = 0
    · rw [inb, if_neg (not_not.mpr hbusy), if_neg hleft]
      by_cases hfails : drive.fails s.next = true
      · rw [if_pos hfails]
        dsimp only
        by_cases hignore : (ignoreError && decide (i < 4)) = false
        · rw [if_pos ⟨by decide, .inr ⟨hignore, by decide⟩⟩, if_pos hfails, ← hbusy]
        · have hi : i < 4 := by
            simp only [Bool.not_eq_false, Bool.and_eq_true, decide_eq_true_eq] at hignore
            exact hignore.2
          rw [if_neg fun h => h.2.elim (fun hdrq => absurd hdrq (by decide)) fun herr =>
            hignore herr.1]
          exact ih hleft (by omega)
      · rw [if_neg hfails]
        dsimp only
        rw [if_pos ⟨by decide, .inl (by decide)⟩, if_neg hfails, ← hbusy]
    · rw [inb_busy hbusy]
      exact ih hleft (by show s.busy - 1 + (4 - (i + 1)) < fuel; omega)

/-! ## Reading -/

theorem Drive.length_bytes (drive : Drive) (start len : ℕ) :
    (drive.bytes start len).length = len := by
  rw [Drive.bytes, List.length_map, List.length_range]

theorem Drive.bytes_add (drive : Drive) (start a b : ℕ) :
    drive.bytes start (a + b) = drive.bytes start a ++ drive.bytes (start + a) b := by
  simp only [Drive.bytes, List.range_add, List.map_append, List.map_map, Function.comp_def,
    Nat.add_assoc]

theorem Drive.sectors_succ (drive : Drive) (sector n : ℕ) :
    drive.sectors sector (n + 1) = drive.sectors sector 1 ++ drive.sectors (sector + 1) n := by
  rw [Drive.sectors, Nat.add_comm n, Nat.mul_add, Drive.bytes_add]
  rfl

theorem Drive.length_sectors (drive : Drive) (sector n : ℕ) :
    (drive.sectors sector n).length = sectorSize * n := drive.length_bytes _ _

/-- The drive when the last word of a sector has been read. -/
def Ata.done (drive : Drive) (s : Ata) : Ata :=
  { s.wait drive with next := s.next + 1, left := s.left - 1 }

theorem storeWord_append (start : ℕ) (hrest : 2 ≤ rest.length) :
    storeWord (before ++ rest) before.length (ofLeBytes 16 (drive.bytes start 2)) =
      .ok (before ++ drive.bytes start 2 ++ rest.drop 2) := by
  have hbytes : leBytes 2 (ofLeBytes 16 (drive.bytes start 2)) = drive.bytes start 2 :=
    leBytes_ofLeBytes (by rw [drive.length_bytes])
  have hlen : before.length + 2 ≤ (before ++ rest).length := by
    rw [List.length_append]
    omega
  rw [storeWord, check_of _ hlen, hbytes]
  simp

theorem inw_eq (hbusy : s.busy = 0) (hleft : s.left ≠ 0) :
    inw drive s = (ofLeBytes 16 (drive.bytes (sectorSize * s.next + 2 * s.word) 2),
      if s.word + 1 = 256 then s.done drive else { s with word := s.word + 1 }) :=
  if_pos ⟨hbusy, hleft⟩

/-- The words that are left of a sector. -/
theorem readWords_eq (s : Ata) (before rest : List Byte) (hbusy : s.busy = 0) (hleft : s.left ≠ 0)
    (hword : s.word + (n + 1) = 256) (hrest : 2 * (n + 1) ≤ rest.length) :
    readWords drive (n + 1) (before ++ rest) before.length s =
      .ok (before ++ drive.bytes (sectorSize * s.next + 2 * s.word) (2 * (n + 1)) ++
        rest.drop (2 * (n + 1)), s.done drive) := by
  induction n generalizing s before rest with
  | zero =>
    rw [readWords, inw_eq hbusy hleft, if_pos (by omega)]
    dsimp only
    rw [storeWord_append _ (by omega)]
    rfl
  | succ n ih =>
    have hnext := ih { s with word := s.word + 1 }
      (before ++ drive.bytes (sectorSize * s.next + 2 * s.word) 2) (rest.drop 2) hbusy hleft
      (by show s.word + 1 + (n + 1) = 256; omega) (by rw [List.length_drop]; omega)
    rw [List.length_append, drive.length_bytes] at hnext
    rw [readWords, inw_eq hbusy hleft, if_neg (by omega)]
    dsimp only
    rw [storeWord_append _ (by omega), ok_bind, hnext, show 2 * (n + 1 + 1) = 2 + 2 * (n + 1) by omega,
      drive.bytes_add, List.drop_drop, List.append_assoc before]
    rfl

/-- How many of the next `n` sectors can be read up to the first that cannot. -/
def Drive.readable (drive : Drive) : ℕ → ℕ → ℕ
  | _, 0 => 0
  | sector, n + 1 => if drive.fails sector then 0 else drive.readable (sector + 1) n + 1

theorem Drive.readable_le (drive : Drive) (sector n : ℕ) : drive.readable sector n ≤ n := by
  induction n generalizing sector with
  | zero => exact Nat.le_refl 0
  | succ n ih =>
    rw [Drive.readable]
    split
    · exact Nat.zero_le _
    · exact Nat.succ_le_succ (ih _)

theorem Drive.readable_eq (hreads : ∀ sector, drive.fails sector = false) (sector n : ℕ) :
    drive.readable sector n = n := by
  induction n generalizing sector with
  | zero => rfl
  | succ n ih => rw [Drive.readable, hreads, ih]; rfl

/-- **The sectors of a command**, one after another, up to the first that cannot be read. -/
theorem readSectors_eq (s : Ata) (before rest : List Byte) (ignoreError : Bool) (result : ℕ)
    (hleft : s.left = n) (hword : s.word = 0) (hrest : sectorSize * n ≤ rest.length) :
    ∃ s', readSectors drive n ignoreError (before ++ rest) before.length result s =
      .ok (result + drive.readable s.next n, before ++ drive.sectors s.next (drive.readable s.next n) ++
        rest.drop (sectorSize * drive.readable s.next n), s') := by
  induction n generalizing s before rest ignoreError result with
  | zero => exact ⟨s, by simp [readSectors, Drive.readable, Drive.sectors, Drive.bytes]⟩
  | succ n ih =>
    have hleft' : s.left ≠ 0 := by omega
    have hone : sectorSize ≤ rest.length := by
      rw [Nat.mul_succ] at hrest
      omega
    have hawait : awaitData drive (s.busy + 6) 0 ignoreError s = _ := awaitData_eq hleft' (by omega)
    rw [readSectors, Drive.readable, hawait]
    by_cases hfails : drive.fails s.next = true
    · rw [if_pos hfails, if_pos hfails, ok_bind]
      dsimp only
      rw [if_pos (by decide)]
      simp [Drive.sectors, Drive.bytes]
    · have hwords : readWords drive 256 (before ++ rest) before.length { s with busy := 0 } =
          .ok (before ++ drive.sectors s.next 1 ++ rest.drop sectorSize,
            Ata.done drive { s with busy := 0 }) := by
        have hread : readWords drive (255 + 1) (before ++ rest) before.length { s with busy := 0 } =
            _ := readWords_eq _ _ _ rfl hleft' (by show s.word + 256 = 256; omega) hone
        simpa [Drive.sectors, sectorSize, hword] using hread
      have hpause : pause drive (Ata.done drive { s with busy := 0 }) =
          { Ata.done drive { s with busy := 0 } with busy := drive.delay s.clock - 4 } := pause_eq _ _
      obtain ⟨s', hnext⟩ := ih { Ata.done drive { s with busy := 0 } with
          busy := drive.delay s.clock - 4 } (before ++ drive.sectors s.next 1)
        (rest.drop sectorSize) false (result + 1) (by show s.left - 1 = n; omega) rfl
        (by rw [List.length_drop, Nat.le_sub_iff_add_le hone]; exact hrest)
      rw [List.length_append, drive.length_sectors, Nat.mul_one] at hnext
      have hsplit := drive.sectors_succ s.next (drive.readable (s.next + 1) n)
      refine ⟨s', ?_⟩
      rw [if_neg hfails, if_neg hfails, ok_bind]
      dsimp only
      rw [hwords, ok_bind]
      rw [hpause, hnext, hsplit, List.drop_drop, ← List.append_assoc before, Nat.mul_succ,
        Nat.add_comm sectorSize, Nat.add_assoc, Nat.add_comm 1]
      rfl

/-! ## The command -/

/-- The sector number in the registers. -/
theorem sendRead_eq (drive : Drive) (s : Ata) (sector : BitVec 32) (hpos : 0 < n) (hn : n ≤ 256) :
    (sendRead drive s n 0 sector).next = sector.toNat % 2 ^ 28 ∧
      (sendRead drive s n 0 sector).left = n ∧ (sendRead drive s n 0 sector).word = 0 := by
  have hslave : ∀ x : Byte, ((0xE0 : Byte) ||| ((0 : Byte) <<< 4) ||| (x &&& 0x0F)) &&& 0x10 = 0 := by
    decide
  have hselect : ∀ x : Byte,
      (((0xE0 : Byte) ||| ((0 : Byte) <<< 4) ||| (x &&& 0x0F)) &&& 0x0F).toNat = x.toNat % 16 := by
    decide
  simp only [sendRead, outb, hslave, and_self, if_true, Ata.lba, hselect]
  refine ⟨?_, ?_, rfl⟩
  · simp only [BitVec.toNat_setWidth, BitVec.toNat_ushiftRight]
    omega
  · rcases Nat.lt_or_eq_of_le hn with hlt | rfl
    · have htoNat : (BitVec.ofNat 8 n).toNat = n := by
        rw [BitVec.toNat_ofNat, Nat.mod_eq_of_lt hlt]
      have hne : BitVec.ofNat 8 n ≠ 0 := by
        intro heq
        rw [heq] at htoNat
        exact hpos.ne htoNat
      exact (if_neg hne).trans htoNat
    · rfl

/-- **Reading sectors**, in whatever state the drive is. -/
theorem ataReadLba28_readable (s : Ata) (sector : BitVec 32) (hpos : 0 < n) (hn : n ≤ 256)
    (hsize : sectorSize * n ≤ buffer.length) :
    ∃ s', ataReadLba28 drive s buffer buffer.length n 0 sector =
      .ok (drive.readable (sector.toNat % 2 ^ 28) n,
        drive.sectors (sector.toNat % 2 ^ 28) (drive.readable (sector.toNat % 2 ^ 28) n) ++
          buffer.drop (sectorSize * drive.readable (sector.toNat % 2 ^ 28) n), s') := by
  obtain ⟨s₁, hs₁⟩ := clearStatus_eq drive s
  obtain ⟨hnext, hleft, hword⟩ := sendRead_eq drive s₁ sector hpos hn
  obtain ⟨s', hloop⟩ := readSectors_eq (sendRead drive s₁ n 0 sector) [] buffer true 0 hleft hword
    hsize
  have hsize' : ¬ buffer.length < sectorSize * n % wordMod :=
    Nat.not_lt.mpr ((Nat.mod_le _ _).trans hsize)
  rw [hnext, List.nil_append, List.length_nil, Nat.zero_add] at hloop
  refine ⟨s', ?_⟩
  rw [ataReadLba28, check_of _ hpos, ok_bind, check_of _ (Or.inl rfl), ok_bind, if_neg hsize',
    hs₁, ok_bind, hloop]
  rfl

/-- Reading sectors from a drive without errors. -/
theorem ataReadLba28_eq (s : Ata) (sector : BitVec 32) (hpos : 0 < n) (hn : n ≤ 256)
    (hreads : ∀ sector, drive.fails sector = false) (hsize : sectorSize * n ≤ buffer.length) :
    ∃ s', ataReadLba28 drive s buffer buffer.length n 0 sector =
      .ok (n, drive.sectors (sector.toNat % 2 ^ 28) n ++ buffer.drop (sectorSize * n), s') := by
  have hread := @ataReadLba28_readable drive buffer n s sector hpos hn hsize
  rwa [drive.readable_eq hreads] at hread

end Rastapopoulos.Blk
