import Rastapopoulos.Foundations.Bytes
import Rastapopoulos.Foundations.Fallible
import Rastapopoulos.Foundations.Word

/-!
# The serializer

`common/serializer.c`: values and raw buffers written one behind the other into a buffer of fixed
size, and read back in the same order. The writer hands out the rest of its buffer and is locked
until it is told how much of it was used; it asserts that something is left, even for a raw buffer
of length zero. The reader has no such rule.

`roundTrips_iff`: what fits is read back as it was written, exactly if no empty raw buffer comes
where the buffer is full.
-/

namespace Rastapopoulos.Serial

abbrev Byte := BitVec 8

inductive Fault
  | assertion
  /-- A load or a store outside of the buffer. -/
  | overrun
  deriving DecidableEq, Repr

/-! ## The memory behind the pointers

A pointer into the buffer is an offset. -/

def storeBytes (buffer : List Byte) (offset : ℕ) (bytes : List Byte) :
    Except Fault (List Byte) := do
  check (offset + bytes.length ≤ buffer.length) .overrun
  return buffer.take offset ++ bytes ++ buffer.drop (offset + bytes.length)

def loadBytes (buffer : List Byte) (offset n : ℕ) : Except Fault (List Byte) := do
  check (offset + n ≤ buffer.length) .overrun
  return (buffer.drop offset).take n

/-! ## Writing -/

/-- `struct serializer` -/
structure Serializer where
  buffer : List Byte
  size : ℕ
  pos : ℕ
  locked : Bool
  deriving DecidableEq, Repr

def serializerInit (buffer : List Byte) (bufferSize : ℕ) : Serializer :=
  ⟨buffer, bufferSize, 0, false⟩

/-- The state, the pointer that is returned and `*max_size`. -/
def serializeBuffer (s : Serializer) : Except Fault (Serializer × ℕ × ℕ) := do
  check (s.locked = false) .assertion
  check (0 < subW s.size s.pos) .assertion
  return ({ s with locked := true }, s.pos, subW s.size s.pos)

def serializeBufferFinish (s : Serializer) (size : ℕ) : Except Fault Serializer := do
  check (s.locked = true) .assertion
  check (size ≤ subW s.size s.pos) .assertion
  return { s with pos := addW s.pos size, locked := false }

/-- The macro `SERIALIZE`, for a value that has these bytes in memory. -/
def serialize (s : Serializer) (bytes : List Byte) : Except Fault Serializer := do
  check (s.locked = false) .assertion
  let r ← serializeBuffer s
  check (bytes.length ≤ r.2.2) .assertion
  let s ← serializeBufferFinish r.1 bytes.length
  let buffer ← storeBytes s.buffer r.2.1 bytes
  return { s with buffer }

def serializeInt (s : Serializer) (val : BitVec 32) : Except Fault Serializer :=
  serialize s (leBytes 4 val)

def serializeSizeT (s : Serializer) (val : BitVec 32) : Except Fault Serializer :=
  serialize s (leBytes 4 val)

def serializeInt64 (s : Serializer) (val : BitVec 64) : Except Fault Serializer :=
  serialize s (leBytes 8 val)

/-- A raw buffer: the caller copies the bytes to where `serialize_buffer` points and says how many
they are. -/
def serializeRaw (s : Serializer) (bytes : List Byte) : Except Fault Serializer := do
  let r ← serializeBuffer s
  let buffer ← storeBytes r.1.buffer r.2.1 bytes
  serializeBufferFinish { r.1 with buffer } bytes.length

def serializerFinish (s : Serializer) : ℕ := s.pos

/-! ## Reading -/

/-- `struct deserializer` -/
structure Deserializer where
  buffer : List Byte
  size : ℕ
  pos : ℕ
  deriving DecidableEq, Repr

def deserializerInit (buffer : List Byte) (bufferSize : ℕ) : Deserializer := ⟨buffer, bufferSize, 0⟩

/-- The pointer that is returned, and the state. -/
def deserializeBuffer (d : Deserializer) (size : ℕ) : Except Fault (ℕ × Deserializer) := do
  check (size ≤ subW d.size d.pos) .assertion
  return (d.pos, { d with pos := addW d.pos size })

/-- `deserialize_buffer`, and the bytes that the pointer points to. -/
def deserializeRaw (d : Deserializer) (size : ℕ) : Except Fault (List Byte × Deserializer) := do
  let r ← deserializeBuffer d size
  let bytes ← loadBytes d.buffer r.1 size
  return (bytes, r.2)

/-- A value of `size` bytes. -/
def deserialize (w size : ℕ) (d : Deserializer) : Except Fault (BitVec w × Deserializer) := do
  let r ← deserializeRaw d size
  return (ofLeBytes w r.1, r.2)

def deserializeInt (d : Deserializer) : Except Fault (BitVec 32 × Deserializer) :=
  deserialize 32 4 d

def deserializeSizeT (d : Deserializer) : Except Fault (BitVec 32 × Deserializer) :=
  deserialize 32 4 d

def deserializeInt64 (d : Deserializer) : Except Fault (BitVec 64 × Deserializer) :=
  deserialize 64 8 d

/-! ## Sequences of items -/

inductive Item
  | int (val : BitVec 32)
  | sizeT (val : BitVec 32)
  | int64 (val : BitVec 64)
  | raw (bytes : List Byte)
  deriving DecidableEq, Repr

/-- What the reader has to know of an item. -/
inductive Kind
  | int
  | sizeT
  | int64
  | raw (size : ℕ)
  deriving DecidableEq, Repr

def Item.kind : Item → Kind
  | .int _ => .int
  | .sizeT _ => .sizeT
  | .int64 _ => .int64
  | .raw bytes => .raw bytes.length

def Item.bytes : Item → List Byte
  | .int val => leBytes 4 val
  | .sizeT val => leBytes 4 val
  | .int64 val => leBytes 8 val
  | .raw bytes => bytes

def encode (items : List Item) : List Byte := items.flatMap Item.bytes

def encodedSize (items : List Item) : ℕ := (items.map fun item => item.bytes.length).sum

def serializeItem (s : Serializer) : Item → Except Fault Serializer
  | .int val => serializeInt s val
  | .sizeT val => serializeSizeT s val
  | .int64 val => serializeInt64 s val
  | .raw bytes => serializeRaw s bytes

def deserializeItem (d : Deserializer) : Kind → Except Fault (Item × Deserializer)
  | .int => do
    let r ← deserializeInt d
    return (.int r.1, r.2)
  | .sizeT => do
    let r ← deserializeSizeT d
    return (.sizeT r.1, r.2)
  | .int64 => do
    let r ← deserializeInt64 d
    return (.int64 r.1, r.2)
  | .raw size => do
    let r ← deserializeRaw d size
    return (.raw r.1, r.2)

def deserializeItems (d : Deserializer) : List Kind → Except Fault (List Item × Deserializer)
  | [] => .ok ([], d)
  | kind :: kinds => do
    let r ← deserializeItem d kind
    let r' ← deserializeItems r.2 kinds
    return (r.1 :: r'.1, r'.2)

/-- The items are written to the buffer without a failed assertion, and read back from as many bytes
as `serializer_finish` says. -/
def RoundTrips (items : List Item) (buffer : List Byte) : Prop :=
  ∃ s, items.foldlM serializeItem (serializerInit buffer buffer.length) = .ok s ∧
    serializerFinish s = encodedSize items ∧
    ∃ d, deserializeItems
        (deserializerInit (s.buffer.take (serializerFinish s)) (serializerFinish s))
        (items.map Item.kind) = .ok (items, d) ∧ d.pos = serializerFinish s

theorem length_encode (items : List Item) : (encode items).length = encodedSize items := by
  rw [encode, List.length_flatMap, encodedSize]

theorem encodedSize_cons (item : Item) (items : List Item) :
    encodedSize (item :: items) = item.bytes.length + encodedSize items := by
  rw [encodedSize, List.map_cons, List.sum_cons, encodedSize]

theorem encodedSize_append (a b : List Item) :
    encodedSize (a ++ b) = encodedSize a + encodedSize b := by
  rw [encodedSize, List.map_append, List.sum_append, encodedSize, encodedSize]

/-- Only a raw buffer can be empty. -/
theorem Item.bytes_eq_nil {item : Item} (h : item.bytes.length = 0) : item = .raw [] := by
  cases item with
  | int val => exact absurd h (by simp [Item.bytes])
  | sizeT val => exact absurd h (by simp [Item.bytes])
  | int64 val => exact absurd h (by simp [Item.bytes])
  | raw bytes => exact congrArg Item.raw (List.length_eq_zero_iff.mp h)

/-! ## The writer -/

/-- The serializer that has written `done`, with `rest` behind it. -/
def Serializer.filled (done rest : List Byte) : Serializer :=
  ⟨done ++ rest, (done ++ rest).length, done.length, false⟩

section Writer

variable {done rest bytes : List Byte} {item : Item} {items : List Item}

theorem storeBytes_append (hlen : bytes.length ≤ rest.length) :
    storeBytes (done ++ rest) done.length bytes =
      .ok (done ++ bytes ++ rest.drop bytes.length) := by
  rw [storeBytes, check_of _ (by rw [List.length_append]; omega), ok_bind, List.take_left' rfl,
    ← List.drop_drop, List.drop_left' rfl, pure_eq_ok]

theorem rem_filled (hword : (done ++ rest).length < wordMod) :
    subW (done ++ rest).length done.length = rest.length := by
  rw [List.length_append] at hword ⊢
  rw [subW_of_le hword (by omega), Nat.add_sub_cancel_left]

theorem serializeBuffer_filled (hword : (done ++ rest).length < wordMod) (hpos : 0 < rest.length) :
    serializeBuffer (.filled done rest) =
      .ok (⟨done ++ rest, (done ++ rest).length, done.length, true⟩, done.length, rest.length) := by
  rw [Serializer.filled, serializeBuffer, check_of _ rfl, ok_bind, rem_filled hword,
    check_of _ hpos]
  rfl

/-- The assertion that something is left. -/
theorem serializeBuffer_full (hword : (done ++ []).length < wordMod) :
    serializeBuffer (.filled done []) = .error .assertion := by
  have hnone : ¬ 0 < ([] : List Byte).length := Nat.lt_irrefl 0
  rw [Serializer.filled, serializeBuffer, check_of _ rfl, ok_bind, rem_filled hword,
    check_of_not _ hnone, error_bind]

/-- The pointer moves, whatever is stored behind it before or after. -/
theorem serializeBufferFinish_filled (buffer : List Byte) (hword : (done ++ rest).length < wordMod)
    (hlen : bytes.length ≤ rest.length) :
    serializeBufferFinish ⟨buffer, (done ++ rest).length, done.length, true⟩ bytes.length =
      .ok ⟨buffer, (done ++ rest).length, (done ++ bytes).length, false⟩ := by
  have hpos : addW done.length bytes.length = (done ++ bytes).length := by
    rw [List.length_append] at hword ⊢
    exact addW_of_lt (by omega)
  rw [serializeBufferFinish, check_of _ rfl, ok_bind, rem_filled hword, check_of _ hlen, ok_bind,
    pure_eq_ok, hpos]

theorem filled_put (hlen : bytes.length ≤ rest.length) :
    Serializer.filled (done ++ bytes) (rest.drop bytes.length) =
      ⟨done ++ bytes ++ rest.drop bytes.length, (done ++ rest).length, (done ++ bytes).length,
        false⟩ := by
  have hsize : (done ++ bytes ++ rest.drop bytes.length).length = (done ++ rest).length := by
    simp only [List.length_append, List.length_drop]
    omega
  rw [Serializer.filled, hsize]

theorem serialize_filled (hword : (done ++ rest).length < wordMod) (hpos : 0 < rest.length)
    (hlen : bytes.length ≤ rest.length) :
    serialize (.filled done rest) bytes =
      .ok (.filled (done ++ bytes) (rest.drop bytes.length)) := by
  have hunlocked : (Serializer.filled done rest).locked = false := rfl
  rw [serialize, check_of _ hunlocked, ok_bind, serializeBuffer_filled hword hpos, ok_bind,
    check_of _ hlen, ok_bind, serializeBufferFinish_filled _ hword hlen, ok_bind,
    storeBytes_append hlen, ok_bind, filled_put hlen]
  rfl

theorem serializeRaw_filled (hword : (done ++ rest).length < wordMod) (hpos : 0 < rest.length)
    (hlen : bytes.length ≤ rest.length) :
    serializeRaw (.filled done rest) bytes =
      .ok (.filled (done ++ bytes) (rest.drop bytes.length)) := by
  rw [serializeRaw, serializeBuffer_filled hword hpos, ok_bind, storeBytes_append hlen, ok_bind,
    serializeBufferFinish_filled _ hword hlen, filled_put hlen]

/-- **An item** that has room is put behind the others, if the buffer is not full. -/
theorem serializeItem_filled (hword : (done ++ rest).length < wordMod) (hpos : 0 < rest.length)
    (hlen : item.bytes.length ≤ rest.length) :
    serializeItem (.filled done rest) item =
      .ok (.filled (done ++ item.bytes) (rest.drop item.bytes.length)) := by
  cases item with
  | int val => exact serialize_filled hword hpos hlen
  | sizeT val => exact serialize_filled hword hpos hlen
  | int64 val => exact serialize_filled hword hpos hlen
  | raw bytes => exact serializeRaw_filled hword hpos hlen

theorem serializeItem_full (item : Item) (hword : (done ++ []).length < wordMod) :
    serializeItem (.filled done []) item = .error .assertion := by
  have hunlocked : (Serializer.filled done []).locked = false := rfl
  have hvalue : ∀ bytes, serialize (.filled done []) bytes = .error .assertion := by
    intro bytes
    rw [serialize, check_of _ hunlocked, ok_bind, serializeBuffer_full hword, error_bind]
  cases item with
  | int val => exact hvalue _
  | sizeT val => exact hvalue _
  | int64 val => exact hvalue _
  | raw bytes =>
    show serializeRaw _ _ = _
    rw [serializeRaw, serializeBuffer_full hword, error_bind]

/-- Every item starts before the end of `room` bytes. -/
def Starts (items : List Item) (room : ℕ) : Prop :=
  ∀ before item after, items = before ++ item :: after → encodedSize before < room

theorem starts_cons {room : ℕ} : Starts (item :: items) room ↔
    0 < room ∧ ∀ before next after, items = before ++ next :: after →
      item.bytes.length + encodedSize before < room := by
  constructor
  · intro h
    refine ⟨h [] item items rfl, fun before next after heq => ?_⟩
    rw [← encodedSize_cons]
    exact h (item :: before) next after (by rw [heq, List.cons_append])
  · rintro ⟨hpos, h⟩ before next after heq
    cases before with
    | nil => exact hpos
    | cons first before =>
      rw [List.cons_append, List.cons.injEq] at heq
      rw [encodedSize_cons, ← heq.1]
      exact h before next after heq.2

/-- Behind an item that starts in front of the end. -/
theorem starts_cons_iff {room : ℕ} (hroom : 0 < room) :
    Starts (item :: items) room ↔ Starts items (room - item.bytes.length) := by
  rw [starts_cons, and_iff_right hroom]
  refine forall₃_congr fun before next after => ?_
  rw [Nat.lt_sub_iff_add_lt']

/-- **A sequence of items** that has room is written, or fails where an item starts at the end of
the buffer. -/
theorem serializeItems_cases (items : List Item) (hword : (done ++ rest).length < wordMod)
    (hsize : encodedSize items ≤ rest.length) :
    (Starts items rest.length ∧ items.foldlM serializeItem (.filled done rest) =
        .ok (.filled (done ++ encode items) (rest.drop (encodedSize items)))) ∨
      (¬ Starts items rest.length ∧
        items.foldlM serializeItem (.filled done rest) = .error .assertion) := by
  induction items generalizing done rest with
  | nil =>
    refine .inl ⟨fun before item after heq => ?_, ?_⟩
    · cases before <;> cases heq
    · rw [encode, List.flatMap_nil, List.append_nil, encodedSize, List.map_nil, List.sum_nil,
        List.drop_zero, List.foldlM_nil]
      rfl
  | cons item items ih =>
    rw [encodedSize_cons] at hsize
    rw [List.foldlM_cons]
    rcases Nat.eq_zero_or_pos rest.length with hzero | hpos
    · obtain rfl := List.length_eq_zero_iff.mp hzero
      refine .inr ⟨fun h => Nat.lt_irrefl 0 (starts_cons.mp h).1, ?_⟩
      rw [serializeItem_full item hword, error_bind]
    · have hlen : item.bytes.length ≤ rest.length := by omega
      have hword' : (done ++ item.bytes ++ rest.drop item.bytes.length).length < wordMod := by
        simp only [List.length_append, List.length_drop] at hword ⊢
        omega
      have hnext := ih hword' (by rw [List.length_drop]; omega)
      rw [List.length_drop, ← starts_cons_iff hpos] at hnext
      rw [serializeItem_filled hword hpos hlen, ok_bind]
      refine hnext.imp_left fun h => ⟨h.1, h.2.trans ?_⟩
      rw [List.drop_drop, List.append_assoc, encodedSize_cons]
      rfl

end Writer

/-! ## The reader -/

/-- The deserializer that has read `done`, with `rest` to come. -/
def Deserializer.read (done rest : List Byte) : Deserializer :=
  ⟨done ++ rest, (done ++ rest).length, done.length⟩

section Reader

variable {done bytes rest : List Byte}

theorem loadBytes_append :
    loadBytes (done ++ (bytes ++ rest)) done.length bytes.length = .ok bytes := by
  have hinside : done.length + bytes.length ≤ (done ++ (bytes ++ rest)).length := by
    simp only [List.length_append]
    omega
  rw [loadBytes, check_of _ hinside, ok_bind, List.drop_left' rfl, List.take_left' rfl, pure_eq_ok]

theorem deserializeRaw_read (hword : (done ++ (bytes ++ rest)).length < wordMod) :
    deserializeRaw (.read done (bytes ++ rest)) bytes.length =
      .ok (bytes, .read (done ++ bytes) rest) := by
  have hlen : bytes.length ≤ (bytes ++ rest).length := by
    rw [List.length_append]
    omega
  have hpos : addW done.length bytes.length = (done ++ bytes).length := by
    rw [List.length_append, List.length_append] at hword
    rw [List.length_append]
    exact addW_of_lt (by omega)
  rw [deserializeRaw, deserializeBuffer, Deserializer.read, rem_filled hword, check_of _ hlen,
    ok_bind, pure_eq_ok, ok_bind, loadBytes_append, ok_bind, hpos, Deserializer.read,
    List.append_assoc, pure_eq_ok]

theorem deserialize_read {w size : ℕ} (val : BitVec w) (hw : w ≤ 8 * size)
    (hword : (done ++ (leBytes size val ++ rest)).length < wordMod) :
    deserialize w size (.read done (leBytes size val ++ rest)) =
      .ok (val, .read (done ++ leBytes size val) rest) := by
  have hraw := deserializeRaw_read hword
  rw [length_leBytes] at hraw
  rw [deserialize, hraw, ok_bind, ofLeBytes_leBytes val hw]
  rfl

/-- **An item** is read back. -/
theorem deserializeItem_read (item : Item)
    (hword : (done ++ (item.bytes ++ rest)).length < wordMod) :
    deserializeItem (.read done (item.bytes ++ rest)) item.kind =
      .ok (item, .read (done ++ item.bytes) rest) := by
  cases item with
  | int val =>
    have hread := deserialize_read val (by decide : 32 ≤ 8 * 4) hword
    rw [Item.kind, deserializeItem, deserializeInt, Item.bytes, hread]
    rfl
  | sizeT val =>
    have hread := deserialize_read val (by decide : 32 ≤ 8 * 4) hword
    rw [Item.kind, deserializeItem, deserializeSizeT, Item.bytes, hread]
    rfl
  | int64 val =>
    have hread := deserialize_read val (by decide : 64 ≤ 8 * 8) hword
    rw [Item.kind, deserializeItem, deserializeInt64, Item.bytes, hread]
    rfl
  | raw bytes =>
    have hread : deserializeRaw (.read done (bytes ++ rest)) bytes.length = _ :=
      deserializeRaw_read hword
    rw [Item.kind, deserializeItem, Item.bytes, hread]
    rfl

/-- **The items** are read back. -/
theorem deserializeItems_read (items : List Item)
    (hword : (done ++ (encode items ++ rest)).length < wordMod) :
    deserializeItems (.read done (encode items ++ rest)) (items.map Item.kind) =
      .ok (items, .read (done ++ encode items) rest) := by
  induction items generalizing done with
  | nil =>
    rw [encode, List.flatMap_nil, List.append_nil, List.nil_append]
    rfl
  | cons item items ih =>
    have hencode : encode (item :: items) = item.bytes ++ encode items := List.flatMap_cons
    rw [hencode, List.append_assoc] at hword ⊢
    rw [← List.append_assoc done] at hword
    have hrest := ih hword
    rw [List.append_assoc] at hword
    rw [List.map_cons, deserializeItems, deserializeItem_read item hword, ok_bind, hrest, ok_bind,
      List.append_assoc]
    rfl

end Reader

/-- **The round trip** fails exactly if an empty raw buffer comes where the buffer is full. -/
theorem roundTrips_iff (items : List Item) (buffer : List Byte) (hword : buffer.length < wordMod)
    (hsize : encodedSize items ≤ buffer.length) :
    RoundTrips items buffer ↔ ∀ before after, items = before ++ .raw [] :: after →
      encodedSize before < buffer.length := by
  have hstarts : Starts items buffer.length ↔ ∀ before after, items = before ++ .raw [] :: after →
      encodedSize before < buffer.length := by
    refine ⟨fun h before after => h before _ after, fun h before item after heq => ?_⟩
    rcases Nat.eq_zero_or_pos item.bytes.length with hzero | hpos
    · obtain rfl := Item.bytes_eq_nil hzero
      exact h before after heq
    · rw [heq, encodedSize_append, encodedSize_cons] at hsize
      omega
  have hinit : serializerInit buffer buffer.length = .filled [] buffer := rfl
  have hempty : ([] ++ buffer : List Byte).length < wordMod := hword
  rw [← hstarts, RoundTrips, hinit]
  rcases serializeItems_cases items hempty hsize with ⟨hall, hrun⟩ | ⟨hnot, hrun⟩
  · refine iff_of_true ⟨_, hrun, length_encode items, .read (encode items) [], ?_, rfl⟩ hall
    -- the bytes that are read are the ones in front of the unused rest
    have hread : ([] ++ (encode items ++ []) : List Byte).length < wordMod := by
      rw [List.nil_append, List.append_nil, length_encode]
      omega
    have hdeserialize := deserializeItems_read items hread
    rw [List.append_nil] at hdeserialize
    refine Eq.trans (congrArg (deserializeItems · _) ?_) hdeserialize
    have htake : (encode items ++ buffer.drop (encodedSize items)).take (encode items).length =
        encode items := List.take_left' rfl
    exact congrArg (deserializerInit · _) htake
  · refine iff_of_false ?_ hnot
    rintro ⟨s, hs, -⟩
    rw [hrun] at hs
    cases hs

/-- An empty raw buffer in front of a value that fills the buffer. -/
theorem roundTrips_front : RoundTrips [.raw [], .int64 0x100000002] (List.replicate 8 0xCC) := by
  refine (roundTrips_iff _ _ (by decide) (by decide)).mpr fun before after heq => ?_
  rcases before with _ | ⟨first, _ | ⟨second, before⟩⟩
  · decide
  · cases heq
  · exact absurd (congrArg List.length heq) (by simp)

/-- An empty raw buffer behind a value that fills the buffer. -/
theorem not_roundTrips_full : ¬ ∀ (items : List Item) (buffer : List Byte),
    buffer.length < wordMod → encodedSize items ≤ buffer.length → RoundTrips items buffer := by
  intro hall
  obtain ⟨s, hrun, -⟩ := hall [.int 7, .raw []] (List.replicate 4 0xCC) (by decide) (by decide)
  have hstop : [Item.int 7, .raw []].foldlM serializeItem
      (serializerInit (List.replicate 4 0xCC) 4) = .error .assertion := by decide
  cases hstop.symm.trans hrun

end Rastapopoulos.Serial
