import Rastapopoulos.Sched.Basic

/-!
# Messages and their checksums

`struct message` of `common/port.h`, the hash of `common/util.c` and the checksum over a message
that the library computes before it sends, that the kernel verifies and computes anew once it has
filled in the sender, and that both verify on the way to the receiver.
-/

namespace Rastapopoulos.Ipc

open Scheduler

/-- An `unsigned char`. -/
abbrev Byte := BitVec 8

/-- `sizeof(struct message)`, without its data. -/
def messageHeaderSize : ℕ := 28

/-- `struct message`, without the list links. The data lies in mapped memory, and the first page
of the address space never is, so its length and the sizes computed from it are below `2 ^ 32`. -/
structure Message where
  checksum : Word
  sender : Word
  replyPort : Word
  code : Word
  data : List Byte
  data_fits : data.length + 4096 ≤ 2 ^ 32
  deriving DecidableEq

namespace Message

/-- The field `len`. -/
def len (m : Message) : Word := BitVec.ofNat 32 m.data.length

theorem toNat_len (m : Message) : m.len.toNat = m.data.length := by
  have := m.data_fits
  rw [len, BitVec.toNat_ofNat, Nat.mod_eq_of_lt (by omega)]

/-- `sizeof(struct message) + message->len`. -/
def size (m : Message) : ℕ := messageHeaderSize + m.data.length

/-- A zeroed buffer. -/
def zero : Message where
  checksum := 0
  sender := 0
  replyPort := 0
  code := 0
  data := []
  data_fits := by decide

end Message

/-- The bytes of a word in memory, least significant first. -/
def wordBytes (w : Word) : List Byte :=
  [w.extractLsb' 0 8, w.extractLsb' 8 8, w.extractLsb' 16 8, w.extractLsb' 24 8]

/-- `hash2`. -/
def hash2 (data : List Byte) (startHash : Word) : Word :=
  data.foldl (fun hash c => c.setWidth 32 + (hash <<< 6) + (hash <<< 16) - hash) startHash

/-- `message_checksum`. -/
def messageChecksum (msg : Message) : Word :=
  let checksum := hash2 (wordBytes msg.sender) 0
  let checksum := hash2 (wordBytes msg.replyPort) checksum
  let checksum := hash2 (wordBytes msg.code) checksum
  let checksum := hash2 (wordBytes msg.len) checksum
  hash2 msg.data checksum

/-- The checksum field is right. -/
def Message.Intact (m : Message) : Prop := m.checksum = messageChecksum m

instance (m : Message) : Decidable m.Intact := inferInstanceAs (Decidable (_ = _))

/-- The message with the sender filled in and the checksum computed anew. -/
def Message.stamp (m : Message) (sender : Word) : Message :=
  { m with sender := sender, checksum := messageChecksum { m with sender := sender } }

theorem Message.stamp_intact (m : Message) (sender : Word) : (m.stamp sender).Intact := rfl

theorem Message.zero_intact : Message.zero.Intact := by decide

/-- The message that the library's `msgsend` hands to the kernel: sender zeroed, checksum
computed. -/
def libMsgsend (msg : Message) : Message := msg.stamp 0

/-- The library's `msgrecv` looks at the buffer, which it had zeroed before the system call,
whatever the call returned: `assert(buffer->checksum == checksum)`. -/
def LibMsgrecvOk (buffer : Option Message) : Prop := (buffer.getD .zero).Intact

instance (buffer : Option Message) : Decidable (LibMsgrecvOk buffer) :=
  inferInstanceAs (Decidable (Message.Intact _))

theorem libMsgrecvOk_none : LibMsgrecvOk none := Message.zero_intact

end Rastapopoulos.Ipc
