import Rastapopoulos.Foundations.Bytes
import Rastapopoulos.Foundations.Fallible

/-!
# Writing and reading through a moving pointer

Code that fills a buffer, or takes one apart, with a pointer that moves along it and a fixed-width
count of the bytes that are left. Each operation asserts that enough is left, stores or loads at the
pointer, or moves the pointer. Asserting, storing and moving are separate operations, as in the code
that this is for, and nothing says that they are about the same number of bytes.

`Writes f bytes` says that a piece of code puts down `bytes` and moves past them; `Reads f bytes
entries` that it takes `bytes` from the front of whatever follows and records `entries`. Both
compose.
-/

namespace Rastapopoulos.Cursor

variable {w : ℕ} {δ : Type}

/-- Why the code does not go on. -/
inductive Fault
  | assertion
  /-- A load, a store or a move past the end of the buffer. -/
  | overrun
  deriving DecidableEq, Repr

/-! ## Writing -/

/-- A buffer split at the pointer, and the count of bytes left. -/
structure Writer (w : ℕ) where
  before : List (BitVec 8)
  rest : List (BitVec 8)
  room : BitVec w
  deriving DecidableEq

namespace Writer

/-- Assert that `n` bytes are left. -/
def assertRoom (n : BitVec w) (s : Writer w) : Except Fault (Writer w) := do
  check (n ≤ s.room) .assertion
  return s

/-- Store bytes at an offset from the pointer. -/
def store (offset : ℕ) (bytes : List (BitVec 8)) (s : Writer w) : Except Fault (Writer w) := do
  check (offset + bytes.length ≤ s.rest.length) .overrun
  return { s with rest := s.rest.take offset ++ bytes ++ s.rest.drop (offset + bytes.length) }

/-- Move the pointer and the count. -/
def advance (n : BitVec w) (s : Writer w) : Except Fault (Writer w) := do
  check (n.toNat ≤ s.rest.length) .overrun
  return ⟨s.before ++ s.rest.take n.toNat, s.rest.drop n.toNat, s.room - n⟩

/-- The bytes put down, and the pointer past them. -/
def put (bytes : List (BitVec 8)) (s : Writer w) : Writer w :=
  ⟨s.before ++ bytes, s.rest.drop bytes.length, s.room - BitVec.ofNat w bytes.length⟩

@[simp] theorem put_nil (s : Writer w) : s.put [] = s := by simp [put]

theorem put_put (a b : List (BitVec 8)) (s : Writer w) : (s.put a).put b = s.put (a ++ b) := by
  simp only [put, List.append_assoc, List.drop_drop, List.length_append, BitVec.ofNat_add,
    BitVec.sub_sub]

end Writer

/-- The code puts down `bytes`, if there is room and the count says so; and it does nothing else. -/
structure Writes (f : Writer w → Except Fault (Writer w)) (bytes : List (BitVec 8)) : Prop where
  total : ∀ s, bytes.length ≤ s.rest.length → bytes.length ≤ s.room.toNat → f s = .ok (s.put bytes)
  sound : ∀ s s', f s = .ok s' → bytes.length ≤ s.rest.length ∧ s' = s.put bytes

theorem toNat_sub_ofNat {x : BitVec w} {n : ℕ} (h : n ≤ x.toNat) :
    (x - BitVec.ofNat w n).toNat = x.toNat - n := by
  have hn : (BitVec.ofNat w n).toNat = n := by
    rw [BitVec.toNat_ofNat, Nat.mod_eq_of_lt (lt_of_le_of_lt h x.isLt)]
  rw [BitVec.toNat_sub_of_le (by rwa [BitVec.le_def, hn]), hn]

variable {f : Writer w → Except Fault (Writer w)} {a b bytes : List (BitVec 8)} {s s' : Writer w}
  {n : BitVec w}

/-- The code gets to its end exactly when there is room, if the count is right. -/
theorem Writes.iff (h : Writes f bytes) (hroom : s.room.toNat = s.rest.length) :
    f s = .ok s' ↔ bytes.length ≤ s.rest.length ∧ s' = s.put bytes := by
  refine ⟨h.sound s s', ?_⟩
  rintro ⟨hlen, rfl⟩
  exact h.total s hlen (hroom ▸ hlen)

theorem Writer.room_put (hroom : s.room.toNat = s.rest.length) (h : bytes.length ≤ s.rest.length) :
    (s.put bytes).room.toNat = (s.put bytes).rest.length := by
  simp only [put, List.length_drop]
  rw [toNat_sub_ofNat (by omega), hroom]

theorem Writes.nil : Writes (w := w) (fun s => .ok s) [] where
  total := by simp
  sound := by
    intro s s' h
    cases h
    simp

theorem Writes.bind {g : Writer w → Except Fault (Writer w)}
    (hf : Writes f a) (hg : Writes g b) : Writes (fun s => f s >>= g) (a ++ b) where
  total := by
    intro s hrest hroom
    rw [List.length_append] at hrest hroom
    have hput : b.length ≤ (s.put a).room.toNat := by
      show _ ≤ (s.room - BitVec.ofNat w a.length).toNat
      rw [toNat_sub_ofNat (by omega)]
      omega
    rw [hf.total s (by omega) (by omega), ok_bind, hg.total _ ?_ hput, Writer.put_put]
    simp only [Writer.put, List.length_drop]
    omega
  sound := by
    intro s s' h
    obtain ⟨s₁, h₁, h₂⟩ := bind_eq_ok.mp h
    obtain ⟨hlen₁, rfl⟩ := hf.sound s s₁ h₁
    obtain ⟨hlen₂, rfl⟩ := hg.sound _ _ h₂
    refine ⟨?_, Writer.put_put a b s⟩
    simp only [Writer.put, List.length_drop] at hlen₂
    rw [List.length_append]
    omega

/-- A field of `n` bytes of which the first ones are stored and the others keep what stood there. -/
theorem Writer.field_eq
    (hn : bytes.length ≤ n.toNat) (hrest : n.toNat ≤ s.rest.length) (hroom : n ≤ s.room) :
    (s.assertRoom n >>= Writer.store 0 bytes >>= Writer.advance n) =
      .ok (s.put (bytes ++ (s.rest.take n.toNat).drop bytes.length)) := by
  have hlen : (bytes ++ (s.rest.take n.toNat).drop bytes.length).length = n.toNat := by
    rw [List.length_append, List.length_drop, List.length_take, Nat.min_eq_left hrest]
    omega
  simp only [assertRoom, store, advance, check_of _ hroom, ok_bind, pure_eq_ok, List.take_zero,
    List.nil_append, Nat.zero_add, check_of _ (hn.trans hrest)]
  have hfit : n.toNat ≤ (bytes ++ s.rest.drop bytes.length).length := by
    rw [List.length_append, List.length_drop]
    omega
  rw [check_of _ hfit, ok_bind, put, hlen, BitVec.ofNat_toNat, BitVec.setWidth_eq,
    List.take_append, List.take_of_length_le hn, List.drop_append, List.drop_eq_nil_of_le hn,
    List.nil_append, List.drop_take, List.drop_drop]
  congr 3
  omega

theorem Writer.field_sound
    (h : (s.assertRoom n >>= Writer.store 0 bytes >>= Writer.advance n) = .ok s') :
    bytes.length ≤ s.rest.length ∧ n ≤ s.room := by
  simp only [assertRoom, store, bind_eq_ok, check_eq_ok, pure_inj] at h
  obtain ⟨s₁, ⟨s₂, ⟨_, hroom, rfl⟩, _, hlen, -⟩, -⟩ := h
  exact ⟨by omega, hroom⟩

/-- It takes as many bytes as the count says there are. -/
theorem Writer.field_iff (hn : bytes.length ≤ n.toNat) (hroom : s.room.toNat = s.rest.length) :
    (s.assertRoom n >>= Writer.store 0 bytes >>= Writer.advance n) = .ok s' ↔
      n.toNat ≤ s.rest.length ∧ s' = s.put (bytes ++ (s.rest.take n.toNat).drop bytes.length) := by
  constructor
  · intro h
    have hle : n.toNat ≤ s.rest.length := hroom ▸ (Writer.field_sound h).2
    rw [Writer.field_eq hn hle (by rwa [BitVec.le_def, hroom]), Except.ok.injEq] at h
    exact ⟨hle, h.symm⟩
  · rintro ⟨hle, rfl⟩
    exact Writer.field_eq hn hle (by rwa [BitVec.le_def, hroom])

/-- **A field** whose bytes are all stored. -/
theorem writes_field (hn : n.toNat = bytes.length) :
    Writes (fun s => s.assertRoom n >>= Writer.store 0 bytes >>= Writer.advance n) bytes := by
  have hput : ∀ s : Writer w, bytes ++ (s.rest.take n.toNat).drop bytes.length = bytes := by
    intro s
    rw [hn, List.drop_eq_nil_of_le (List.length_take_le _ _), List.append_nil]
  refine ⟨fun s hrest hroom => ?_, fun s s' h => ?_⟩
  · rw [Writer.field_eq hn.ge (by omega) (by rw [BitVec.le_def]; omega), hput]
  · obtain ⟨hrest, hroom⟩ := Writer.field_sound h
    refine ⟨hrest, ?_⟩
    rw [Writer.field_eq hn.ge (by omega) hroom, hput, Except.ok.injEq] at h
    exact h.symm

/-- Two stores next to each other are one. -/
theorem Writer.store_store (a b : List (BitVec 8)) (s : Writer w)
    (h : (a ++ b).length ≤ s.rest.length) :
    (Writer.store 0 a s >>= Writer.store a.length b) = Writer.store 0 (a ++ b) s := by
  rw [List.length_append] at h
  simp only [store, pure_eq_ok, List.take_zero, List.nil_append, Nat.zero_add, List.length_append,
    check_of _ h, check_of _ (show a.length ≤ s.rest.length by omega), ok_bind]
  have hfit : a.length + b.length ≤ a.length + (s.rest.drop a.length).length := by
    rw [List.length_drop]
    omega
  rw [check_of _ hfit, ok_bind, List.take_left' rfl, List.drop_append,
    List.drop_eq_nil_of_le (by omega), List.nil_append, List.drop_drop, List.append_assoc,
    List.append_assoc]
  congr 5
  omega

/-- **A length and the bytes it announces.** -/
theorem writes_sized_field (hn : n.toNat = (a ++ b).length) :
    Writes (fun s => s.assertRoom n >>= Writer.store 0 a >>= Writer.store a.length b >>=
      Writer.advance n) (a ++ b) := by
  have hfield := writes_field hn
  have heq : ∀ s : Writer w, (a ++ b).length ≤ s.rest.length →
      (s.assertRoom n >>= Writer.store 0 a >>= Writer.store a.length b >>= Writer.advance n) =
        (s.assertRoom n >>= Writer.store 0 (a ++ b) >>= Writer.advance n) := by
    intro s hs
    by_cases hroom : n ≤ s.room
    · simp only [Writer.assertRoom, check_of _ hroom, ok_bind, pure_eq_ok]
      rw [Writer.store_store a b s hs]
    · simp only [Writer.assertRoom, check_of_not _ hroom, error_bind]
  refine ⟨fun s hrest hroom => ?_, fun s s' h => ?_⟩
  · rw [heq s hrest]
    exact hfield.total s hrest hroom
  · have hrest : (a ++ b).length ≤ s.rest.length := by
      simp only [Writer.assertRoom, Writer.store, bind_eq_ok, check_eq_ok, pure_eq_ok,
        Except.ok.injEq] at h
      obtain ⟨s₁, ⟨s₂, ⟨s₃, ⟨_, -, rfl⟩, _, hlen, rfl⟩, _, hlen₂, -⟩, -⟩ := h
      simp only [List.take_zero, List.nil_append, Nat.zero_add, List.length_append,
        List.length_drop] at hlen hlen₂ ⊢
      omega
    rw [heq s hrest] at h
    exact hfield.sound s s' h

/-! ## Reading -/

/-- The bytes from the pointer on, the count of bytes left, the length read last, and what has been
recorded. -/
structure Reader (w : ℕ) (δ : Type) where
  rest : List (BitVec 8)
  rem : BitVec w
  size : BitVec w
  log : List δ

namespace Reader

/-- Assert that `n` bytes are left. -/
def assertRem (n : BitVec w) (s : Reader w δ) : Except Fault (Reader w δ) := do
  check (n ≤ s.rem) .assertion
  return s

/-- Assert that as many bytes are left as the length read last says. -/
def assertSize (s : Reader w δ) : Except Fault (Reader w δ) := do
  check (s.size ≤ s.rem) .assertion
  return s

/-- Assert that the length read last is at most `capacity`. -/
def assertCapacity (capacity : BitVec w) (s : Reader w δ) : Except Fault (Reader w δ) := do
  check (s.size ≤ capacity) .assertion
  return s

/-- Load the byte at the pointer and assert that it is `tag`. -/
def expect (tag : BitVec 8) (s : Reader w δ) : Except Fault (Reader w δ) :=
  match s.rest with
  | [] => .error .overrun
  | b :: _ => do
    check (b = tag) .assertion
    return s

/-- Load a length of `n` bytes. -/
def loadSize (n : ℕ) (s : Reader w δ) : Except Fault (Reader w δ) := do
  check (n ≤ s.rest.length) .overrun
  return { s with size := ofLeBytes w (s.rest.take n) }

/-- Load `n` bytes, and record what `f` makes of the bytes at the pointer. -/
def record (n : ℕ) (f : List (BitVec 8) → δ) (s : Reader w δ) : Except Fault (Reader w δ) := do
  check (n ≤ s.rest.length) .overrun
  return { s with log := s.log ++ [f s.rest] }

/-- Load as many bytes as the length read last says. -/
def recordSized (f : ℕ → List (BitVec 8) → δ) (s : Reader w δ) : Except Fault (Reader w δ) :=
  s.record s.size.toNat (f s.size.toNat)

/-- Move the pointer and the count. -/
def advance (n : BitVec w) (s : Reader w δ) : Except Fault (Reader w δ) := do
  check (n.toNat ≤ s.rest.length) .overrun
  return { s with rest := s.rest.drop n.toNat, rem := s.rem - n }

/-- Move past as many bytes as the length read last says. -/
def advanceSize (s : Reader w δ) : Except Fault (Reader w δ) := s.advance s.size

end Reader

/-- The code takes `bytes` from the front of the buffer, whatever follows them, and records
`entries`. -/
def Reads (f : Reader w δ → Except Fault (Reader w δ)) (bytes : List (BitVec 8))
    (entries : List δ) : Prop :=
  ∀ (s : Reader w δ) (tail : List (BitVec 8)), s.rest = bytes ++ tail →
    bytes.length ≤ s.rem.toNat → ∃ size,
      f s = .ok ⟨tail, s.rem - BitVec.ofNat w bytes.length, size, s.log ++ entries⟩

theorem Reads.nil : Reads (w := w) (δ := δ) (fun s => .ok s) [] [] := by
  intro s tail hs _
  refine ⟨s.size, ?_⟩
  rw [List.nil_append] at hs
  simp [← hs]

variable {g : Reader w δ → Except Fault (Reader w δ)}

theorem Reads.bind {f : Reader w δ → Except Fault (Reader w δ)}
    {l m : List δ} (hf : Reads f a l) (hg : Reads g b m) :
    Reads (fun s => f s >>= g) (a ++ b) (l ++ m) := by
  intro s tail hs hrem
  rw [List.length_append] at hrem
  obtain ⟨size₁, h₁⟩ := hf s (b ++ tail) (by rw [hs, List.append_assoc]) (by omega)
  have hrem₁ : b.length ≤ (s.rem - BitVec.ofNat w a.length).toNat := by
    rw [toNat_sub_ofNat (by omega)]
    omega
  obtain ⟨size₂, h₂⟩ := hg ⟨b ++ tail, _, size₁, s.log ++ l⟩ tail rfl hrem₁
  refine ⟨size₂, ?_⟩
  show (f s >>= g) = _
  rw [h₁, ok_bind, h₂, List.length_append, BitVec.ofNat_add, BitVec.sub_sub, List.append_assoc]

theorem reads_tag (tag : BitVec 8) (h1 : 1 < 2 ^ w) :
    Reads (δ := δ) (fun s => s.assertRem (1 : BitVec w) >>= Reader.expect tag >>=
      Reader.advance 1) [tag] [] := by
  intro s tail hs hrem
  have hone : (1 : BitVec w).toNat = 1 := by
    show (BitVec.ofNat w 1).toNat = 1
    rw [BitVec.toNat_ofNat, Nat.mod_eq_of_lt h1]
  have hrem' : (1 : BitVec w) ≤ s.rem := by
    rw [BitVec.le_def, hone]
    exact hrem
  refine ⟨s.size, ?_⟩
  simp only [Reader.assertRem, check_of _ hrem', ok_bind, pure_eq_ok, Reader.expect, hs,
    List.singleton_append, check_of _ trivial, Reader.advance, hone, List.length_cons,
    check_of _ (show 1 ≤ tail.length + 1 by omega), List.drop_succ_cons, List.drop_zero,
    List.append_nil, List.length_nil, Nat.zero_add]
  rfl

/-- **A field of fixed size.** -/
theorem reads_field {f : List (BitVec 8) → δ} {entry : δ}
    (hn : n.toNat = bytes.length) (hf : ∀ tail, f (bytes ++ tail) = entry) :
    Reads (fun s => s.assertRem n >>= Reader.record n.toNat f >>= Reader.advance n) bytes
      [entry] := by
  intro s tail hs hrem
  have hrem' : n ≤ s.rem := by rwa [BitVec.le_def, hn]
  have hlen : n.toNat ≤ (bytes ++ tail).length := by
    rw [List.length_append]
    omega
  refine ⟨s.size, ?_⟩
  simp only [Reader.assertRem, check_of _ hrem', ok_bind, pure_eq_ok, Reader.record,
    Reader.advance, hs, check_of _ hlen, hf]
  rw [List.drop_left' hn.symm, ← hn, BitVec.ofNat_toNat, BitVec.setWidth_eq]

/-- **A length and the bytes it announces**, with checks on the length in between. -/
theorem reads_sized {k : BitVec w} {payload : List (BitVec 8)}
    {f : ℕ → List (BitVec 8) → δ} {entry : δ} (hk : w ≤ 8 * k.toNat) (hn : n.toNat = payload.length)
    (hg : ∀ s, s.size = n → n ≤ s.rem → g s = .ok s)
    (hf : ∀ tail, f payload.length (payload ++ tail) = entry) :
    Reads (fun s => s.assertRem k >>= Reader.loadSize k.toNat >>= Reader.advance k >>= g >>=
      Reader.recordSized f >>= Reader.advanceSize) (leBytes k.toNat n ++ payload) [entry] := by
  intro s tail hs hrem
  rw [List.length_append, length_leBytes] at hrem
  have hrem' : k ≤ s.rem := by
    rw [BitVec.le_def]
    omega
  have hlen : k.toNat ≤ (leBytes k.toNat n ++ payload ++ tail).length := by
    simp only [List.length_append, length_leBytes]
    omega
  have hlen' : payload.length ≤ (payload ++ tail).length := by
    rw [List.length_append]
    omega
  have hsub : n ≤ s.rem - k := by
    rw [BitVec.le_def, BitVec.toNat_sub_of_le hrem']
    omega
  refine ⟨n, ?_⟩
  have htake : (leBytes k.toNat n ++ payload ++ tail).take k.toNat = leBytes k.toNat n := by
    rw [List.append_assoc, List.take_left' (length_leBytes _ _)]
  have hdrop : (leBytes k.toNat n ++ payload ++ tail).drop k.toNat = payload ++ tail := by
    rw [List.append_assoc, List.drop_left' (length_leBytes _ _)]
  simp only [Reader.assertRem, check_of _ hrem', ok_bind, pure_eq_ok, Reader.loadSize, hs,
    check_of _ hlen, Reader.advance, htake, hdrop, ofLeBytes_leBytes n hk]
  rw [hg _ rfl hsub, ok_bind]
  simp only [Reader.recordSized, Reader.record, Reader.advanceSize, Reader.advance,
    check_of _ hlen', ok_bind, pure_eq_ok, hn, hf]
  rw [List.drop_left' rfl, List.length_append, length_leBytes, BitVec.ofNat_add, BitVec.sub_sub,
    BitVec.ofNat_toNat, BitVec.setWidth_eq, ← hn, BitVec.ofNat_toNat, BitVec.setWidth_eq]

end Rastapopoulos.Cursor
