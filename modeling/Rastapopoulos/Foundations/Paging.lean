import Mathlib.Data.Fin.Basic
import Mathlib.Logic.Function.Basic
import Rastapopoulos.Foundations.Word

/-!
# Two-level paging

Physical memory is a family of frames of 1024 words, under their addresses. A page directory is a
frame whose present entries lead to page tables, and the present entries of those lead to the frames
of the pages. `translate` is what the processor does on an access.

A directory that has itself as its last page table shows all its page tables in the last 4 MiB of
the address space, and itself in the last page (`translate_window`, `translate_directory`). If its
page tables are different frames (`Distinct`), then a write to one entry changes the look-up of one
page (`lookup_write`), and a cleared frame can be added as a page table (`lookup_link`).
-/

namespace Rastapopoulos.Paging

open Function

/-! ## Memory -/

instance neZero_entries : NeZero 1024 := ⟨by decide⟩

/-- The words of each frame. -/
abbrev Memory := ℕ → Fin 1024 → BitVec 32

variable {mem : Memory} {f g t cr3 va va' : ℕ} {d d' i j j' : Fin 1024} {w e : BitVec 32}

/-- What holds of the new value, and of the old ones elsewhere, holds of the values after an
update. -/
theorem update_rec {α β : Type*} [DecidableEq α] {f : α → β} {a x : α} {b : β} {P : β → Prop}
    (h : x = a → P b) (h' : x ≠ a → P (f x)) : P (update f a b x) := by
  rw [update_apply]
  split
  · exact h ‹_›
  · exact h' ‹_›

variable {bytes : ℕ → Option (BitVec 8)} {flags : BitVec 32}

namespace Memory

def write (mem : Memory) (f : ℕ) (i : Fin 1024) (w : BitVec 32) : Memory :=
  update mem f (update (mem f) i w)

/-- The memory with all words of a frame set to zero. -/
def clear (mem : Memory) (f : ℕ) : Memory := update mem f fun _ => 0

/-- The memory with some of the bytes of a frame replaced. -/
def fill (mem : Memory) (f : ℕ) (bytes : ℕ → Option (BitVec 8)) : Memory :=
  update mem f fun i =>
    let byte (k : ℕ) := (bytes (4 * i + k)).getD ((mem f i).extractLsb' (8 * k) 8)
    byte 3 ++ byte 2 ++ byte 1 ++ byte 0

/-- A byte of a frame. -/
def byte (mem : Memory) (f b : ℕ) : BitVec 8 :=
  (mem f (Fin.ofNat 1024 (b / 4))).extractLsb' (8 * (b % 4)) 8

@[simp] theorem write_same : mem.write f i w f i = w := by simp [write]

theorem write_of_ne (h : g ≠ f) : mem.write f i w g = mem g := by simp [write, h]

theorem write_of_index_ne (h : j ≠ i) : mem.write f i w g j = mem g j := by
  by_cases hg : g = f
  · subst hg
    simp [write, h]
  · rw [write_of_ne hg]

theorem write_apply : mem.write f i w g j = if g = f ∧ j = i then w else mem g j := by
  by_cases h : g = f ∧ j = i
  · rw [if_pos h, h.1, h.2, write_same]
  · rw [if_neg h]
    rcases not_and_or.mp h with h | h
    · rw [write_of_ne h]
    · rw [write_of_index_ne h]

theorem write_rec {P : BitVec 32 → Prop} (h : g = f → j = i → P w) (h' : P (mem g j)) :
    P (mem.write f i w g j) := by
  rw [write_apply]
  split
  · rename_i heq
    exact h heq.1 heq.2
  · exact h'

theorem write_write {v : BitVec 32} : (mem.write f i v).write f i w = mem.write f i w := by
  simp [write]

@[simp] theorem clear_same : mem.clear f f i = 0 := by simp [clear]

theorem clear_of_ne (h : g ≠ f) : mem.clear f g = mem g := by simp [clear, h]

theorem fill_of_ne (h : g ≠ f) : mem.fill f bytes g = mem g :=
  update_of_ne h _ _

theorem extractLsb'_bytes (byte : ℕ → BitVec 8) {k : ℕ} (hk : k < 4) :
    (byte 3 ++ byte 2 ++ byte 1 ++ byte 0 : BitVec 32).extractLsb' (8 * k) 8 = byte k := by
  apply BitVec.eq_of_getLsbD_eq
  intro i hi
  simp only [BitVec.getLsbD_extractLsb', BitVec.getLsbD_append, hi, decide_true, Bool.true_and]
  obtain rfl | rfl | rfl | rfl : k = 0 ∨ k = 1 ∨ k = 2 ∨ k = 3 := by omega
  · rw [if_pos (by omega), show 8 * 0 + i = i by omega]
  · rw [if_neg (by omega), if_pos (by omega), show 8 * 1 + i - 8 = i by omega]
  · rw [if_neg (by omega), if_neg (by omega), if_pos (by omega), show 8 * 2 + i - 8 - 8 = i by omega]
  · rw [if_neg (by omega), if_neg (by omega), if_neg (by omega),
      show 8 * 3 + i - 8 - 8 - 8 = i by omega]

theorem byte_fill {b : ℕ} (hb : b < 4096) :
    (mem.fill f bytes).byte f b = (bytes b).getD (mem.byte f b) := by
  have hindex : ((Fin.ofNat 1024 (b / 4) : Fin 1024) : ℕ) = b / 4 :=
    Nat.mod_eq_of_lt (Nat.div_lt_of_lt_mul hb)
  rw [byte, fill, update_self]
  refine (extractLsb'_bytes (fun k => (bytes (4 * (Fin.ofNat 1024 (b / 4) : Fin 1024) + k)).getD
    ((mem f (Fin.ofNat 1024 (b / 4))).extractLsb' (8 * k) 8)) (Nat.mod_lt b (by decide))).trans ?_
  rw [hindex, Nat.div_add_mod]
  rfl

end Memory

/-! ## Entries -/

def Present (e : BitVec 32) : Prop := e &&& 1 ≠ 0

instance (e : BitVec 32) : Decidable (Present e) := inferInstanceAs (Decidable (_ ≠ _))

/-- The address of the frame that an entry leads to. -/
def frameOf (e : BitVec 32) : ℕ := (e &&& 0xFFFFF000).toNat

def flagsOf (e : BitVec 32) : BitVec 32 := e &&& 0xFFF

/-- Where a present entry leads. -/
def target (e : BitVec 32) : Option ℕ := if Present e then some (frameOf e) else none

/-- The entry for a frame. -/
def entry (f : ℕ) (flags : BitVec 32) : BitVec 32 := (BitVec.ofNat 32 f &&& 0xFFFFF000) ||| flags

theorem target_eq_some : target e = some f ↔ Present e ∧ frameOf e = f := by
  unfold target
  split <;> simp_all

theorem Present.target (h : Present e) : target e = some (frameOf e) := target_eq_some.mpr ⟨h, rfl⟩

theorem target_eq_none : target e = none ↔ ¬ Present e := by
  unfold target
  split <;> simp_all

theorem not_present_zero : ¬ Present 0 := by decide

theorem frameOf_lt : frameOf e < wordMod := (e &&& 0xFFFFF000).isLt

theorem frameOf_eq (e : BitVec 32) : frameOf e = e.toNat / 2 ^ 12 * 2 ^ 12 := by
  rw [frameOf, BitVec.toNat_and]
  have hmask : e.toNat &&& (2 ^ 32 - 2 ^ 12) = e.toNat / 2 ^ 12 * 2 ^ 12 :=
    and_mask_two_pow (by decide) e.isLt
  exact hmask

theorem flagsOf_eq (e : BitVec 32) : (flagsOf e).toNat = e.toNat % 2 ^ 12 := by
  rw [flagsOf, BitVec.toNat_and]
  exact Nat.and_two_pow_sub_one_eq_mod e.toNat 12

theorem ofNat_and_mask (hf : f % 2 ^ 12 = 0) (hlt : f < wordMod) :
    BitVec.ofNat 32 f &&& 0xFFFFF000 = BitVec.ofNat 32 f := by
  have hnat : (BitVec.ofNat 32 f).toNat = f := BitVec.toNat_ofNat f 32 ▸ Nat.mod_eq_of_lt hlt
  apply BitVec.eq_of_toNat_eq
  have hframe := frameOf_eq (BitVec.ofNat 32 f)
  rw [frameOf, hnat] at hframe
  rw [hframe, hnat]
  omega

/-- An entry is the sum of its two parts. -/
theorem entry_toNat (hf : f % 2 ^ 12 = 0) (hlt : f < wordMod)
    (hflags : flags.toNat < 2 ^ 12) : (entry f flags).toNat = f + flags.toNat := by
  have hnat : (BitVec.ofNat 32 f).toNat = f := BitVec.toNat_ofNat f 32 ▸ Nat.mod_eq_of_lt hlt
  rw [entry, ofNat_and_mask hf hlt, BitVec.toNat_or, hnat]
  obtain ⟨k, rfl⟩ := Nat.dvd_of_mod_eq_zero hf
  exact (Nat.two_pow_add_eq_or_of_lt hflags k).symm

theorem frameOf_entry (hf : f % 2 ^ 12 = 0) (hlt : f < wordMod)
    (hflags : flags.toNat < 2 ^ 12) : frameOf (entry f flags) = f := by
  rw [frameOf_eq, entry_toNat hf hlt hflags]
  omega

theorem flagsOf_entry (hf : f % 2 ^ 12 = 0) (hlt : f < wordMod)
    (hflags : flags.toNat < 2 ^ 12) : flagsOf (entry f flags) = flags := by
  apply BitVec.eq_of_toNat_eq
  rw [flagsOf_eq, entry_toNat hf hlt hflags]
  omega

theorem present_iff : Present e ↔ e.toNat % 2 = 1 := by
  have hand : (e &&& 1).toNat = e.toNat % 2 := by
    rw [BitVec.toNat_and]
    exact Nat.and_two_pow_sub_one_eq_mod e.toNat 1
  rw [Present, Ne, ← BitVec.toNat_inj, hand]
  simp

theorem present_flagsOf : Present (flagsOf e) ↔ Present e := by
  rw [present_iff, present_iff, flagsOf_eq]
  omega

theorem flagsOf_lt : (flagsOf e).toNat < 2 ^ 12 := by
  rw [flagsOf_eq]
  exact Nat.mod_lt _ (by decide)

theorem present_entry (hf : f % 2 ^ 12 = 0) (hlt : f < wordMod)
    (hflags : flags.toNat < 2 ^ 12) : Present (entry f flags) ↔ Present flags := by
  rw [present_iff, present_iff, entry_toNat hf hlt hflags]
  omega

theorem target_entry (hf : f % 2 ^ 12 = 0) (hlt : f < wordMod)
    (hflags : flags.toNat < 2 ^ 12) (hp : Present flags) : target (entry f flags) = some f :=
  target_eq_some.mpr ⟨(present_entry hf hlt hflags).mpr hp, frameOf_entry hf hlt hflags⟩

theorem frameOf_mod (e : BitVec 32) : frameOf e % 2 ^ 12 = 0 := by
  rw [frameOf_eq]
  exact Nat.mul_mod_left _ _

/-- An entry is made of its two parts. -/
theorem entry_frameOf_flagsOf (e : BitVec 32) : entry (frameOf e) (flagsOf e) = e := by
  apply BitVec.eq_of_toNat_eq
  rw [entry_toNat (frameOf_mod e) frameOf_lt flagsOf_lt, frameOf_eq, flagsOf_eq]
  omega

/-- An entry with other flags. -/
theorem and_mask_or (flags : BitVec 32) :
    (e &&& 0xFFFFF000) ||| flags = entry (frameOf e) flags := by
  rw [entry, ofNat_and_mask (frameOf_mod e) frameOf_lt, frameOf, BitVec.ofNat_toNat,
    BitVec.setWidth_eq]

theorem not_present_and_not (e : BitVec 32) : ¬ Present (e &&& ~~~1) := by
  rw [Present, BitVec.and_assoc, show (~~~1 &&& 1 : BitVec 32) = 0#32 from rfl, BitVec.and_zero]
  exact not_not.mpr rfl

/-! ## Translation -/

def dirIndex (va : ℕ) : Fin 1024 := Fin.ofNat 1024 (va / 2 ^ 22)

def tableIndex (va : ℕ) : Fin 1024 := Fin.ofNat 1024 (va / 2 ^ 12)

def wordIndex (va : ℕ) : Fin 1024 := Fin.ofNat 1024 (va / 2 ^ 2)

/-- The entry of a page, if there is a page. -/
def lookup (mem : Memory) (cr3 : ℕ) (d j : Fin 1024) : Option (BitVec 32) :=
  (target (mem cr3 d)).bind fun t => if Present (mem t j) then some (mem t j) else none

/-- The frame behind an address. -/
def translate (mem : Memory) (cr3 va : ℕ) : Option ℕ :=
  (target (mem cr3 (dirIndex va))).bind fun t => target (mem t (tableIndex va))

theorem lookup_eq_some : lookup mem cr3 d j = some e ↔
    ∃ t, target (mem cr3 d) = some t ∧ mem t j = e ∧ Present e := by
  rw [lookup, Option.bind_eq_some_iff]
  refine exists_congr fun t => and_congr_right fun _ => ?_
  rw [Option.ite_none_right_eq_some, Option.some.injEq]
  constructor
  · rintro ⟨hpresent, rfl⟩
    exact ⟨rfl, hpresent⟩
  · rintro ⟨rfl, hpresent⟩
    exact ⟨hpresent, rfl⟩

theorem translate_eq_some : translate mem cr3 va = some f ↔
    ∃ t, target (mem cr3 (dirIndex va)) = some t ∧ target (mem t (tableIndex va)) = some f :=
  Option.bind_eq_some_iff

theorem translate_eq_lookup :
    translate mem cr3 va = (lookup mem cr3 (dirIndex va) (tableIndex va)).map frameOf := by
  unfold translate lookup
  cases target (mem cr3 (dirIndex va)) with
  | none => rfl
  | some t =>
    simp only [Option.bind_some, target]
    split <;> rfl

theorem translate_of_target (ht : target (mem cr3 (dirIndex va)) = some t) :
    translate mem cr3 va = target (mem t (tableIndex va)) := by
  rw [translate, ht, Option.bind_some]

/-- The entry of a page has been written. -/
theorem translate_write (ht : target (mem cr3 (dirIndex va)) = some t) (hne : cr3 ≠ t) :
    translate (mem.write t (tableIndex va) e) cr3 va = target e := by
  have ht' : target (mem.write t (tableIndex va) e cr3 (dirIndex va)) = some t := by
    rw [Memory.write_of_ne hne, ht]
  rw [translate_of_target ht', Memory.write_same]

theorem present_of_lookup (h : lookup mem cr3 d j = some e) : Present e := by
  obtain ⟨t, -, -, hpresent⟩ := lookup_eq_some.mp h
  exact hpresent

/-- Translation reads two entries. -/
theorem translate_congr {mem' : Memory}
    (hd : target (mem' cr3 (dirIndex va)) = target (mem cr3 (dirIndex va)))
    (ht : ∀ t, target (mem cr3 (dirIndex va)) = some t →
      target (mem' t (tableIndex va)) = target (mem t (tableIndex va))) :
    translate mem' cr3 va = translate mem cr3 va := by
  rw [translate, translate, hd]
  cases h : target (mem cr3 (dirIndex va)) with
  | none => rfl
  | some t => exact ht t h

/-- A frame that translation does not read. -/
theorem translate_fill (hcr3 : f ≠ cr3) (htable : ∀ d, target (mem cr3 d) ≠ some f) :
    translate (mem.fill f bytes) cr3 va = translate mem cr3 va := by
  refine translate_congr ?_ fun t ht => ?_
  · rw [Memory.fill_of_ne hcr3.symm]
  · rw [Memory.fill_of_ne]
    rintro rfl
    exact htable _ ht

/-- The words of a page have the translation of the page. -/
theorem translate_add (ha : va % 2 ^ 12 = 0) (i : Fin 1024) :
    translate mem cr3 (va + 4 * i) = translate mem cr3 va ∧ wordIndex (va + 4 * i) = i := by
  have hd : dirIndex (va + 4 * i) = dirIndex va := by
    apply Fin.ext
    simp only [dirIndex, Fin.val_ofNat]
    omega
  have hj : tableIndex (va + 4 * i) = tableIndex va := by
    apply Fin.ext
    simp only [tableIndex, Fin.val_ofNat]
    omega
  refine ⟨by rw [translate, translate, hd, hj], ?_⟩
  apply Fin.ext
  simp only [wordIndex, Fin.val_ofNat]
  omega

/-- Pages are told apart by their indices. -/
theorem page_ext (ha : va % 2 ^ 12 = 0) (hlt : va < wordMod) (ha' : va' % 2 ^ 12 = 0)
    (hlt' : va' < wordMod) (hd : dirIndex va = dirIndex va') (hj : tableIndex va = tableIndex va') :
    va = va' := by
  have hd := congrArg Fin.val hd
  have hj := congrArg Fin.val hj
  simp only [dirIndex, tableIndex, Fin.val_ofNat] at hd hj
  unfold wordMod at *
  omega

/-! ## The window of a directory that leads to itself -/

section Window

variable (hself : target (mem cr3 1023) = some cr3)

include hself

theorem translate_directory (i : Fin 1024) :
    translate mem cr3 (0xFFFFF000 + 4 * i) = some cr3 ∧ wordIndex (0xFFFFF000 + 4 * i) = i := by
  have hd : dirIndex (0xFFFFF000 + 4 * i) = 1023 := by
    apply Fin.ext
    simp only [dirIndex, Fin.val_ofNat]
    omega
  have hj : tableIndex (0xFFFFF000 + 4 * i) = 1023 := by
    apply Fin.ext
    simp only [tableIndex, Fin.val_ofNat]
    omega
  refine ⟨by rw [translate, hd, hself, Option.bind_some, hj, hself], ?_⟩
  apply Fin.ext
  simp only [wordIndex, Fin.val_ofNat]
  omega

theorem translate_window (d j : Fin 1024) :
    translate mem cr3 (0xFFC00000 + d * 4096 + 4 * j) = target (mem cr3 d) ∧
      wordIndex (0xFFC00000 + d * 4096 + 4 * j) = j := by
  have hd : dirIndex (0xFFC00000 + d * 4096 + 4 * j) = 1023 := by
    apply Fin.ext
    simp only [dirIndex, Fin.val_ofNat]
    omega
  have hj : tableIndex (0xFFC00000 + d * 4096 + 4 * j) = d := by
    apply Fin.ext
    simp only [tableIndex, Fin.val_ofNat]
    omega
  refine ⟨by rw [translate, hd, hself, Option.bind_some, hj], ?_⟩
  apply Fin.ext
  simp only [wordIndex, Fin.val_ofNat]
  omega

end Window

/-! ## Directories with different page tables -/

/-- A directory that leads to itself, and whose page tables are different frames. -/
structure Distinct (mem : Memory) (cr3 : ℕ) : Prop where
  self : target (mem cr3 1023) = some cr3
  inj : ∀ d d' t, target (mem cr3 d) = some t → target (mem cr3 d') = some t → d = d'

namespace Distinct

variable (h : Distinct mem cr3)

include h

theorem ne_cr3 (hd : d ≠ 1023) (ht : target (mem cr3 d) = some t) : t ≠ cr3 :=
  fun heq => hd (h.inj d 1023 t ht (heq ▸ h.self))

/-- **A write to a page table** changes the look-up of one page. -/
theorem lookup_write (hd : d ≠ 1023) (ht : target (mem cr3 d) = some t) :
    lookup (mem.write t j w) cr3 d' j' =
      if d' = d ∧ j' = j then (if Present w then some w else none) else lookup mem cr3 d' j' := by
  have hdir : mem.write t j w cr3 = mem cr3 := Memory.write_of_ne (h.ne_cr3 hd ht).symm
  unfold lookup
  rw [hdir]
  by_cases hd' : d' = d
  · subst hd'
    simp only [ht, Option.bind_some, Memory.write_apply, true_and]
    split <;> rfl
  · rw [if_neg fun hc => hd' hc.1]
    cases ht' : target (mem cr3 d') with
    | none => rfl
    | some t' =>
      have hne : t' ≠ t := fun heq => hd' (h.inj d' d t (heq ▸ ht') ht)
      rw [Option.bind_some, Option.bind_some, Memory.write_of_ne hne]

theorem write_table (hd : d ≠ 1023) (ht : target (mem cr3 d) = some t) :
    Distinct (mem.write t j w) cr3 := by
  have hdir : mem.write t j w cr3 = mem cr3 := Memory.write_of_ne (h.ne_cr3 hd ht).symm
  constructor
  · rw [hdir]
    exact h.self
  · rw [hdir]
    exact h.inj

section Link

variable (hd : target (mem cr3 d) = none) (ht : ∀ d', target (mem cr3 d') ≠ some t)
  (he : target e = some t)

include hd ht he

/-- **A new page table.** It is cleared after it has been linked, as it can be reached then. -/
theorem lookup_link (hd' : d' ≠ 1023) :
    lookup ((mem.write cr3 d e).clear t) cr3 d' j' = lookup mem cr3 d' j' := by
  have hne : cr3 ≠ t := fun heq => ht 1023 (heq ▸ h.self)
  unfold lookup
  rw [Memory.clear_of_ne hne]
  by_cases heq : d' = d
  · rw [heq, Memory.write_same, he, hd, Option.bind_some, Memory.clear_same,
      if_neg not_present_zero]
    rfl
  · rw [Memory.write_of_index_ne heq]
    cases ht' : target (mem cr3 d') with
    | none => rfl
    | some t' =>
      have hne' : t' ≠ t := fun heq => ht d' (heq ▸ ht')
      rw [Option.bind_some, Option.bind_some, Memory.clear_of_ne hne',
        Memory.write_of_ne (h.ne_cr3 hd' ht')]

theorem link : Distinct ((mem.write cr3 d e).clear t) cr3 := by
  have hne : cr3 ≠ t := fun heq => ht 1023 (heq ▸ h.self)
  have hd' : d ≠ 1023 := by
    rintro rfl
    exact absurd (h.self.symm.trans hd) (by simp)
  have htarget : ∀ i, target ((mem.write cr3 d e).clear t cr3 i) =
      if i = d then some t else target (mem cr3 i) := by
    intro i
    rw [Memory.clear_of_ne hne]
    split
    · rename_i heq
      rw [heq, Memory.write_same, he]
    · rw [Memory.write_of_index_ne ‹_›]
  constructor
  · rw [htarget, if_neg hd'.symm]
    exact h.self
  · intro i i' t' hi hi'
    rw [htarget] at hi hi'
    split at hi <;> split at hi'
    · simp_all
    · cases hi
      exact absurd hi' (ht i')
    · cases hi'
      exact absurd hi (ht i)
    · exact h.inj i i' t' hi hi'

end Link

end Distinct

end Rastapopoulos.Paging
