import Rastapopoulos.Strings.Format

/-!
# Formatting into a buffer

`snprintf_callback` stops at the last character but one of the buffer, but `vsnprintf` puts the NUL
where the whole output would have ended. So the buffer is kept to, and holds a string, exactly if
the output fits (`vsnprintf_bounded_iff`); `__log` formats into 128 characters that way.
-/

namespace Rastapopoulos.Strings

variable {before rest s buffer : List Byte} {siz ret : ℕ}

/-- The callback, called for all characters of a string. -/
theorem emit_snprintfCallback (hsiz : siz ≤ rest.length) (hret : ret < wordMod) :
    emit snprintfCallback (⟨before ++ rest, before.length, siz⟩, ret) s =
      .ok (⟨before ++ s.take siz ++ rest.drop (s.take siz).length, (before ++ s.take siz).length,
        siz - s.length⟩, (ret + s.length) % wordMod) := by
  induction s generalizing before rest siz ret with
  | nil => simp [emit, Nat.mod_eq_of_lt hret]
  | cons c s ih =>
    have hret' : (addW ret 1 + s.length) % wordMod = (ret + (c :: s).length) % wordMod := by
      rw [addW, Nat.mod_add_mod, List.length_cons, Nat.add_assoc, Nat.add_comm 1]
    cases siz with
    | zero =>
      have hstep : emit snprintfCallback (⟨before ++ rest, before.length, 0⟩, ret) (c :: s) =
          emit snprintfCallback (⟨before ++ rest, before.length, 0⟩, addW ret 1) s := rfl
      rw [hstep, ih (Nat.zero_le _) (addW_lt _ _), hret']
      simp
    | succ siz =>
      obtain ⟨c', rest, rfl⟩ := List.exists_cons_of_ne_nil
        (List.ne_nil_of_length_pos (Nat.zero_lt_of_lt hsiz))
      have hcall : snprintfCallback ⟨before ++ c' :: rest, before.length, siz + 1⟩ c =
          .ok ⟨before ++ [c] ++ rest, (before ++ [c]).length, siz⟩ := by
        rw [snprintfCallback, if_pos (Nat.succ_ne_zero siz), store_append rfl]
        simp
      have hstep : emit snprintfCallback (⟨before ++ c' :: rest, before.length, siz + 1⟩, ret)
          (c :: s) = emit snprintfCallback (⟨before ++ [c] ++ rest, (before ++ [c]).length, siz⟩,
            addW ret 1) s := by
        rw [emit, List.foldlM_cons, hcall]
        rfl
      rw [hstep, ih (by simpa using hsiz) (addW_lt _ _), hret']
      simp

/-- The call, up to the NUL that it stores. -/
theorem vsnprintf_eq (pieces : List Piece) (hpos : 0 < buffer.length)
    (hlt : buffer.length < wordMod) :
    vsnprintf buffer buffer.length (formatOf pieces) (argsOf pieces) = do
      let ret := (outputOf pieces).length % wordMod
      let written := (outputOf pieces).take (buffer.length - 1)
      let buffer ← store (written ++ buffer.drop written.length) ret 0
      return (buffer, addW ret 1) := by
  have hemit : emit snprintfCallback (⟨[] ++ buffer, 0, buffer.length - 1⟩, 0) (outputOf pieces) =
      _ := emit_snprintfCallback (Nat.sub_le _ _) (by decide)
  simp only [List.nil_append, Nat.zero_add] at hemit
  rw [vsnprintf, formatv_eq, subW_of_le hlt hpos, hemit]
  rfl

/-- The call keeps to the buffer, and leaves in it as much of the output as fits, with a NUL behind
it. -/
def Bounded (buffer : List Byte) (pieces : List Piece) : Prop :=
  ∃ buffer' ret, vsnprintf buffer buffer.length (formatOf pieces) (argsOf pieces) =
      .ok (buffer', ret) ∧
    chars buffer' = .ok ((outputOf pieces).take (buffer.length - 1))

/-- A NUL in or right behind the string `s`, or outside the array, leaves `s` as it is exactly if it
is right behind it. -/
theorem chars_store_iff {k : ℕ} (hs : 0 ∉ s) (hrest : rest ≠ [])
    (hk : k ≤ s.length ∨ (s ++ rest).length ≤ k) :
    (∃ array, store (s ++ rest) k 0 = .ok array ∧ chars array = .ok s) ↔ k = s.length := by
  constructor
  · rintro ⟨array, hstore, hchars⟩
    have hin : k < (s ++ rest).length := (check_bind_eq_ok.mp hstore).1
    by_contra hne
    have hk' : k < s.length := by omega
    -- the string now ends at `k`
    have hsplit : s ++ rest = s.take k ++ s.get ⟨k, hk'⟩ :: (s.drop (k + 1) ++ rest) := by
      conv_lhs => rw [← List.take_append_drop k s, List.drop_eq_getElem_cons hk']
      rw [List.append_assoc, List.cons_append, List.get_eq_getElem]
    have hlen : (s.take k).length = k := List.length_take_of_le hk'.le
    rw [hsplit, store_append hlen.symm] at hstore
    cases hstore
    rw [chars_append fun hmem => hs (List.mem_of_mem_take hmem), Except.ok.injEq] at hchars
    rw [← hchars, hlen] at hne
    exact hne rfl
  · rintro rfl
    obtain ⟨c, rest, rfl⟩ := List.exists_cons_of_ne_nil hrest
    exact ⟨_, store_append rfl, chars_append hs⟩

/-- **Formatting keeps to the buffer** exactly if the output fits, or is so long that its count has
wrapped round to the last character. -/
theorem vsnprintf_bounded_iff (buffer : List Byte) (pieces : List Piece) (hpos : 0 < buffer.length)
    (hlt : buffer.length < wordMod) :
    Bounded buffer pieces ↔ (outputOf pieces).length < buffer.length ∨
      (outputOf pieces).length % wordMod = buffer.length - 1 := by
  have hlen : ((outputOf pieces).take (buffer.length - 1)).length =
      min (buffer.length - 1) (outputOf pieces).length := List.length_take
  have hzero : 0 ∉ (outputOf pieces).take (buffer.length - 1) :=
    fun hmem => zero_notMem_outputOf pieces (List.mem_of_mem_take hmem)
  have hmod := Nat.mod_le (outputOf pieces).length wordMod
  have hcall : Bounded buffer pieces ↔ ∃ array,
      store ((outputOf pieces).take (buffer.length - 1) ++
        buffer.drop ((outputOf pieces).take (buffer.length - 1)).length)
          ((outputOf pieces).length % wordMod) 0 = .ok array ∧
        chars array = .ok ((outputOf pieces).take (buffer.length - 1)) := by
    simp only [Bounded, vsnprintf_eq pieces hpos hlt, bind_eq_ok, pure_inj,
      Prod.mk.injEq]
    constructor
    · rintro ⟨buffer', ret, ⟨array, hstore, rfl, -⟩, hchars⟩
      exact ⟨array, hstore, hchars⟩
    · rintro ⟨array, hstore, hchars⟩
      exact ⟨array, _, ⟨array, hstore, rfl, rfl⟩, hchars⟩
  rw [hcall, chars_store_iff hzero, hlen]
  · constructor
    · intro heq
      omega
    · rintro (hfit | hwrap)
      · rw [Nat.mod_eq_of_lt (hfit.trans hlt)]
        omega
      · omega
  · rw [Ne, List.drop_eq_nil_iff, hlen]
    omega
  · rw [List.length_append, List.length_drop, hlen]
    omega

/-- `[%s:%04d] `, for a file name and a line number, with its NUL in a buffer of 13. -/
theorem vsnprintf_bounded_log : Bounded (List.replicate 13 0xCC)
    [.literal (ch '[') (by decide) (by decide),
      .string ⟨false, 0, by decide⟩ 0 ⟨[ch 'a', ch '.', ch 'c'], by decide⟩,
      .literal (ch ':') (by decide) (by decide),
      .number ⟨true, 4, by decide⟩ .d (.plain 42),
      .literal (ch ']') (by decide) (by decide),
      .literal (ch ' ') (by decide) (by decide)] := by
  rw [vsnprintf_bounded_iff _ _ (by decide) (by decide)]
  left
  simp [outputOf, Piece.output, NumberConversion.output, Number.toNat, padded, numeral, lowDigits]

/-- Two characters, in a buffer of two. -/
theorem not_vsnprintf_bounded : ¬ ∀ (buffer : List Byte) (pieces : List Piece),
    0 < buffer.length → buffer.length < wordMod → Bounded buffer pieces := by
  intro hall
  obtain ⟨buffer', ret, hok, -⟩ := hall [0xCC, 0xCC]
    [.literal (ch 'a') (by decide) (by decide), .literal (ch 'b') (by decide) (by decide)]
    (by decide) (by decide)
  exact nomatch hok

end Rastapopoulos.Strings
