import Mathlib.Logic.Function.Basic
import Rastapopoulos.Foundations.Bytes
import Rastapopoulos.Foundations.Fallible
import Rastapopoulos.Foundations.Word

/-!
# The stack walk

`backtrace` of `kernel/kdebug.c` follows the saved frame pointers and collects the return addresses
in an array of 255 words. The array is a local variable, so it lies on the stack that is walked, and
a chain of frames may lead through it. A frame pointer is only tested for lying in the page: nothing
bounds the number of frames.

`backtrace_bounded_iff`: the walk keeps to its array exactly if one of the first 256 frame pointers
does not pass the test. A frame that points to itself is enough to make it fail
(`not_bounded_self`).
-/

namespace Rastapopoulos.Kdebug

open Function

abbrev Byte := BitVec 8

inductive Fault
  /-- A store behind the end of `data`. -/
  | overrun
  /-- The loop is not over after the given number of turns. -/
  | running
  deriving DecidableEq, Repr

def pageSize : ℕ := 4096

/-- The 32-bit word at an address. -/
def load (mem : ℕ → Byte) (address : ℕ) : ℕ :=
  (ofLeBytes 32 [mem address, mem (addW address 1), mem (addW address 2),
    mem (addW address 3)]).toNat

def store (mem : ℕ → Byte) (address val : ℕ) : ℕ → Byte :=
  update (update (update (update mem
    address ((BitVec.ofNat 32 val).extractLsb' 0 8))
    (addW address 1) ((BitVec.ofNat 32 val).extractLsb' 8 8))
    (addW address 2) ((BitVec.ofNat 32 val).extractLsb' 16 8))
    (addW address 3) ((BitVec.ofNat 32 val).extractLsb' 24 8)

/-- `struct debug_sym` -/
structure DebugSym where
  start : ℕ
  stop : ℕ
  name : String

def lookupFunction (syms : List DebugSym) (address : ℕ) : Option String :=
  (syms.find? fun sym => sym.start ≤ address ∧ address < sym.stop).map DebugSym.name

/-- What a call of `backtrace` finds: the memory, the two registers, and where its array is. -/
structure Stack where
  mem : ℕ → Byte
  esp : ℕ
  ebp : ℕ
  data : ℕ

namespace Stack

variable (s : Stack)

def stackStart : ℕ := s.esp / pageSize * pageSize

def stackEnd : ℕ := addW s.stackStart pageSize

/-- The test of a frame pointer. -/
def Inside (p : ℕ) : Prop := ¬ (p ≤ s.stackStart ∨ s.stackEnd ≤ addW p 8)

instance : DecidablePred s.Inside := fun _ => inferInstanceAs (Decidable (¬ _))

/-- `&data[index]` -/
def entry (index : ℕ) : ℕ := addW s.data (4 * index)

/-- The variables of the loop. -/
structure Walk where
  mem : ℕ → Byte
  index : ℕ
  ebp : ℕ

/-- `data[index++] = *(ebp + 1)`, before the loop. -/
def first : Walk := ⟨store s.mem (s.entry 0) (load s.mem (addW s.ebp 4)), 1, s.ebp⟩

/-- The end of a turn: `data[index++] = prev_eip` and `ebp = prev_ebp`. -/
def hop (w : Walk) : Walk where
  mem := store w.mem (s.entry w.index) (load w.mem (addW (load w.mem w.ebp) 4))
  index := w.index + 1
  ebp := load w.mem w.ebp

/-- The loop, for at most `fuel` turns. -/
def loop : ℕ → Walk → Except Fault Walk
  | 0, _ => .error .running
  | fuel + 1, w =>
    if ¬ s.Inside w.ebp then .ok w
    else if ¬ s.Inside (load w.mem w.ebp) then .ok w
    else do
      check (w.index < 255) .overrun
      loop fuel (s.hop w)

/-- `backtrace()`, with the loop for at most `fuel` turns: the addresses and the names it shows. -/
def backtrace (syms : List DebugSym) (fuel : ℕ) : Except Fault (List (ℕ × String)) := do
  let w ← s.loop fuel s.first
  return (List.range w.index).map fun i =>
    (load w.mem (s.entry i), (lookupFunction syms (load w.mem (s.entry i))).getD "??")

/-- The walk comes to an end, with at most 255 entries. -/
def Bounded : Prop :=
  ∀ syms, ∃ fuel lines, s.backtrace syms fuel = .ok lines ∧ lines.length ≤ 255

/-- The `n`-th frame pointer of the chain that starts with `ebp`. The return addresses are put into
the array on the way, as it may be part of the chain. -/
def frame (n : ℕ) : ℕ := (s.hop^[n] s.first).ebp

variable {s}

theorem index_hops (n : ℕ) : (s.hop^[n] s.first).index = n + 1 := by
  induction n with
  | zero => rfl
  | succ n ih => rw [Function.iterate_succ_apply', hop, ih]

theorem frame_succ (n : ℕ) :
    s.frame (n + 1) = load (s.hop^[n] s.first).mem (s.hop^[n] s.first).ebp := by
  rw [frame, Function.iterate_succ_apply', hop]

/-- **A turn of the loop**, by the frame pointers that it tests. -/
theorem loop_hops (fuel n : ℕ) : s.loop (fuel + 1) (s.hop^[n] s.first) =
    if ¬ s.Inside (s.frame n) then .ok (s.hop^[n] s.first)
    else if ¬ s.Inside (s.frame (n + 1)) then .ok (s.hop^[n] s.first)
    else if n + 1 < 255 then s.loop fuel (s.hop^[n + 1] s.first) else .error .overrun := by
  rw [frame_succ, Function.iterate_succ_apply', loop, index_hops]
  by_cases hn : n + 1 < 255
  · rw [check_of _ hn, if_pos hn]
    rfl
  · rw [check_of_not _ hn, if_neg hn]
    rfl

/-- The walk ends where a frame pointer does not pass the test, with an entry for each one
before. -/
theorem loop_ends {k n : ℕ} (hn : n + k < 255) (hout : ¬ s.Inside (s.frame (n + k + 1))) :
    ∃ fuel m, m ≤ n + k ∧ s.loop fuel (s.hop^[n] s.first) = .ok (s.hop^[m] s.first) := by
  induction k generalizing n with
  | zero =>
    refine ⟨1, n, le_rfl, ?_⟩
    rw [loop_hops, if_pos hout, ite_self]
  | succ k ih =>
    have hcount : n + 1 + k = n + (k + 1) := by omega
    rw [← hcount] at hn hout
    obtain ⟨fuel, m, hm, hrun⟩ := ih hn hout
    by_cases hebp : s.Inside (s.frame n)
    · by_cases hprev : s.Inside (s.frame (n + 1))
      · refine ⟨fuel + 1, m, by omega, ?_⟩
        rw [loop_hops, if_neg (not_not.mpr hebp), if_neg (not_not.mpr hprev), if_pos (by omega),
          hrun]
      · refine ⟨1, n, by omega, ?_⟩
        rw [loop_hops, if_pos hprev, ite_self]
    · exact ⟨1, n, by omega, by rw [loop_hops, if_pos hebp]⟩

/-- As long as they pass, the walk goes on to the end of the array and beyond. -/
theorem loop_stuck (hin : ∀ n ≤ 255, s.Inside (s.frame n)) (fuel : ℕ) {n : ℕ} (hn : n < 255) :
    ∃ e, s.loop fuel (s.hop^[n] s.first) = .error e := by
  induction fuel generalizing n with
  | zero => exact ⟨_, rfl⟩
  | succ fuel ih =>
    rw [loop_hops, if_neg (not_not.mpr (hin n hn.le)), if_neg (not_not.mpr (hin (n + 1) hn))]
    split
    · rename_i hnext
      exact ih hnext
    · exact ⟨_, rfl⟩

/-- **The walk is bounded** exactly if one of the first 256 frame pointers is not in the page. -/
theorem backtrace_bounded_iff (s : Stack) : s.Bounded ↔ ∃ n ≤ 255, ¬ s.Inside (s.frame n) := by
  constructor
  · intro h
    obtain ⟨fuel, lines, hrun, -⟩ := h []
    by_contra hnone
    have hin : ∀ n ≤ 255, s.Inside (s.frame n) :=
      fun n hn => by_contra fun hout => hnone ⟨n, hn, hout⟩
    obtain ⟨e, hstuck⟩ := loop_stuck hin fuel (by decide : 0 < 255)
    rw [backtrace, ← Function.iterate_zero_apply s.hop s.first, hstuck, error_bind] at hrun
    cases hrun
  · rintro ⟨n, hn, hout⟩ syms
    have hends : ∃ fuel m, m < 255 ∧ s.loop fuel s.first = .ok (s.hop^[m] s.first) := by
      cases n with
      | zero => exact ⟨1, 0, by decide, (loop_hops 0 0).trans (if_pos hout)⟩
      | succ n =>
        rw [← Nat.zero_add n] at hn hout
        obtain ⟨fuel, m, hm, hrun⟩ := loop_ends hn hout
        exact ⟨fuel, m, by omega, hrun⟩
    obtain ⟨fuel, m, hm, hrun⟩ := hends
    refine ⟨fuel, _, by rw [backtrace, hrun, ok_bind, pure_eq_ok], ?_⟩
    rw [List.length_map, List.length_range, index_hops]
    exact hm

end Stack

/-! ## A frame that points to itself -/

/-- A store leaves a word that it does not touch. -/
theorem load_store {mem : ℕ → Byte} {address val p : ℕ} (hp : p + 4 ≤ address)
    (ha : address + 4 ≤ wordMod) : load (store mem address val) p = load mem p := by
  have hbyte : ∀ a < address, store mem address val a = mem a := by
    intro a ha'
    rw [store, addW_of_lt (by omega), addW_of_lt (by omega), addW_of_lt (by omega),
      update_of_ne (by omega), update_of_ne (by omega),
      update_of_ne (by omega), update_of_ne (by omega)]
  rw [load, addW_of_lt (by omega), addW_of_lt (by omega), addW_of_lt (by omega), hbyte _ (by omega),
    hbyte _ (by omega), hbyte _ (by omega), hbyte _ (by omega), load, addW_of_lt (by omega),
    addW_of_lt (by omega), addW_of_lt (by omega)]

/-- The frame pointer `0x1010`, which is stored at that address, and the array from `0x1400` on. -/
def selfStack : Stack where
  mem a := if a = 0x1010 ∨ a = 0x1011 then 0x10 else 0
  esp := 0x1000
  ebp := 0x1010
  data := 0x1400

theorem selfStack_store {mem : ℕ → Byte} {index : ℕ} (val : ℕ) (h : index ≤ 256) :
    load (store mem (selfStack.entry index) val) 0x1010 = load mem 0x1010 := by
  have hentry : selfStack.entry index = 0x1400 + 4 * index :=
    addW_of_lt (show 0x1400 + 4 * index < wordMod by unfold wordMod; omega)
  rw [hentry]
  exact load_store (by omega) (by unfold wordMod; omega)

theorem selfStack_hops {n : ℕ} (hn : n ≤ 255) : selfStack.frame n = 0x1010 ∧
    load (selfStack.hop^[n] selfStack.first).mem 0x1010 = 0x1010 := by
  induction n with
  | zero =>
    refine ⟨rfl, (selfStack_store _ (by omega)).trans ?_⟩
    decide
  | succ n ih =>
    obtain ⟨hframe, hload⟩ := ih (by omega)
    constructor
    · rw [Stack.frame_succ]
      exact (congrArg (load _) hframe).trans hload
    · rw [Function.iterate_succ_apply', Stack.hop, Stack.index_hops]
      exact (selfStack_store _ (by omega)).trans hload

theorem not_bounded_self : ¬ ∀ s : Stack, s.Bounded := by
  intro hall
  obtain ⟨fuel, lines, hrun, -⟩ := hall selfStack []
  have hin : ∀ n ≤ 255, selfStack.Inside (selfStack.frame n) := by
    intro n hn
    rw [(selfStack_hops hn).1]
    decide
  obtain ⟨e, hstuck⟩ := Stack.loop_stuck hin fuel (by decide : 0 < 255)
  rw [Stack.backtrace, ← Function.iterate_zero_apply selfStack.hop selfStack.first, hstuck,
    error_bind] at hrun
  cases hrun

end Rastapopoulos.Kdebug
