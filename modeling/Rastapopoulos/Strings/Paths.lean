import Mathlib.Data.List.DropRight
import Rastapopoulos.Strings.Numerals

/-!
# File names in the log

`__log` of the kernel and of the runtime strip the path from a file name by the same code, which
looks for a `/` from the end of the name backwards. `basename` of `common/string.c` looks for it from
the start. Without a `/` the first one comes to the byte in front of the name and decides on what it
finds there (`stripPath_bare`), so the two agree on the names with a `/` (`log_agrees_iff`).
-/

namespace Rastapopoulos.Strings

/-! ## The functions -/

/-- `*p`. The addresses that are read are kept, the last one first. -/
def readAt (array : List Byte) (p : ℤ) : StateT (List ℤ) (Except Fault) Byte := fun reads =>
  if 0 ≤ p then do return (← load array p.toNat, p :: reads) else .error .overrun

/-- The loop of `__log`, with `basename` at `file + n - 1`. -/
def stripLoop (array : List Byte) (file : ℕ) : ℕ → StateT (List ℤ) (Except Fault) ℤ
  | 0 => return file - 1
  | n + 1 => do
    if (← readAt array (file + n)) = ch '/' then return file + n
    else stripLoop array file n

/-- The tests behind the loop. -/
def stripTests (array : List Byte) (file : ℕ) (basename : ℤ) :
    StateT (List ℤ) (Except Fault) ℤ := do
  if (← readAt array basename) = ch '/' then return basename + 1
  else if (← readAt array basename) = 0 then return file
  else return basename

/-- `basename` of `__log`. The reads of `strlen` are those of the name, and are not kept. -/
def stripPath (array : List Byte) (file : ℕ) : StateT (List ℤ) (Except Fault) ℤ := do
  let basename ← stripLoop array file ((← strlen array file) + 1)
  stripTests array file basename

/-- The loop of `basename`, on the characters from `filename` on. -/
def basenameLoop (result : ℕ) : List Byte → ℕ → Except Fault ℕ
  | [], _ => .error .overrun
  | c :: s, filename =>
    if c = 0 then .ok result
    else basenameLoop (if c = ch '/' then filename else result) s (filename + 1)

def basename (array : List Byte) (filename : ℕ) : Except Fault ℕ := do
  let result ← basenameLoop filename (array.drop filename) filename
  if (← load array result) = ch '/' then return result + 1 else return result

/-! ## Names -/

/-- Memory with a name in it, at `before.length`. -/
def placed (before name after : List Byte) : List Byte := before ++ (name ++ 0 :: after)

/-- What is behind the last `/`, or all of the name. -/
def lastPart (s : List Byte) : List Byte := s.rtakeWhile (· ≠ ch '/')

section Scans

variable {before after dir base s t : List Byte} {c : Byte} {array : List Byte} {file n : ℕ}
  {reads : List ℤ}

theorem notMem_lastPart : ch '/' ∉ lastPart s := by
  intro h
  simpa using List.mem_rtakeWhile_imp h

/-- A name with a `/` is split at the last one. -/
theorem exists_dir (h : ch '/' ∈ s) : ∃ dir, s = dir ++ ch '/' :: lastPart s := by
  induction s using List.reverseRecOn with
  | nil => cases h
  | append_singleton s c ih =>
    by_cases hc : c = ch '/'
    · refine ⟨s, ?_⟩
      rw [lastPart, List.rtakeWhile_concat_neg _ _ _ (by simp [hc]), hc]
    · obtain ⟨dir, hdir⟩ := ih (by simpa [Ne.symm hc] using h)
      refine ⟨dir, ?_⟩
      rw [lastPart, List.rtakeWhile_concat_pos _ _ _ (by simp [hc]), ← List.cons_append,
        ← List.append_assoc]
      exact congrArg (· ++ [c]) hdir

/-! ## Scanning -/

theorem bind_of_ok {α β : Type} {x : StateT (List ℤ) (Except Fault) α} {a : α} {reads' : List ℤ}
    (h : x reads = .ok (a, reads')) (f : α → StateT (List ℤ) (Except Fault) β) :
    (x >>= f) reads = f a reads' := by
  change (x reads >>= fun r => f r.1 r.2) = _
  rw [h]
  rfl

theorem slash_notMem_concat (hs : ch '/' ∉ s) : ch '/' ∉ s ++ [0] := by
  rw [List.mem_append, List.mem_singleton, not_or]
  exact ⟨hs, by decide⟩

theorem readAt_append : readAt (before ++ c :: after) before.length reads =
    .ok (c, (before.length : ℤ) :: reads) := by
  rw [readAt, if_pos (Int.natCast_nonneg _), Int.toNat_natCast, load_append rfl]
  rfl

/-- The loop of `__log` passes over characters other than `/`. -/
theorem stripLoop_append (before s after : List Byte) (hs : ch '/' ∉ s)
    (hn : before.length = file + n) (hreads : ∀ r ∈ reads, (file : ℤ) ≤ r) :
    ∃ reads', (∀ r ∈ reads', (file : ℤ) ≤ r) ∧
      stripLoop (before ++ (s ++ after)) file (n + s.length) reads =
        stripLoop (before ++ (s ++ after)) file n reads' := by
  induction s using List.reverseRecOn generalizing after reads with
  | nil => exact ⟨reads, hreads, rfl⟩
  | append_singleton s c ih =>
    simp only [List.mem_append, List.mem_singleton, not_or] at hs
    have hlen : ((before ++ s).length : ℤ) = file + (n + s.length : ℕ) := by
      rw [List.length_append, hn]
      push_cast
      omega
    have hread : readAt (before ++ (s ++ [c] ++ after)) (file + (n + s.length : ℕ)) reads =
        .ok (c, (file + (n + s.length : ℕ) : ℤ) :: reads) := by
      rw [← hlen, List.append_assoc, ← List.append_assoc before]
      exact readAt_append
    have hnext : ∀ r ∈ (file + (n + s.length : ℕ) : ℤ) :: reads, (file : ℤ) ≤ r :=
      List.forall_mem_cons.mpr ⟨by omega, hreads⟩
    obtain ⟨reads', hreads', hloop⟩ := ih ([c] ++ after) hs.1 hnext
    refine ⟨reads', hreads', ?_⟩
    rw [List.append_assoc] at hread ⊢
    rw [List.length_append, List.length_singleton, ← Nat.add_assoc, stripLoop, bind_of_ok hread,
      if_neg (Ne.symm hs.2), hloop]

/-- The loop of `basename` keeps its result over them. -/
theorem basenameLoop_append (hs : 0 ∉ s) (t : List Byte) (result filename : ℕ) :
    ∃ result', (ch '/' ∉ s → result' = result) ∧
      basenameLoop result (s ++ t) filename = basenameLoop result' t (filename + s.length) := by
  induction s generalizing result filename with
  | nil => exact ⟨result, fun _ => rfl, rfl⟩
  | cons c s ih =>
    simp only [List.mem_cons, not_or] at hs
    obtain ⟨result', hresult, hloop⟩ := ih hs.2 (if c = ch '/' then filename else result)
      (filename + 1)
    refine ⟨result', fun hslash => ?_, ?_⟩
    · simp only [List.mem_cons, not_or] at hslash
      rw [hresult hslash.2, if_neg (Ne.symm hslash.1)]
    · rw [List.cons_append, basenameLoop, if_neg (Ne.symm hs.1), hloop, List.length_cons]
      congr 1
      omega

end Scans

/-! ## Names with a slash, and without -/

section Names

variable {before after dir base name : List Byte} {c : Byte} {p : ℤ} {reads : List ℤ}

theorem drop_placed : (placed before name after).drop before.length = name ++ 0 :: after :=
  List.drop_left

theorem placed_slash : placed before (dir ++ ch '/' :: base) after =
    (before ++ dir) ++ ch '/' :: (base ++ 0 :: after) := by
  simp [placed]

/-- `basename` stops behind the last `/`. -/
theorem basename_slash (before after : List Byte) (hdir : 0 ∉ dir) (hbase : 0 ∉ base) (hslash : ch '/' ∉ base) :
    basename (placed before (dir ++ ch '/' :: base) after) before.length =
      .ok (before.length + (dir.length + 1)) := by
  obtain ⟨r₁, -, h₁⟩ := basenameLoop_append hdir (ch '/' :: (base ++ 0 :: after)) before.length
    before.length
  obtain ⟨r₂, hr₂, h₂⟩ := basenameLoop_append hbase (0 :: after) (before.length + dir.length)
    (before.length + dir.length + 1)
  have hloop : basenameLoop before.length (dir ++ ch '/' :: base ++ 0 :: after) before.length =
      .ok (before.length + dir.length) := by
    rw [List.append_assoc, List.cons_append, h₁, basenameLoop, if_neg (by decide), if_pos rfl, h₂,
      basenameLoop, if_pos rfl, hr₂ hslash]
  have hload : load (placed before (dir ++ ch '/' :: base) after) (before.length + dir.length) =
      .ok (ch '/') := by
    rw [placed_slash]
    exact load_append (List.length_append).symm
  rw [basename, drop_placed, hloop, ok_bind, hload, ok_bind, if_pos rfl]
  rfl

theorem stripPath_of_loop (hname : 0 ∉ name)
    (hloop : stripLoop (placed before name after) before.length (name.length + 1) [] =
      .ok (p, reads)) :
    stripPath (placed before name after) before.length [] =
      stripTests (placed before name after) before.length p reads := by
  have hlen : (liftM (strlen (placed before name after) before.length) :
      StateT (List ℤ) (Except Fault) ℕ) [] = .ok (name.length, []) := by
    rw [placed, strlen_append hname]
    rfl
  rw [stripPath, bind_of_ok hlen, bind_of_ok hloop]

/-- The tests of the byte `c`. -/
theorem stripTests_eq {array : List Byte} {file : ℕ}
    (hread : ∀ reads, readAt array p reads = .ok (c, p :: reads)) (reads : List ℤ) :
    stripTests array file p reads = .ok (if c = ch '/' then (p + 1, p :: reads) else
      (if c = 0 then (file : ℤ) else p, p :: p :: reads)) := by
  rw [stripTests, bind_of_ok (hread _)]
  by_cases hc : c = ch '/'
  · rw [if_pos hc, if_pos hc]
    rfl
  · rw [if_neg hc, if_neg hc, bind_of_ok (hread _)]
    by_cases hzero : c = 0
    · rw [if_pos hzero, if_pos hzero]
      rfl
    · rw [if_neg hzero, if_neg hzero]
      rfl

/-- So does `__log`. -/
theorem stripPath_slash (before after : List Byte) (hdir : 0 ∉ dir) (hbase : 0 ∉ base) (hslash : ch '/' ∉ base) :
    ∃ reads, (∀ r ∈ reads, (before.length : ℤ) ≤ r) ∧
      stripPath (placed before (dir ++ ch '/' :: base) after) before.length [] =
        .ok ((before.length + (dir.length + 1) : ℕ), reads) := by
  have harray : placed before (dir ++ ch '/' :: base) after =
      (before ++ dir ++ [ch '/']) ++ ((base ++ [0]) ++ after) := by simp [placed]
  have hstart : (before ++ dir ++ [ch '/']).length = before.length + (dir.length + 1) := by simp
  obtain ⟨reads, hreads, hloop⟩ := stripLoop_append (before ++ dir ++ [ch '/']) (base ++ [0]) after
    (slash_notMem_concat hslash) hstart (List.forall_mem_nil _)
  rw [← harray] at hloop
  have hread : ∀ reads, readAt (placed before (dir ++ ch '/' :: base) after)
      (before.length + dir.length : ℤ) reads =
        .ok (ch '/', (before.length + dir.length : ℤ) :: reads) := by
    intro reads
    rw [placed_slash, ← Nat.cast_add, ← List.length_append]
    exact readAt_append
  have hstop : stripLoop (placed before (dir ++ ch '/' :: base) after) before.length
      ((dir ++ ch '/' :: base).length + 1) [] =
        .ok (before.length + dir.length, (before.length + dir.length : ℤ) :: reads) := by
    have hlen : (dir ++ ch '/' :: base).length + 1 = dir.length + 1 + (base ++ [0]).length := by
      simp
      omega
    rw [hlen, hloop, stripLoop, bind_of_ok (hread _), if_pos rfl]
    rfl
  have hname : 0 ∉ dir ++ ch '/' :: base := by
    rw [List.mem_append, List.mem_cons, not_or, not_or]
    exact ⟨hdir, by decide, hbase⟩
  refine ⟨_, ?_, (stripPath_of_loop hname hstop).trans (stripTests_eq hread _)⟩
  intro r hr
  rcases List.mem_cons.mp hr with rfl | hr
  · omega
  rcases List.mem_cons.mp hr with rfl | hr
  · omega
  · exact hreads r hr

/-- Without a `/` the loop goes on to the byte in front of the name. -/
theorem stripLoop_bare (before after : List Byte) (hslash : ch '/' ∉ name) :
    ∃ reads, stripLoop (placed before name after) before.length (name.length + 1) [] =
      .ok (before.length - 1, reads) := by
  obtain ⟨reads, -, hloop⟩ := stripLoop_append before (name ++ [0]) after
    (slash_notMem_concat hslash) (Nat.add_zero before.length).symm (List.forall_mem_nil _)
  have hname : before ++ (name ++ [0] ++ after) = placed before name after := by simp [placed]
  rw [hname, Nat.zero_add, List.length_append] at hloop
  exact ⟨reads, hloop⟩

/-- `__log` reads this byte, and starts there unless it is a `/` or a NUL. -/
theorem stripPath_bare (before after : List Byte) (c : Byte) (hname : 0 ∉ name) (hslash : ch '/' ∉ name) :
    ∃ reads, (before.length : ℤ) ∈ reads ∧
      stripPath (placed (before ++ [c]) name after) (before ++ [c]).length [] =
        .ok (if c = ch '/' ∨ c = 0 then before.length + 1 else before.length, reads) := by
  obtain ⟨reads, hloop⟩ := stripLoop_bare (before ++ [c]) after hslash
  have hlen : ((before ++ [c]).length : ℤ) = before.length + 1 := by simp
  rw [hlen, Int.add_sub_cancel] at hloop
  have hread : ∀ reads, readAt (placed (before ++ [c]) name after) before.length reads =
      .ok (c, (before.length : ℤ) :: reads) := by
    intro reads
    rw [placed, List.append_assoc]
    exact readAt_append
  rw [stripPath_of_loop hname hloop, stripTests_eq hread, hlen]
  by_cases hc : c = ch '/'
  · exact ⟨_, .head _, by rw [if_pos hc, if_pos (.inl hc)]⟩
  · refine ⟨before.length :: before.length :: reads, .head _, ?_⟩
    simp only [hc, if_false, false_or]

/-- At the start of memory there is no such byte. -/
theorem stripPath_start (hname : 0 ∉ name) (hslash : ch '/' ∉ name) :
    stripPath (placed [] name after) ([] : List Byte).length [] = .error .overrun := by
  obtain ⟨reads, hloop⟩ := stripLoop_bare [] after hslash
  rw [stripPath_of_loop hname hloop]
  rfl

end Names

/-! ## The two compared -/

/-- `__log` prints what is behind the last `/` of the name, which is also what `basename` returns,
and reads nothing in front of it. -/
def LogAgrees (before after : List Byte) (name : CString) : Prop :=
  let array := placed before name.chars after
  ∃ p q reads, stripPath array before.length [] = .ok (Int.ofNat p, reads) ∧
    basename array before.length = .ok q ∧ chars (array.drop p) = .ok (lastPart name.chars) ∧
    chars (array.drop q) = .ok (lastPart name.chars) ∧ ∀ r ∈ reads, (before.length : ℤ) ≤ r

/-- **`__log` agrees with `basename`** on the names with a `/`, and on no other. -/
theorem log_agrees_iff (before after : List Byte) (name : CString) :
    LogAgrees before after name ↔ ch '/' ∈ name.chars := by
  constructor
  · rintro ⟨p, q, reads, hstrip, -, -, -, hreads⟩
    by_contra hslash
    rcases List.eq_nil_or_concat before with rfl | ⟨front, c, rfl⟩
    · cases hstrip.symm.trans (stripPath_start name.nonzero hslash)
    · rw [List.concat_eq_append] at *
      obtain ⟨reads', hmem, hbare⟩ := stripPath_bare front after c name.nonzero hslash
      obtain rfl : reads = reads' := congrArg Prod.snd (Except.ok.inj (hstrip.symm.trans hbare))
      have hle := hreads _ hmem
      rw [List.length_append, List.length_singleton] at hle
      omega
  · intro hslash
    obtain ⟨dir, hname⟩ := exists_dir hslash
    have hzero := name.nonzero
    rw [hname, List.mem_append, List.mem_cons, not_or, not_or] at hzero
    obtain ⟨hdir, -, hbase⟩ := hzero
    obtain ⟨reads, hreads, hstrip⟩ := stripPath_slash before after hdir hbase notMem_lastPart
    have hdrop : chars ((placed before name.chars after).drop
        (before.length + (dir.length + 1))) = .ok (lastPart name.chars) := by
      have hsplit : name.chars ++ 0 :: after =
          (dir ++ [ch '/']) ++ (lastPart name.chars ++ 0 :: after) := by
        conv_lhs => rw [hname]
        simp
      rw [placed, List.drop_length_add_append, hsplit, List.drop_left' (by simp)]
      exact chars_append hbase
    rw [← hname] at hstrip
    refine ⟨_, _, reads, hstrip, ?_, hdrop, hdrop, hreads⟩
    have hbasename := basename_slash before after hdir hbase notMem_lastPart
    rwa [← hname] at hbasename

/-- The name `a.c`, behind an `x`. -/
theorem not_log_agrees : ¬ LogAgrees [ch 'x'] [] ⟨[ch 'a', ch '.', ch 'c'], by decide⟩ := by
  rintro ⟨p, q, reads, hstrip, -, hprinted, -, -⟩
  have hstart : stripPath [ch 'x', ch 'a', ch '.', ch 'c', 0] 1 [] =
      .ok (Int.ofNat 0, [0, 0, 1, 2, 3, 4]) := rfl
  cases hstrip.symm.trans hstart
  exact absurd hprinted (by decide)

end Rastapopoulos.Strings
