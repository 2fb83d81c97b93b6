import Rastapopoulos.Foundations.Keyed
import Rastapopoulos.Vfs.Requests

/-!
# The descriptors of the processes

What a sequence of `open` and `close` requests leaves in the tables, in terms of the sequence alone:
the numbers that a process was given are `0, 1, 2, …` in this order, and a number is found exactly
if the process opened it and has not closed it since, with the file of that `open` (`Logged`). A
request changes nothing of another process.
-/

namespace Rastapopoulos.Vfs

/-! ## Histories -/

/-- What has happened: a file was opened under a number, or a number was closed. -/
inductive Event (File : Type)
  | opened (pid fd : Word) (hfile : File)
  | closed (pid fd : Word)
  deriving DecidableEq

/-- The process that made the request. -/
def Event.pid {File : Type} : Event File → Word
  | .opened pid _ _ => pid
  | .closed pid _ => pid

variable {File : Type} {log : List (Event File)} {event : Event File} {s s' : Tables File}
  {pi pi' : ProcInfo File} {desc : Descriptor File} {pid other fd : Word} {hfile : File}

/-- An `open` that succeeds, or a `close`. -/
inductive Step (s : Tables File) : Event File → Tables File → Prop
  | opened {fOpen : FOpen File} {taskInfo : Bool} {blocks : ℕ} {pid : Word}
      {filename : Strings.CString} {openMode createPerms fd : Word} {s' : Tables File} :
      handleVfsOpen fOpen taskInfo blocks s pid filename openMode createPerms = .ok (fd, s') →
      (fOpen filename).1 = .ok → Step s (.opened pid fd (fOpen filename).2) s'
  | closed {pid fd retcode : Word} {s' : Tables File} :
      handleVfsClose s pid fd = .ok (retcode, s') → Step s (.closed pid fd) s'

/-- The tables after a history that starts with empty ones. -/
inductive Runs : List (Event File) → Tables File → Prop
  | empty : Runs [] Tables.empty
  | step {log : List (Event File)} {event : Event File} {s s' : Tables File} :
      Runs log s → Step s event s' → Runs (log ++ [event]) s'

/-- The numbers that a process was given, the first one first. -/
def handed (log : List (Event File)) (pid : Word) : List Word :=
  log.filterMap fun
    | .opened pid' fd _ => if pid' = pid then some fd else none
    | .closed _ _ => none

/-- The process opened the file under this number and has not closed it since. -/
def Holds (log : List (Event File)) (pid fd : Word) (hfile : File) : Prop :=
  ∃ before after, log = before ++ .opened pid fd hfile :: after ∧ .closed pid fd ∉ after

/-- The tables are what the history says. -/
structure Exact (log : List (Event File)) (s : Tables File) : Prop where
  unique : ∀ pid, (s.procInfos.filter fun pi => pi.pid = pid).length ≤ 1
  increasing : ∀ pid, ((handed log pid).map BitVec.toInt).Pairwise (· < ·)
  lookup : ∀ pid, pid ≠ invalidPid → ∃ found, procinfoGet s pid = .ok found ∧ ∀ fd hfile,
    (∃ pi desc, found = some pi ∧ descriptorGet pi fd = some desc ∧ desc.hfile = hfile) ↔
      Holds log pid fd hfile

theorem handed_append (log : List (Event File)) (event : Event File) (pid : Word) :
    handed (log ++ [event]) pid = handed log pid ++ handed [event] pid := List.filterMap_append

theorem holds_append : Holds (log ++ [event]) pid fd hfile ↔
    event = .opened pid fd hfile ∨ Holds log pid fd hfile ∧ event ≠ .closed pid fd := by
  constructor
  · rintro ⟨before, after, heq, hclosed⟩
    rcases List.eq_nil_or_concat after with rfl | ⟨after, last, rfl⟩
    · exact .inl (List.append_inj_right' heq rfl |> List.singleton_inj.mp)
    · rw [List.concat_eq_append, ← List.cons_append, ← List.append_assoc] at heq
      obtain ⟨hlog, hlast⟩ := List.append_inj' heq rfl
      rw [List.singleton_inj] at hlast
      rw [List.concat_eq_append, List.mem_append, not_or, List.mem_singleton] at hclosed
      exact .inr ⟨⟨before, after, hlog, hclosed.1⟩, fun h => hclosed.2 (h ▸ hlast)⟩
  · rintro (rfl | ⟨⟨before, after, rfl, hclosed⟩, hne⟩)
    · exact ⟨log, [], rfl, List.not_mem_nil⟩
    · refine ⟨before, after ++ [event], by simp, ?_⟩
      rw [List.mem_append, not_or, List.mem_singleton]
      exact ⟨hclosed, hne.symm⟩

/-! ## The tables, process by process -/

theorem find_put (s : Tables File) (pi : ProcInfo File) (other : Word) :
    (s.put pi).find other =
      (s.find other).map fun pi' => if other = pi.pid then pi else pi' := by
  have hpid : ∀ pi' : ProcInfo File, (if pi'.pid = pi.pid then pi else pi').pid = pi'.pid := by
    intro pi'
    split
    · rename_i h
      exact h.symm
    · rfl
  rw [Tables.find, Tables.put, List.find?_map]
  have hcomp : ((fun pi' : ProcInfo File => decide (pi'.pid = other)) ∘
      fun pi' => if pi'.pid = pi.pid then pi else pi') = fun pi' => decide (pi'.pid = other) :=
    funext fun pi' => by rw [Function.comp_apply, hpid]
  rw [hcomp]
  refine Option.map_congr fun pi' hpi' => ?_
  rw [(find_eq_some hpi').2]

theorem find_put_of_ne (h : other ≠ pi.pid) : (s.put pi).find other = s.find other := by
  rw [find_put]
  simp only [if_neg h, Option.map_id']

theorem find_put_self (h : s.find pid = some pi') (hpid : pi.pid = pid) :
    (s.put pi).find pid = some pi := by
  rw [find_put, h, Option.map_some, if_pos hpid.symm]

theorem find_append (s : Tables File) (pid other : Word) :
    (⟨s.procInfos ++ [⟨pid, 0, []⟩]⟩ : Tables File).find other =
      (s.find other).or (if pid = other then some ⟨pid, 0, []⟩ else none) := by
  rw [Tables.find, List.find?_append, List.find?_singleton]
  simp only [decide_eq_true_eq]
  rfl

/-- The entry of a sender, in tables that differ at most by that entry. -/
theorem find_senderInfo {blocks blocks' : ℕ} {s₁ : Tables File}
    (h : senderInfo s pid blocks = .ok (pi, s₁, blocks')) :
    s₁.find pid = some pi ∧ pi = ⟨pid, s.nextFd pid, s.descriptors pid⟩ ∧
      ∀ other, other ≠ pid → s₁.find other = s.find other := by
  obtain ⟨-, ⟨hfind, rfl, -⟩ | ⟨hfind, -, rfl, rfl, -⟩⟩ := senderInfo_eq_ok.mp h
  · refine ⟨hfind, ?_, fun _ _ => rfl⟩
    rw [Tables.nextFd, Tables.descriptors, hfind, Option.map_some, Option.getD_some,
      Option.map_some, Option.getD_some, ← (find_eq_some hfind).2]
  · refine ⟨?_, ?_, fun other hne => ?_⟩
    · rw [find_append, hfind, if_pos rfl]
      rfl
    · rw [Tables.nextFd, Tables.descriptors, hfind]
      rfl
    · rw [find_append, if_neg (Ne.symm hne), Option.or_none]

/-- **An `open`**: the next number, with the file, and the counter moves. -/
theorem find_of_opened (h : Step s (.opened pid fd hfile) s') :
    fd = s.nextFd pid ∧ (s.nextFd pid).toNat < 2 ^ 31 ∧
      (∃ mode, s'.find pid =
        some ⟨pid, s.nextFd pid + 1, s.descriptors pid ++ [⟨fd, 0, mode, hfile⟩]⟩) ∧
      ∀ other, other ≠ pid → s'.find other = s.find other := by
  cases h with
  | opened hopen hres =>
    obtain ⟨pi, s₁, blocks', pi', hinfo, hfn, rfl⟩ := handleVfsOpen_eq_ok.mp hopen
    obtain ⟨hfind, rfl, hothers⟩ := find_senderInfo hinfo
    obtain ⟨-, ⟨hne, -⟩ | ⟨-, hcreate⟩⟩ := openFn_eq_ok.mp hfn
    · exact absurd hres hne
    · obtain ⟨-, hlt, rfl, rfl⟩ := descriptorCreate_eq_ok.mp hcreate
      refine ⟨rfl, hlt, ⟨_, find_put_self hfind rfl⟩, fun other hne => ?_⟩
      rw [find_put_of_ne hne, hothers other hne]

/-- **A `close`**: the descriptor is taken out. -/
theorem find_of_closed (h : Step s (.closed pid fd) s') :
    (∃ pi desc, s.find pid = some pi ∧ descriptorGet pi fd = some desc ∧
      s'.find pid = some (descriptorDestroy pi desc)) ∧
      ∀ other, other ≠ pid → s'.find other = s.find other := by
  cases h with
  | closed hclose =>
    obtain ⟨-, pi, desc, hfind, hget, -, rfl⟩ := handleVfsClose_eq_ok.mp hclose
    have hpid : (descriptorDestroy pi desc).pid = pid := (find_eq_some hfind).2
    refine ⟨⟨pi, desc, hfind, hget, find_put_self hfind hpid⟩, fun other hne => ?_⟩
    exact find_put_of_ne (hpid ▸ hne)

/-- **Isolation**: a request changes nothing of another process. -/
theorem find_of_step (h : Step s event s') (hne : other ≠ event.pid) :
    s'.find other = s.find other := by
  cases event with
  | opened pid fd hfile => exact (find_of_opened h).2.2.2 other hne
  | closed pid fd => exact (find_of_closed h).2 other hne

theorem Step.inv (h : Step s event s') (hs : s.Inv) : s'.Inv := by
  cases h with
  | @opened fOpen taskInfo blocks pid filename mode perms fd s' hopen hres =>
    have hstep : step s (.vfsOpen fOpen taskInfo blocks pid filename mode perms) = .ok s' :=
      bind_eq_ok.mpr ⟨_, hopen, rfl⟩
    exact step_inv hs hstep
  | @closed pid fd retcode s' hclose =>
    have hstep : step s (.vfsClose pid fd) = .ok s' := bind_eq_ok.mpr ⟨_, hclose, rfl⟩
    exact step_inv hs hstep

/-! ## Histories and tables -/

/-- The numbers handed out are those below the counter, and the descriptors are those that are
open. -/
structure Logged (log : List (Event File)) (s : Tables File) : Prop where
  inv : s.Inv
  handed : ∀ pid, handed log pid = (List.range (s.nextFd pid).toNat).map (BitVec.ofNat 32)
  holds : ∀ pid fd hfile,
    (∃ desc ∈ s.descriptors pid, desc.fd = fd ∧ desc.hfile = hfile) ↔ Holds log pid fd hfile

theorem nextFd_of_find (h : s.find pid = some pi) : s.nextFd pid = pi.nextFd := by
  rw [Tables.nextFd, h, Option.map_some, Option.getD_some]

theorem descriptors_of_find (h : s.find pid = some pi) : s.descriptors pid = pi.descriptors := by
  rw [Tables.descriptors, h, Option.map_some, Option.getD_some]

theorem nextFd_congr (h : s'.find pid = s.find pid) : s'.nextFd pid = s.nextFd pid := by
  rw [Tables.nextFd, h, Tables.nextFd]

theorem descriptors_congr (h : s'.find pid = s.find pid) :
    s'.descriptors pid = s.descriptors pid := by
  rw [Tables.descriptors, h, Tables.descriptors]

theorem Tables.Inv.of_find (h : s.Inv) (hfind : s.find pid = some pi) : pi.Inv :=
  h.procInfos pi (find_eq_some hfind).1

theorem Tables.Inv.nextFd_le (h : s.Inv) (pid : Word) : (s.nextFd pid).toNat ≤ 2 ^ 31 := by
  rw [Tables.nextFd]
  cases hfind : s.find pid with
  | none => exact Nat.zero_le _
  | some pi => exact (h.of_find hfind).nextFd

/-- A descriptor is found by its number. -/
theorem ProcInfo.Inv.descriptorGet_iff (h : pi.Inv) :
    descriptorGet pi fd = some desc ↔ desc ∈ pi.descriptors ∧ desc.fd = fd :=
  find?_key_iff h.nodup

/-- What is left when the descriptor of a number is taken out. -/
theorem ProcInfo.Inv.mem_destroy (h : pi.Inv) (hget : descriptorGet pi fd = some desc)
    (desc' : Descriptor File) :
    desc' ∈ (descriptorDestroy pi desc).descriptors ↔ desc' ∈ pi.descriptors ∧ desc'.fd ≠ fd := by
  rw [descriptorDestroy, (descriptorGet_eq_some hget).2]
  exact mem_eraseP_key h.nodup

theorem Logged.opened (h : Logged log s) (hstep : Step s (.opened pid fd hfile) s') :
    Logged (log ++ [.opened pid fd hfile]) s' := by
  obtain ⟨rfl, hlt, ⟨mode, hfind⟩, hothers⟩ := find_of_opened hstep
  refine ⟨hstep.inv h.inv, fun pid' => ?_, fun pid' fd' hfile' => ?_⟩
  · rw [handed_append, h.handed]
    by_cases hpid : pid = pid'
    · subst hpid
      have hnext : (s.nextFd pid + 1).toNat = (s.nextFd pid).toNat + 1 := by
        rw [BitVec.toNat_add]
        exact Nat.mod_eq_of_lt (by simp; omega)
      rw [nextFd_of_find hfind, hnext, List.range_succ, List.map_append, List.map_singleton,
        BitVec.ofNat_toNat, BitVec.setWidth_eq]
      simp [Vfs.handed]
    · rw [nextFd_congr (hothers pid' (Ne.symm hpid))]
      simp [Vfs.handed, hpid]
  · rw [holds_append, ← h.holds, and_iff_left (by simp)]
    by_cases hpid : pid = pid'
    · subst hpid
      rw [descriptors_of_find hfind]
      simp only [List.mem_append, List.mem_singleton, or_and_right, exists_or, exists_eq_left,
        Event.opened.injEq, true_and]
      rw [or_comm]
    · rw [descriptors_congr (hothers pid' (Ne.symm hpid)), or_iff_right]
      simp [hpid]

theorem Logged.closed (h : Logged log s) (hstep : Step s (.closed pid fd) s') :
    Logged (log ++ [.closed pid fd]) s' := by
  obtain ⟨⟨pi, desc, hfind, hget, hfind'⟩, hothers⟩ := find_of_closed hstep
  refine ⟨hstep.inv h.inv, fun pid' => ?_, fun pid' fd' hfile' => ?_⟩
  · rw [handed_append, h.handed]
    have hsame : s'.nextFd pid' = s.nextFd pid' := by
      by_cases hpid : pid' = pid
      · rw [hpid, nextFd_of_find hfind', nextFd_of_find hfind, descriptorDestroy]
      · exact nextFd_congr (hothers pid' hpid)
    rw [hsame]
    exact List.append_nil _
  · rw [holds_append, ← h.holds]
    by_cases hpid : pid = pid'
    · subst hpid
      rw [descriptors_of_find hfind', descriptors_of_find hfind]
      simp only [(h.inv.of_find hfind).mem_destroy hget, reduceCtorEq, false_or, ne_eq,
        Event.closed.injEq, true_and]
      constructor
      · rintro ⟨desc', ⟨hmem, hne⟩, rfl, rfl⟩
        exact ⟨⟨desc', hmem, rfl, rfl⟩, Ne.symm hne⟩
      · rintro ⟨⟨desc', hmem, rfl, rfl⟩, hne⟩
        exact ⟨desc', ⟨hmem, Ne.symm hne⟩, rfl, rfl⟩
    · rw [descriptors_congr (hothers pid' (Ne.symm hpid))]
      simp [hpid]

theorem logged_of_runs (h : Runs log s) : Logged log s := by
  induction h with
  | empty =>
    refine ⟨⟨List.nodup_nil, by simp [Tables.empty]⟩, fun pid => rfl, fun pid fd hfile => ?_⟩
    refine iff_of_false ?_ ?_
    · rintro ⟨desc, hmem, -⟩
      exact List.not_mem_nil hmem
    · rintro ⟨before, after, heq, -⟩
      exact List.append_ne_nil_of_right_ne_nil before (List.cons_ne_nil _ _) heq.symm
  | @step log event s s' _ hstep ih =>
    cases event with
    | opened pid fd hfile => exact ih.opened hstep
    | closed pid fd => exact ih.closed hstep

/-- Numbers below a counter that has not gone beyond `2 ^ 31` are in order as signed numbers. -/
theorem pairwise_range {n : ℕ} (hn : n ≤ 2 ^ 31) :
    (((List.range n).map (BitVec.ofNat 32)).map BitVec.toInt).Pairwise (· < ·) := by
  have hsigned : ∀ i < n, (BitVec.ofNat 32 i).toInt = i := by
    intro i hi
    have hnat : (BitVec.ofNat 32 i).toNat = i := by
      rw [BitVec.toNat_ofNat]
      exact Nat.mod_eq_of_lt (by omega)
    rw [BitVec.toInt_eq_toNat_of_lt (by rw [hnat]; omega), hnat]
  rw [List.map_map, List.pairwise_map]
  refine List.pairwise_lt_range.imp_of_mem fun {i j} hi hj hlt => ?_
  rw [Function.comp_apply, Function.comp_apply, hsigned i (List.mem_range.mp hi),
    hsigned j (List.mem_range.mp hj)]
  exact Int.ofNat_lt.mpr hlt

theorem Logged.toExact (h : Logged log s) : Exact log s := by
  refine ⟨fun pid => ?_, fun pid => ?_, fun pid hpid => ?_⟩
  · have hcount := List.nodup_iff_count_le_one.mp h.inv.nodup pid
    rwa [List.count, List.countP_map, List.countP_eq_length_filter] at hcount
  · rw [h.handed]
    exact pairwise_range (h.inv.nextFd_le pid)
  · refine ⟨s.find pid, procinfoGet_eq_ok.mpr ⟨hpid, rfl⟩, fun fd hfile => ?_⟩
    rw [← h.holds]
    cases hfind : s.find pid with
    | none => simp [Tables.descriptors, hfind]
    | some pi =>
      rw [descriptors_of_find hfind]
      simp only [Option.some.injEq, exists_and_left, exists_eq_left',
        (h.inv.of_find hfind).descriptorGet_iff, and_assoc]

/-- **Descriptors belong to their process and are not reused.** -/
theorem descriptors_exact (h : Runs log s) : Exact log s ∧
    ∀ event s', Step s event s' → ∀ other, other ≠ event.pid → s'.find other = s.find other :=
  ⟨(logged_of_runs h).toExact, fun _ _ hstep _ hne => find_of_step hstep hne⟩

/-- A file opened by the process 1 and closed again, and one opened by each of the processes 1 and
2, with the numbers of the files as their contents. -/
theorem descriptors_exact_two : Exact
    [.opened 1 0 7, .opened 2 0 8, .opened 1 1 9, .closed 1 0]
    ⟨[⟨1, 2, [⟨1, 0, 1, 9⟩]⟩, ⟨2, 1, [⟨0, 0, 1, 8⟩]⟩]⟩ := by
  have hopen : ∀ {s s' : Tables ℕ} {pid fd : Word} (hfile : ℕ),
      handleVfsOpen (fun _ => (.ok, hfile)) false 2 s pid ⟨[], by decide⟩ 1 0 = .ok (fd, s') →
      Step s (.opened pid fd hfile) s' := fun hfile h => .opened h rfl
  have hrun : Runs ([] ++ [.opened 1 0 7] ++ [.opened 2 0 8] ++ [.opened 1 1 9] ++ [.closed 1 0])
      ⟨[⟨1, 2, [⟨1, 0, 1, 9⟩]⟩, ⟨2, 1, [⟨0, 0, 1, 8⟩]⟩]⟩ :=
    .step (.step (.step (.step .empty (hopen 7 rfl)) (hopen 8 rfl)) (hopen 9 rfl)) (.closed rfl)
  exact (descriptors_exact hrun).1

/-- The histories go on: with fewer than `2 ^ 31` opened files, a process can open another one, and
gets their number. -/
theorem exists_opened (h : Runs log s) (hpid : pid ≠ invalidPid)
    (hcount : (handed log pid).length < 2 ^ 31) (hfile : File) :
    ∃ s', Step s (.opened pid (BitVec.ofNat 32 (handed log pid).length) hfile) s' := by
  have hlen : (handed log pid).length = (s.nextFd pid).toNat := by
    rw [(logged_of_runs h).handed, List.length_map, List.length_range]
  have hblocks : blocksNeeded s pid .ok ≤ 2 := by
    unfold blocksNeeded
    split <;> simp
  obtain ⟨⟨fd, s'⟩, hopen⟩ := (exists_handleVfsOpen (fun _ => (.ok, hfile)) false 2
    ⟨[], List.not_mem_nil⟩ oRdonly 0).mpr ⟨rfl, hpid, hblocks, fun _ => hlen ▸ hcount⟩
  have hstep : Step s (.opened pid fd hfile) s' := .opened hopen rfl
  have hfd : fd = BitVec.ofNat 32 (handed log pid).length := by
    rw [(find_of_opened hstep).1, hlen, BitVec.ofNat_toNat, BitVec.setWidth_eq]
  exact ⟨s', hfd ▸ hstep⟩

end Rastapopoulos.Vfs
