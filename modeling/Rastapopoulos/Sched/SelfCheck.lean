import Rastapopoulos.Sched.Queues

/-!
# What the self-check of the scheduler detects

`scheduler_perform_checks` compares the addresses of tasks, and keeps the pids it has met as bits of
a 64-bit word. `BITTEST` and `BITSET` shift an `int`, so a pid and the pid plus 32 share their bits.
The check passes exactly when neither the current nor the idle task is on a queue and the pids on
the queues differ modulo 32 (`TaskQueues.performChecks_iff`). It is right about every state but
those in which two tasks with different pids share their bits
(`TaskQueues.performChecks_iff_sound`).

Elsewhere in this development a task's address is its pid, which no reachable state can tell apart.
There the check is the one of this module (`schedulerPerformChecks_eq`).
-/

namespace Rastapopoulos.Scheduler

/-! ## Bits -/

/-- The bits of a pid: one of the low half, and for 31 the whole high half. -/
theorem getLsbD_pidBit (pid : Word) (i : ℕ) :
    (pidBit pid).getLsbD i = decide (i < 64 ∧ pid.toNat % 32 = min i 31) := by
  rw [pidBit, BitVec.getLsbD_signExtend]
  have hmod : pid.toNat % 32 < 32 := Nat.mod_lt _ (by decide)
  have hshift : ∀ j, ((1 : Word) <<< (pid.toNat % 32)).getLsbD j =
      decide (j < 32 ∧ pid.toNat % 32 = j) := by
    intro j
    rw [show (1 : Word) <<< (pid.toNat % 32) = BitVec.twoPow 32 (pid.toNat % 32) from rfl,
      BitVec.getLsbD_twoPow]
    by_cases hj : pid.toNat % 32 = j
    · subst hj
      simp [hmod]
    · simp [hj]
  rw [BitVec.msb_eq_getLsbD_last, hshift, hshift]
  by_cases hi : i < 32
  · rw [if_pos hi, Nat.min_eq_left (by omega)]
    simp [hi, show i < 64 by omega]
  · rw [if_neg hi, Nat.min_eq_right (by omega)]
    simp

theorem pidBit_and_eq_zero (a b : Word) :
    pidBit a &&& pidBit b = 0 ↔ a.toNat % 32 ≠ b.toNat % 32 := by
  constructor
  · intro hzero heq
    have hmod : a.toNat % 32 < 32 := Nat.mod_lt _ (by decide)
    have hbit := congrArg (fun x => x.getLsbD (a.toNat % 32)) hzero
    simp only [BitVec.getLsbD_and, getLsbD_pidBit] at hbit
    rw [Nat.min_eq_left (by omega), decide_eq_true ⟨by omega, rfl⟩,
      decide_eq_true ⟨by omega, heq.symm⟩] at hbit
    exact absurd hbit (by simp)
  · intro hne
    refine BitVec.eq_of_getLsbD_eq fun i _ => ?_
    rw [BitVec.getLsbD_and, getLsbD_pidBit, getLsbD_pidBit]
    by_cases ha : a.toNat % 32 = min i 31
    · have hb : b.toNat % 32 ≠ min i 31 := ha ▸ hne.symm
      simp [hb]
    · simp [ha]

theorem or_and_eq_zero (x y z : BitVec 64) :
    (x ||| y) &&& z = 0 ↔ x &&& z = 0 ∧ y &&& z = 0 := by
  show (x ||| y) &&& z = 0#64 ↔ x &&& z = 0#64 ∧ y &&& z = 0#64
  rw [BitVec.and_comm, BitVec.and_or_distrib_left, BitVec.or_eq_zero_iff, BitVec.and_comm z x,
    BitVec.and_comm z y]

/-! ## The check -/

/-- What `scheduler_perform_checks` reads: the current task, the idle task, the queues, and the pid
of each task, by the tasks' addresses. -/
structure TaskQueues (Ptr : Type) where
  pid : Ptr → Word
  current : Ptr
  idle : Ptr
  ready : List Ptr
  sleeping : List Ptr
  exited : List Ptr

namespace TaskQueues

variable {Ptr : Type} (q : TaskQueues Ptr)

/-- The tasks on the three queues, in the order in which they are traversed. -/
def queued : List Ptr := q.ready ++ q.sleeping ++ q.exited

/-- The current and the idle task are on no queue. -/
def Apart : Prop := ∀ task ∈ q.queued, task ≠ q.current ∧ task ≠ q.idle

/-- What the check is there for: the current and the idle task are on no queue, and the tasks on the
queues have pairwise distinct pids. -/
def Sound : Prop := q.Apart ∧ (q.queued.map q.pid).Nodup

/-- No two tasks on the queues have pids that are equal modulo 32. -/
def DistinctBits : Prop := (q.queued.map fun task => (q.pid task).toNat % 32).Nodup

theorem DistinctBits.nodup {q : TaskQueues Ptr} (h : q.DistinctBits) :
    (q.queued.map q.pid).Nodup := by
  have : (q.queued.map q.pid).map (fun pid => pid.toNat % 32) =
      q.queued.map fun task => (q.pid task).toNat % 32 := by
    rw [List.map_map]
    rfl
  exact List.Nodup.of_map (fun pid : Word => pid.toNat % 32) (this ▸ h)

variable [DecidableEq Ptr]

/-- One traversal step of `scheduler_perform_checks`. -/
def checkTask (encounteredPids : BitVec 64) (task : Ptr) : Except Fault (BitVec 64) := do
  check (task ≠ q.current ∧ task ≠ q.idle) .selfCheck
  check (encounteredPids &&& pidBit (q.pid task) = 0) .selfCheck
  return encounteredPids ||| pidBit (q.pid task)

/-- `scheduler_perform_checks`. -/
def performChecks : Except Fault Unit := do
  let encounteredPids ← q.ready.foldlM q.checkTask 0
  let encounteredPids ← q.sleeping.foldlM q.checkTask encounteredPids
  let _ ← q.exited.foldlM q.checkTask encounteredPids
  return ()

instance : Decidable q.Apart := inferInstanceAs (Decidable (∀ task ∈ _, _))

instance : Decidable q.Sound := inferInstanceAs (Decidable (_ ∧ _))

/-- The traversal of one queue passes if none of its tasks is the current or the idle one, none has
bits that were met before, and no two share their bits. -/
theorem foldlM_checkTask_iff (l : List Ptr) (seen : BitVec 64) :
    (∃ seen', l.foldlM q.checkTask seen = .ok seen') ↔
      (∀ task ∈ l, (task ≠ q.current ∧ task ≠ q.idle) ∧ seen &&& pidBit (q.pid task) = 0) ∧
        (l.map fun task => (q.pid task).toNat % 32).Nodup := by
  induction l generalizing seen with
  | nil => simp [pure_eq_ok]
  | cons t l ih =>
    by_cases ht : (t ≠ q.current ∧ t ≠ q.idle) ∧ seen &&& pidBit (q.pid t) = 0
    · have hstep : (t :: l).foldlM q.checkTask seen =
          l.foldlM q.checkTask (seen ||| pidBit (q.pid t)) := by
        rw [List.foldlM_cons, checkTask, check_of _ ht.1, check_of _ ht.2]
        rfl
      rw [hstep, ih]
      simp only [or_and_eq_zero, pidBit_and_eq_zero, List.forall_mem_cons, List.map_cons,
        List.nodup_cons, List.mem_map, not_exists, not_and]
      constructor
      · rintro ⟨hall, hnodup⟩
        exact ⟨⟨ht, fun x hx => ⟨(hall x hx).1, (hall x hx).2.1⟩⟩,
          fun x hx heq => (hall x hx).2.2 heq.symm, hnodup⟩
      · rintro ⟨⟨-, hall⟩, hnot, hnodup⟩
        exact ⟨fun x hx => ⟨(hall x hx).1, (hall x hx).2, fun heq => hnot x hx heq.symm⟩, hnodup⟩
    · refine iff_of_false ?_ fun h => ht (h.1 t (.head _))
      rintro ⟨seen', h⟩
      rw [List.foldlM_cons, bind_eq_ok] at h
      obtain ⟨_, h, -⟩ := h
      simp only [checkTask, bind_eq_ok, check_eq_ok] at h
      obtain ⟨-, h₁, -, h₂, -⟩ := h
      exact ht ⟨h₁, h₂⟩

theorem performChecks_eq : q.performChecks = (q.queued.foldlM q.checkTask 0).map fun _ => () := by
  rw [queued, List.foldlM_append, List.foldlM_append, performChecks]
  cases q.ready.foldlM q.checkTask 0 with
  | error => rfl
  | ok seen =>
    simp only [ok_bind]
    cases q.sleeping.foldlM q.checkTask seen with
    | error => rfl
    | ok seen =>
      simp only [ok_bind]
      cases q.exited.foldlM q.checkTask seen <;> rfl

/-- **When the check passes.** -/
theorem performChecks_iff : q.performChecks = .ok () ↔ q.Apart ∧ q.DistinctBits := by
  have h := q.foldlM_checkTask_iff q.queued 0
  simp only [BitVec.ofNat_eq_ofNat, BitVec.zero_and, and_true] at h
  rw [Apart, DistinctBits, ← h, performChecks_eq]
  cases q.queued.foldlM q.checkTask 0 with
  | error => simp [Except.map]
  | ok seen => simp [Except.map]

/-- **What the check is right about.** It never misses a task on a queue where it should not be, nor
a pid that occurs twice. It gives a false alarm exactly when all is well and yet two pids on the
queues are equal modulo 32. -/
theorem performChecks_iff_sound :
    (q.performChecks = .ok () ↔ q.Sound) ↔ (q.Sound → q.DistinctBits) := by
  rw [performChecks_iff]
  constructor
  · exact fun h hsound => (h.mpr hsound).2
  · exact fun h => ⟨fun ⟨hapart, hbits⟩ => ⟨hapart, hbits.nodup⟩, fun hsound => ⟨hsound.1, h hsound⟩⟩

end TaskQueues

/-- Two ready tasks with the pids 2 and 34 raise the alarm. -/
theorem performChecks_false_alarm : ¬ ∀ q : TaskQueues ℕ,
    (∀ task ∈ q.current :: q.idle :: q.queued, (q.pid task).toNat < 64) →
    (q.performChecks = .ok () ↔ q.Sound) := by
  intro hall
  have h := hall ⟨fun task => BitVec.ofNat 32 task, 0, 1, [2, 34], [], []⟩ (by decide)
  exact absurd (h.mpr (by decide)) (by decide)

/-! ## The check in the model of the scheduler -/

variable {κ : Type}

/-- The queues of the model: the address of a task is its pid. -/
def Sched.taskQueues (s : Sched κ) : TaskQueues Word where
  pid := id
  current := s.current.pid
  idle := s.idle.pid
  ready := s.ready.map Task.pid
  sleeping := s.sleeping.map Task.pid
  exited := s.exited.map Task.pid

theorem schedulerPerformChecks_eq (s : Sched κ) :
    schedulerPerformChecks s = s.taskQueues.performChecks := by
  have hfold : ∀ (l : List (Task κ)) (seen : BitVec 64),
      (l.map Task.pid).foldlM s.taskQueues.checkTask seen = l.foldlM (checkTask s) seen :=
    fun l seen => List.foldlM_map ..
  simp only [schedulerPerformChecks, TaskQueues.performChecks, ← hfold]
  rfl

end Rastapopoulos.Scheduler
