import Rastapopoulos.Sched.Queues
import Mathlib.Data.List.Nodup

/-!
# No task is lost

The scheduler as a machine whose steps are its own operations, in any order: ticks of the timer
(with the collection of exited tasks), the system calls that move the current task, and the two
functions that wake tasks. Along every run the pids of the tasks that have a place, together with
those of the tasks collected, are a permutation of the pids handed out (`Accounted`). So each task
that has been created and not collected is in exactly one place, once (`Conserved`).
-/

namespace Rastapopoulos.Scheduler

variable {κ : Type} {s s' : Sched κ}

/-- An operation of the scheduler. The contexts are what a child, or a blocked task, resumes
with. -/
inductive Op (κ : Type)
  | tick
  | yield
  | fork (context : κ)
  | exit
  /-- `task_block`, whose last act is `SYSCALL_BLOCK`. -/
  | block (canrecvPort cansendPort timeout : Word) (context : κ)
  /-- `SYSCALL_BLOCK` made by a task itself. -/
  | rawBlock
  | wake (pid : Word)
  | wakeWaiting (portNumber : Word)

/-- One operation. All but the tick are on behalf of a task other than the idle one. -/
def step (s : Sched κ) : Op κ → Except Fault (Sched κ)
  | .tick => irqHandler s
  | .yield => do
    check (s.current.pid ≠ s.idle.pid) .idleCall
    syscallYieldHandler s
  | .fork context => do
    check (s.current.pid ≠ s.idle.pid) .idleCall
    let (s, _) ← syscallForkHandler s context
    return s
  | .exit => do
    check (s.current.pid ≠ s.idle.pid) .idleCall
    syscallExitHandler s
  | .block canrecvPort cansendPort timeout context => do
    check (s.current.pid ≠ s.idle.pid) .idleCall
    taskBlock s canrecvPort cansendPort timeout context
  | .rawBlock => do
    check (s.current.pid ≠ s.idle.pid) .idleCall
    syscallBlockHandler s
  | .wake pid => do
    check (s.current.pid ≠ s.idle.pid) .idleCall
    taskWake s pid
  | .wakeWaiting portNumber => do
    check (s.current.pid ≠ s.idle.pid) .idleCall
    wakeTasksWaitingForPort s portNumber

/-! ## Accounting -/

/-- The first `n` pids. -/
def firstPids (n : ℕ) : List Word := (List.range n).map (BitVec.ofNat 32)

theorem mem_firstPids {n : ℕ} (hn : n ≤ 2 ^ 32) {pid : Word} :
    pid ∈ firstPids n ↔ pid.toNat < n := by
  simp only [firstPids, List.mem_map, List.mem_range]
  constructor
  · rintro ⟨i, hi, rfl⟩
    rwa [BitVec.toNat_ofNat, Nat.mod_eq_of_lt (by omega)]
  · exact fun h => ⟨pid.toNat, h, by simp⟩

theorem firstPids_nodup {n : ℕ} (hn : n ≤ 2 ^ 32) : (firstPids n).Nodup := by
  refine List.Nodup.map_on (fun i hi j hj hij => ?_) List.nodup_range
  rw [List.mem_range] at hi hj
  have := congrArg BitVec.toNat hij
  rwa [BitVec.toNat_ofNat, BitVec.toNat_ofNat, Nat.mod_eq_of_lt (by omega),
    Nat.mod_eq_of_lt (by omega)] at this

theorem firstPids_succ (n : ℕ) : firstPids (n + 1) = firstPids n ++ [BitVec.ofNat 32 n] := by
  simp [firstPids, List.range_succ]

/-- Every pid handed out is that of one task with a place or of one task collected. -/
structure Accounted (s : Sched κ) : Prop where
  perm : (s.places ++ s.collected).Perm (firstPids s.nextPid.toNat)
  nextPid_le : s.nextPid.toNat ≤ 64
  current_idle : s.current.pid = s.idle.pid → s.current = s.idle

theorem Accounted.nodup (h : Accounted s) : (s.places ++ s.collected).Nodup :=
  h.perm.nodup_iff.mpr (firstPids_nodup (by have := h.nextPid_le; omega))

theorem Accounted.distinct (h : Accounted s) : s.Distinct := (List.nodup_append.mp h.nodup).1

/-- The places of everything but the current task, and the tasks collected. -/
def Sched.offCpu (s : Sched κ) : List Word :=
  s.idle.pid :: s.queued.map Task.pid ++ s.collected

/-- A switch to the next task takes it from its queue, or idles. -/
theorem taskSwitchNext_perm (hidle : ∀ t ∈ s.queued, t.pid ≠ s.idle.pid)
    (h : taskSwitchNext s = .ok s') :
    (s'.places ++ s'.collected).Perm s.offCpu ∧ s'.nextPid = s.nextPid ∧
      (s'.current.pid = s'.idle.pid → s'.current = s'.idle) := by
  rcases taskSwitchNext_cases h with ⟨l₁, t, l₂, hs, -, rfl⟩ | ⟨t, ready, hs, rfl⟩ | ⟨-, rfl⟩
  case inr.inr => exact ⟨by simp [Sched.places, Sched.offCpu, Sched.queued], rfl, fun _ => rfl⟩
  all_goals
    have ht := hidle t (by simp [Sched.queued, hs])
    refine ⟨List.perm_iff_count.mpr fun a => ?_, rfl, fun heq => absurd heq ht⟩
    simp only [Sched.places, Sched.offCpu, Sched.queued, hs, if_neg ht, List.count_append,
      List.count_cons, List.map_append, List.map_cons, List.count_nil]
    omega

/-- A switch keeps the accounts when the state it starts from has the same tasks off the CPU as
an accounted state has in all its places. -/
theorem Accounted.switch {s₀ : Sched κ} (h : Accounted s)
    (hperm : s₀.offCpu.Perm (s.places ++ s.collected)) (hnext : s₀.nextPid = s.nextPid)
    (hs : taskSwitchNext s₀ = .ok s') : Accounted s' := by
  have hidle : ∀ t ∈ s₀.queued, t.pid ≠ s₀.idle.pid := by
    intro t ht heq
    have hnd : s₀.offCpu.Nodup := hperm.nodup_iff.mpr h.nodup
    rw [Sched.offCpu, List.cons_append, List.nodup_cons] at hnd
    exact hnd.1 (List.mem_append_left _ (heq ▸ List.mem_map_of_mem ht))
  obtain ⟨hp, hn, hcur⟩ := taskSwitchNext_perm hidle hs
  refine ⟨?_, ?_, hcur⟩
  · rw [hn, hnext]
    exact (hp.trans hperm).trans h.perm
  · rw [hn, hnext]
    exact h.nextPid_le

/-- The current task put at the end of a queue, possibly with a changed record. -/
theorem offCpu_enqueue {c : Task κ} (hne : s.current.pid ≠ s.idle.pid)
    (hc : c.pid = s.current.pid) :
    (Sched.offCpu { s with ready := s.ready ++ [c], current := c }).Perm
        (s.places ++ s.collected) ∧
      (Sched.offCpu { s with sleeping := s.sleeping ++ [c], current := c }).Perm
        (s.places ++ s.collected) ∧
      (Sched.offCpu { s with exited := s.exited ++ [c], current := c }).Perm
        (s.places ++ s.collected) := by
  simp only [List.perm_iff_count, Sched.places, Sched.offCpu, Sched.queued, if_neg hne, hc,
    List.count_append, List.count_cons, List.map_append, List.map_cons, List.count_nil,
    List.map_nil]
  refine ⟨fun a => ?_, fun a => ?_, fun a => ?_⟩ <;> omega

/-- Collecting the exited tasks moves their pids to the collected ones. -/
theorem offCpu_collect (s : Sched κ) :
    (Sched.offCpu { s with collected := s.collected ++ s.exited.map Task.pid, exited := [] }).Perm
      s.offCpu := by
  refine List.perm_iff_count.mpr fun a => ?_
  simp only [Sched.offCpu, Sched.queued, List.count_append, List.count_cons, List.map_append,
    List.append_nil]
  omega

/-! ## One step -/

theorem Accounted.schedulerTimer (h : Accounted s) (hs : schedulerTimer s = .ok s') :
    Accounted s' := by
  simp only [Scheduler.schedulerTimer, bind_eq_ok] at hs
  obtain ⟨_, -, _, -, hs⟩ := hs
  split at hs
  · rename_i hne
    exact h.switch ((offCpu_collect _).trans (offCpu_enqueue hne rfl).1) rfl hs
  · rename_i hne
    rw [not_not] at hne
    refine h.switch ((offCpu_collect _).trans ?_) rfl hs
    simp [Sched.offCpu, Sched.places, Sched.queued, hne]

theorem Accounted.tick (h : Accounted s) (hs : irqHandler s = .ok s') : Accounted s' := by
  unfold irqHandler at hs
  simp only at hs
  split at hs
  · refine Accounted.schedulerTimer (s := _) ?_ hs
    exact ⟨h.perm, h.nextPid_le, h.current_idle⟩
  · cases hs
    exact ⟨h.perm, h.nextPid_le, h.current_idle⟩

theorem Accounted.yield (h : Accounted s) (hne : s.current.pid ≠ s.idle.pid)
    (hs : syscallYieldHandler s = .ok s') : Accounted s' :=
  h.switch (offCpu_enqueue hne rfl).1 rfl hs

theorem Accounted.exit (h : Accounted s) (hne : s.current.pid ≠ s.idle.pid)
    (hs : syscallExitHandler s = .ok s') : Accounted s' :=
  h.switch (offCpu_enqueue hne rfl).2.2 rfl hs

theorem Accounted.rawBlock (h : Accounted s) (hne : s.current.pid ≠ s.idle.pid)
    (hs : syscallBlockHandler s = .ok s') : Accounted s' :=
  h.switch (offCpu_enqueue hne rfl).2.1 rfl hs

theorem Accounted.block (h : Accounted s) (hne : s.current.pid ≠ s.idle.pid)
    {canrecvPort cansendPort timeout : Word} {context : κ}
    (hs : taskBlock s canrecvPort cansendPort timeout context = .ok s') : Accounted s' :=
  h.switch (offCpu_enqueue hne (c := blockedTask s _ _ _ _) rfl).2.1 rfl hs

theorem Accounted.fork (h : Accounted s) {context : κ} {pid : Word}
    (hs : syscallForkHandler s context = .ok (s', pid)) : Accounted s' := by
  simp only [syscallForkHandler, taskCreate, bind_eq_ok, check_eq_ok, pure_inj,
    Prod.mk.injEq] at hs
  obtain ⟨⟨_, _⟩, ⟨_, hlt, rfl, rfl⟩, rfl, rfl⟩ := hs
  have hle := h.nextPid_le
  have hlt' : s.nextPid.toNat < 64 := by
    rw [BitVec.toInt_eq_toNat_of_lt (by omega)] at hlt
    omega
  have hsucc : (s.nextPid + 1).toNat = s.nextPid.toNat + 1 := by
    rw [BitVec.toNat_add]
    show (s.nextPid.toNat + 1) % 2 ^ 32 = _
    omega
  refine ⟨?_, by rw [hsucc]; omega, h.current_idle⟩
  rw [hsucc, firstPids_succ, BitVec.ofNat_toNat, BitVec.setWidth_eq]
  refine List.Perm.trans ?_ (h.perm.append_right _)
  refine List.perm_iff_count.mpr fun a => ?_
  simp only [Sched.places, Sched.queued, List.count_append, List.count_cons, List.map_append,
    List.map_cons, List.count_nil, List.map_nil]
  omega

/-- Permuting the queues keeps the accounts. -/
theorem Accounted.of_places (h : Accounted s) (hp : s'.places.Perm s.places)
    (hc : s'.collected = s.collected) (hn : s'.nextPid = s.nextPid)
    (hcur : s'.current = s.current) (hidle : s'.idle = s.idle) : Accounted s' := by
  refine ⟨?_, hn ▸ h.nextPid_le, by rw [hcur, hidle]; exact h.current_idle⟩
  rw [hc, hn]
  exact (hp.append_right _).trans h.perm

theorem Accounted.wake (h : Accounted s) {pid : Word} (hs : taskWake s pid = .ok s') :
    Accounted s' := by
  rcases taskWake_cases h.distinct hs with ⟨-, rfl⟩ | ⟨l₁, t, l₂, hsl, -, rfl⟩
  · exact h
  · exact h.of_places (places_perm_of_wake hsl) rfl rfl rfl rfl

/-- Waking the waiting tasks splits the sleeping queue between the two queues. -/
theorem Accounted.wakeWaiting (h : Accounted s) {portNumber : Word}
    (hs : wakeTasksWaitingForPort s portNumber = .ok s') : Accounted s' := by
  rw [wakeTasksWaitingForPort_eq h.distinct, Except.ok.injEq] at hs
  subst hs
  refine h.of_places ?_ rfl rfl rfl rfl
  simp only [Sched.places, Sched.queued]
  refine List.Perm.append_left _ (List.Perm.cons _ (List.Perm.map _ (List.Perm.append_right _ ?_)))
  rw [List.append_assoc]
  refine List.Perm.append_left _ ?_
  simpa using List.filter_append_perm (fun t => decide (t.waitCansendPort = portNumber)) s.sleeping

/-- **One step keeps the accounts.** -/
theorem Accounted.step (h : Accounted s) {op : Op κ} (hs : step s op = .ok s') :
    Accounted s' := by
  cases op with
  | tick => exact h.tick hs
  | yield =>
    obtain ⟨hne, hs⟩ := check_bind_eq_ok.mp hs
    exact h.yield hne hs
  | fork context =>
    obtain ⟨-, hs⟩ := check_bind_eq_ok.mp hs
    obtain ⟨⟨s₁, pid⟩, hs, heq⟩ := bind_eq_ok.mp hs
    cases heq
    exact h.fork hs
  | exit =>
    obtain ⟨hne, hs⟩ := check_bind_eq_ok.mp hs
    exact h.exit hne hs
  | block canrecvPort cansendPort timeout context =>
    obtain ⟨hne, hs⟩ := check_bind_eq_ok.mp hs
    exact h.block hne hs
  | rawBlock =>
    obtain ⟨hne, hs⟩ := check_bind_eq_ok.mp hs
    exact h.rawBlock hne hs
  | wake pid =>
    obtain ⟨-, hs⟩ := check_bind_eq_ok.mp hs
    exact h.wake hs
  | wakeWaiting portNumber =>
    obtain ⟨-, hs⟩ := check_bind_eq_ok.mp hs
    exact h.wakeWaiting hs

theorem accounted_schedulerStart (kernelContext idleContext : κ) :
    Accounted (schedulerStart kernelContext idleContext) where
  perm := by
    show List.Perm [(0 : Word), 1] (firstPids 2)
    decide
  nextPid_le := by
    show (2 : Word).toNat ≤ 64
    decide
  current_idle := by
    intro h
    exact absurd (show (0 : Word) = 1 from h) (by decide)

/-! ## Whole runs -/

/-- Where a task can be. -/
inductive Place
  | current
  | idle
  | ready
  | sleeping
  | exited
  deriving DecidableEq

/-- How often the pid occurs in a place. The idle task counts as the idle task also while it
runs. -/
def Sched.occurrences (s : Sched κ) (pid : Word) : Place → ℕ
  | .current => if s.current.pid = pid ∧ s.current.pid ≠ s.idle.pid then 1 else 0
  | .idle => if s.idle.pid = pid then 1 else 0
  | .ready => (s.ready.map Task.pid).count pid
  | .sleeping => (s.sleeping.map Task.pid).count pid
  | .exited => (s.exited.map Task.pid).count pid

/-- `task_create` has handed out the pid. -/
def Sched.Created (s : Sched κ) (pid : Word) : Prop := pid.toNat < s.nextPid.toNat

/-- Every task created and not collected is in exactly one place, once; no other task is in any
place; the idle and the current task are on no queue; and no two tasks share a pid. -/
structure Conserved (s : Sched κ) : Prop where
  one_place : ∀ pid, s.Created pid → pid ∉ s.collected →
    ∃ p, s.occurrences pid p = 1 ∧ ∀ q ≠ p, s.occurrences pid q = 0
  no_place : ∀ pid, ¬ s.Created pid ∨ pid ∈ s.collected → ∀ p, s.occurrences pid p = 0
  idle_not_queued : ∀ t ∈ s.queued, t.pid ≠ s.idle.pid
  current_not_queued : ∀ t ∈ s.queued, t.pid ≠ s.current.pid
  pids_nodup : s.places.Nodup

theorem count_places (s : Sched κ) (pid : Word) :
    s.places.count pid = s.occurrences pid .current + s.occurrences pid .idle +
      s.occurrences pid .ready + s.occurrences pid .sleeping + s.occurrences pid .exited := by
  simp only [Sched.places, Sched.queued, Sched.occurrences, List.count_append, List.count_cons,
    List.map_append]
  by_cases hi : s.current.pid = s.idle.pid
  · simp [hi]
    omega
  · by_cases hc : s.current.pid = pid
    · have hi' : pid ≠ s.idle.pid := hc ▸ hi
      simp [hc, hi']
      omega
    · simp [hi, hc]
      omega

theorem Accounted.conserved (h : Accounted s) : Conserved s := by
  have hn : s.nextPid.toNat ≤ 2 ^ 32 := by have := h.nextPid_le; omega
  have hmem : ∀ pid, s.Created pid ↔ pid ∈ s.places ∨ pid ∈ s.collected := by
    intro pid
    rw [Sched.Created, ← mem_firstPids hn, ← h.perm.mem_iff, List.mem_append]
  have hnodup := List.nodup_append.mp h.nodup
  refine
    { one_place := ?_
      no_place := ?_
      idle_not_queued := fun t ht => h.distinct.ne_idle ht
      current_not_queued := fun t ht => h.distinct.ne_current ht
      pids_nodup := h.distinct }
  · intro pid hcr hcol
    have hcount := List.count_eq_one_of_mem h.distinct (((hmem pid).mp hcr).resolve_right hcol)
    rw [count_places] at hcount
    -- the five numbers sum to one, so one of them is one and the others are zero
    have hcases : ∃ p, s.occurrences pid p = 1 := by
      by_contra hnone
      have hne : ∀ p, s.occurrences pid p ≠ 1 := fun p hp => hnone ⟨p, hp⟩
      have h₁ := hne .current
      have h₂ := hne .idle
      have h₃ := hne .ready
      have h₄ := hne .sleeping
      have h₅ := hne .exited
      omega
    obtain ⟨p, hp⟩ := hcases
    refine ⟨p, hp, fun q hq => ?_⟩
    cases p <;> cases q <;> first | exact absurd rfl hq | omega
  · intro pid hpid p
    have hnot : pid ∉ s.places := by
      rcases hpid with hpid | hpid
      · exact fun hp => hpid ((hmem pid).mpr (.inl hp))
      · exact fun hp => hnodup.2.2 pid hp pid hpid rfl
    have hcount := List.count_eq_zero.mpr hnot
    rw [count_places] at hcount
    cases p <;> omega

/-- **Task conservation.** In every state that the scheduler's operations reach from its start,
every task created and not collected is in exactly one place, exactly once. -/
theorem conserved_of_reach {kernelContext idleContext : κ}
    (h : Reach Scheduler.step (fun _ _ => True) (schedulerStart kernelContext idleContext) s) :
    Conserved s :=
  (h.invariant (accounted_schedulerStart _ _) fun _ _ _ hacc _ hs => hacc.step hs).conserved

/-- The kernel task forks and exits: the child runs, and the kernel task is on the exited queue. -/
theorem conserved_fork_exit : ∃ s : Sched Unit,
    Reach Scheduler.step (fun _ _ => True) (schedulerStart () ()) s ∧
      s.current.pid = 2 ∧ s.occurrences 0 .exited = 1 ∧ Conserved s := by
  have hrun : (do
      let s₁ ← Scheduler.step (schedulerStart () ()) (.fork ())
      let s₂ ← Scheduler.step s₁ .exit
      return (s₂.current.pid, s₂.occurrences 0 .exited) : Except Fault (Word × ℕ))
      = .ok (2, 1) := by decide
  simp only [bind_eq_ok, pure_inj, Prod.mk.injEq] at hrun
  obtain ⟨s₁, h₁, s₂, h₂, hcur, hocc⟩ := hrun
  have hreach : Reach Scheduler.step (fun _ _ => True) (schedulerStart () ()) s₂ :=
    .tail (.tail .refl trivial h₁) trivial h₂
  exact ⟨s₂, hreach, hcur, hocc, conserved_of_reach hreach⟩

end Rastapopoulos.Scheduler
