import Rastapopoulos.Sched.Basic

/-!
# What the scheduler's functions do to its queues

One lemma for each function, from which everything else about it is derived: a switch takes the
first sleeping task that is due, or the first ready task, or the idle task
(`taskSwitchNext_cases`); a wake-up moves a task from the sleeping to the ready queue or changes
nothing (`taskWake_cases`); waking the tasks that wait for a port moves all of them, in order
(`wakeTasksWaitingForPort_eq`). The last two need that no pid occurs twice.
-/

namespace Rastapopoulos.Scheduler

variable {κ : Type} {s s' : Sched κ}

/-- The first element with a property and the rest of the list without it. -/
theorem find?_eraseP {α : Type} {p : α → Bool} {l : List α} {a : α} (h : l.find? p = some a) :
    ∃ l₁ l₂, l = l₁ ++ a :: l₂ ∧ l.eraseP p = l₁ ++ l₂ ∧ p a = true ∧
      ∀ b ∈ l₁, p b = false := by
  obtain ⟨ha, l₁, l₂, rfl, hl₁⟩ := List.find?_eq_some_iff_append.mp h
  have hl₁' : ∀ b ∈ l₁, p b = false := fun b hb => by simpa using hl₁ b hb
  refine ⟨l₁, l₂, rfl, ?_, ha, hl₁'⟩
  rw [List.eraseP_append_right _ (fun b hb => by simp [hl₁' b hb]), List.eraseP_cons_of_pos ha]

/-! ## The self-checks -/

/-- The tasks on the three queues. -/
def Sched.queued (s : Sched κ) : List (Task κ) := s.ready ++ s.sleeping ++ s.exited

theorem foldlM_checkTask {seen seen' : BitVec 64} {l : List (Task κ)}
    (h : l.foldlM (checkTask s) seen = .ok seen') :
    ∀ t ∈ l, t.pid ≠ s.current.pid ∧ t.pid ≠ s.idle.pid := by
  induction l generalizing seen with
  | nil => simp
  | cons x l ih =>
    rw [List.foldlM_cons, bind_eq_ok] at h
    obtain ⟨a, hx, hl⟩ := h
    rw [checkTask, bind_eq_ok] at hx
    obtain ⟨_, hx, -⟩ := hx
    rw [check_eq_ok] at hx
    exact List.forall_mem_cons.mpr ⟨hx, ih hl⟩

/-- The checks pass only if neither the current nor the idle task is on a queue. -/
theorem schedulerPerformChecks_eq_ok {u : Unit} (h : schedulerPerformChecks s = .ok u) :
    ∀ t ∈ s.queued, t.pid ≠ s.current.pid ∧ t.pid ≠ s.idle.pid := by
  simp only [schedulerPerformChecks, bind_eq_ok] at h
  obtain ⟨_, h₁, _, h₂, _, h₃, -⟩ := h
  intro t ht
  rcases List.mem_append.mp ht with ht | ht
  · rcases List.mem_append.mp ht with ht | ht
    · exact foldlM_checkTask h₁ t ht
    · exact foldlM_checkTask h₂ t ht
  · exact foldlM_checkTask h₃ t ht

variable {t : Task κ} {pid portNumber : Word} {context : κ}

theorem taskSwitch_eq_ok (h : taskSwitch s t = .ok s') :
    s' = { s with current := t } ∧
      ∀ x ∈ s.queued, x.pid ≠ t.pid ∧ x.pid ≠ s.idle.pid := by
  simp only [taskSwitch, bind_eq_ok, pure_inj] at h
  obtain ⟨_, hcheck, rfl⟩ := h
  exact ⟨rfl, schedulerPerformChecks_eq_ok hcheck⟩

/-- **The next task**: the first sleeping task that is due, else the first ready task, else the
idle task. -/
theorem taskSwitchNext_cases (h : taskSwitchNext s = .ok s') :
    (∃ l₁ t l₂, s.sleeping = l₁ ++ t :: l₂ ∧ due s.timestamp t = true ∧
        s' = { s with current := t, sleeping := l₁ ++ l₂ }) ∨
      (∃ t ready, s.ready = t :: ready ∧ s' = { s with current := t, ready := ready }) ∨
      (s.ready = [] ∧ s' = { s with current := s.idle }) := by
  unfold taskSwitchNext at h
  split at h
  · rename_i t hfind
    obtain ⟨l₁, l₂, hs, he, hdue, -⟩ := find?_eraseP hfind
    rw [he] at h
    exact .inl ⟨l₁, t, l₂, hs, hdue, (taskSwitch_eq_ok h).1⟩
  · split at h
    · rename_i t ready hready
      exact .inr (.inl ⟨t, ready, hready, (taskSwitch_eq_ok h).1⟩)
    · rename_i hready
      exact .inr (.inr ⟨hready, (taskSwitch_eq_ok h).1⟩)

/-! ## Places -/

/-- The pids of all tasks that have a place: the current task, the idle task (the same one when
the machine idles), and the three queues. -/
def Sched.places (s : Sched κ) : List Word :=
  (if s.current.pid = s.idle.pid then [] else [s.current.pid]) ++
    s.idle.pid :: s.queued.map Task.pid

/-- No pid occurs twice. -/
def Sched.Distinct (s : Sched κ) : Prop := s.places.Nodup

theorem Sched.Distinct.queued_nodup (h : s.Distinct) : (s.queued.map Task.pid).Nodup :=
  (List.nodup_cons.mp (List.nodup_append.mp h).2.1).2

theorem Sched.Distinct.ne_idle (h : s.Distinct) (ht : t ∈ s.queued) :
    t.pid ≠ s.idle.pid := by
  intro heq
  exact (List.nodup_cons.mp (List.nodup_append.mp h).2.1).1 (heq ▸ List.mem_map_of_mem ht)

theorem Sched.Distinct.ne_current (h : s.Distinct) (ht : t ∈ s.queued) :
    t.pid ≠ s.current.pid := by
  by_cases hc : s.current.pid = s.idle.pid
  · rw [hc]
    exact h.ne_idle ht
  · rw [Sched.Distinct, Sched.places, if_neg hc] at h
    have := (List.nodup_append.mp h).2.2 s.current.pid (by simp) t.pid
      (.tail _ (List.mem_map_of_mem ht))
    exact this.symm

/-! ## Wake-ups -/

section Wake

variable {l₁ l₂ : List (Task κ)} {t : Task κ} {pid : Word}

theorem find?_pid_of_nodup (hn : ((l₁ ++ t :: l₂).map Task.pid).Nodup) :
    (l₁ ++ t :: l₂).find? (·.pid = t.pid) = some t ∧
      (l₁ ++ t :: l₂).eraseP (·.pid = t.pid) = l₁ ++ l₂ := by
  have hl₁ : ∀ x ∈ l₁, x.pid ≠ t.pid := by
    intro x hx
    rw [List.map_append, List.nodup_append] at hn
    exact hn.2.2 x.pid (List.mem_map_of_mem hx) t.pid (by simp)
  constructor
  · rw [List.find?_append, List.find?_eq_none.mpr (by simpa using hl₁)]
    simp
  · rw [List.eraseP_append_right _ (by simpa using hl₁), List.eraseP_cons_of_pos (by simp)]

theorem Sched.Distinct.sleeping_nodup (h : s.Distinct) : (s.sleeping.map Task.pid).Nodup := by
  have := h.queued_nodup
  simp only [Sched.queued, List.map_append, List.nodup_append] at this
  exact this.1.2.1

theorem Sched.Distinct.ready_ne_sleeping (h : s.Distinct) {x y : Task κ} (hx : x ∈ s.ready)
    (hy : y ∈ s.sleeping) : x.pid ≠ y.pid := by
  have := h.queued_nodup
  simp only [Sched.queued, List.map_append, List.nodup_append] at this
  exact this.1.2.2 x.pid (List.mem_map_of_mem hx) y.pid (List.mem_map_of_mem hy)

/-- Waking a sleeping task moves it to the end of the ready queue. -/
theorem taskWake_of_sleeping (hd : s.Distinct) (hs : s.sleeping = l₁ ++ t :: l₂) :
    taskWake s t.pid = .ok { s with sleeping := l₁ ++ l₂, ready := s.ready ++ [t] } := by
  have ht : t ∈ s.sleeping := by simp [hs]
  have htq : t ∈ s.queued := by simp [Sched.queued, ht]
  obtain ⟨hfind, herase⟩ := find?_pid_of_nodup (hs ▸ hd.sleeping_nodup)
  have hready : s.ready.find? (·.pid = t.pid) = none :=
    List.find?_eq_none.mpr fun x hx => by simpa using hd.ready_ne_sleeping hx ht
  have hget : taskGet s t.pid = some t := by
    rw [taskGet, if_neg (hd.ne_idle htq), if_neg (hd.ne_current htq), hready, hs, hfind]
    rfl
  have hany : (l₁ ++ t :: l₂).any (·.pid = t.pid) = true := by simp
  simp only [taskWake, hget, hs, hany, if_true, herase]

/-- The tasks that `task_wake` finds and leaves where they are. -/
def Sched.Awake (s : Sched κ) (pid : Word) : Prop :=
  pid = s.idle.pid ∨ pid = s.current.pid ∨ ∃ t ∈ s.ready, t.pid = pid

/-- Waking a task that is not asleep changes nothing. -/
theorem taskWake_of_awake (hd : s.Distinct) (ha : s.Awake pid) : taskWake s pid = .ok s := by
  have hsleep : ∀ x ∈ s.sleeping, x.pid ≠ pid := by
    intro x hx heq
    have hxq : x ∈ s.queued := by simp [Sched.queued, hx]
    rcases ha with rfl | rfl | ⟨t, ht, rfl⟩
    · exact hd.ne_idle hxq heq
    · exact hd.ne_current hxq heq
    · exact hd.ready_ne_sleeping ht hx heq.symm
  have hany : s.sleeping.any (·.pid = pid) = false := by simpa using hsleep
  unfold taskWake
  split
  · rename_i hget
    unfold taskGet at hget
    rcases ha with h | h | ⟨t, ht, h⟩
    · simp [h] at hget
    · subst h
      split_ifs at hget with h₁ h₂
      exact absurd rfl h₂
    · split_ifs at hget
      rw [Option.or_eq_none_iff] at hget
      exact absurd h (by simpa using List.find?_eq_none.mp hget.1 t ht)
  · rename_i t hget
    have htpid : t.pid = pid := by
      unfold taskGet at hget
      split_ifs at hget with h₁ h₂
      · cases hget
        exact h₁.symm
      · cases hget
        exact h₂.symm
      · rcases Option.or_eq_some_iff.mp hget with h | ⟨-, h⟩ <;> simpa using List.find?_some h
    rw [htpid, hany]
    rcases ha with h | h | ⟨t, ht, h⟩
    · simp [h]
    · simp [h]
    · have : s.ready.any (·.pid = pid) = true := List.any_eq_true.mpr ⟨t, ht, by simpa using h⟩
      simp [this]

/-- Waking a task that is neither asleep nor awake trips the assertion. -/
theorem taskWake_of_unknown (ha : ¬ s.Awake pid) (hs : ∀ t ∈ s.sleeping, t.pid ≠ pid) :
    taskWake s pid = .error .wakeUnknown := by
  simp only [Sched.Awake, not_or, not_exists, not_and] at ha
  have h₁ : s.ready.find? (·.pid = pid) = none :=
    List.find?_eq_none.mpr fun x hx => by simpa using ha.2.2 x hx
  have h₂ : s.sleeping.find? (·.pid = pid) = none :=
    List.find?_eq_none.mpr fun x hx => by simpa using hs x hx
  rw [taskWake, taskGet, if_neg ha.1, if_neg ha.2.1, h₁, h₂]
  rfl

/-- **A wake-up** that succeeds leaves everything as it is or moves the task from the sleeping to
the ready queue. -/
theorem taskWake_cases (hd : s.Distinct) (h : taskWake s pid = .ok s') :
    (s.Awake pid ∧ s' = s) ∨
      ∃ l₁ t l₂, s.sleeping = l₁ ++ t :: l₂ ∧ t.pid = pid ∧
        s' = { s with sleeping := l₁ ++ l₂, ready := s.ready ++ [t] } := by
  by_cases ha : s.Awake pid
  · rw [taskWake_of_awake hd ha] at h
    cases h
    exact .inl ⟨ha, rfl⟩
  · by_cases hs : ∃ t ∈ s.sleeping, t.pid = pid
    · obtain ⟨t, ht, rfl⟩ := hs
      obtain ⟨l₁, l₂, hs⟩ := List.append_of_mem ht
      rw [taskWake_of_sleeping hd hs] at h
      cases h
      exact .inr ⟨l₁, t, l₂, hs, rfl, rfl⟩
    · rw [taskWake_of_unknown ha (by simpa using hs)] at h
      exact nomatch h

/-- Moving a task from the sleeping to the ready queue permutes the places. -/
theorem places_perm_of_wake (hs : s.sleeping = l₁ ++ t :: l₂) :
    Sched.places { s with sleeping := l₁ ++ l₂, ready := s.ready ++ [t] } |>.Perm s.places := by
  simp only [Sched.places, Sched.queued, hs]
  refine List.Perm.append_left _ (List.Perm.cons _ (List.Perm.map _ ?_))
  refine List.Perm.append_right _ ?_
  rw [List.append_assoc]
  refine List.Perm.append_left _ ?_
  rw [List.singleton_append]
  exact List.perm_middle.symm

theorem taskWake_timestamp (hd : s.Distinct) (h : taskWake s pid = .ok s') :
    s'.timestamp = s.timestamp := by
  rcases taskWake_cases hd h with ⟨-, rfl⟩ | ⟨l₁, t, l₂, -, -, rfl⟩ <;> rfl

theorem foldlM_wake_eq (portNumber : Word) {kept l : List (Task κ)} (hd : s.Distinct)
    (hs : s.sleeping = kept ++ l) :
    l.foldlM (fun s task => if task.waitCansendPort = portNumber then taskWake s task.pid
        else .ok s) s
      = .ok { s with
          sleeping := kept ++ l.filter (·.waitCansendPort ≠ portNumber)
          ready := s.ready ++ l.filter (·.waitCansendPort = portNumber) } := by
  induction l generalizing s kept with
  | nil => simp [← hs]
  | cons t l ih =>
    rw [List.foldlM_cons]
    by_cases ht : t.waitCansendPort = portNumber
    · rw [if_pos ht, taskWake_of_sleeping hd hs, ok_bind, ih
        ((places_perm_of_wake hs).nodup_iff.mpr hd) rfl]
      simp [ht]
    · rw [if_neg ht, ok_bind, ih hd (show s.sleeping = (kept ++ [t]) ++ l by simpa using hs)]
      simp [ht]

/-- **Waking the tasks that wait for a port** moves exactly these to the ready queue. -/
theorem wakeTasksWaitingForPort_eq (hd : s.Distinct) (portNumber : Word) :
    wakeTasksWaitingForPort s portNumber = .ok { s with
      sleeping := s.sleeping.filter (·.waitCansendPort ≠ portNumber)
      ready := s.ready ++ s.sleeping.filter (·.waitCansendPort = portNumber) } := by
  rw [wakeTasksWaitingForPort, foldlM_wake_eq portNumber hd (List.nil_append _).symm]
  rfl

theorem wakeTasksWaitingForPort_timestamp (hd : s.Distinct)
    (h : wakeTasksWaitingForPort s portNumber = .ok s') : s'.timestamp = s.timestamp := by
  rw [wakeTasksWaitingForPort_eq hd, Except.ok.injEq] at h
  rw [← h]

end Wake

/-! ## Which tasks there are after a step

No function of the scheduler makes up a record: apart from a child and from the blocked task, every
task after it is a task from before. -/

/-- All tasks. -/
def Sched.all (s : Sched κ) : List (Task κ) := s.current :: s.idle :: s.queued

theorem taskSwitchNext_all (h : taskSwitchNext s = .ok s') :
    s'.idle = s.idle ∧ s'.nextPid = s.nextPid ∧ ∀ t ∈ s'.all, t ∈ s.idle :: s.queued := by
  rcases taskSwitchNext_cases h with ⟨l₁, t, l₂, hs, -, rfl⟩ | ⟨t, ready, hs, rfl⟩ | ⟨-, rfl⟩
  · refine ⟨rfl, rfl, fun x hx => ?_⟩
    simp only [Sched.all, Sched.queued, hs, List.mem_cons, List.mem_append] at hx ⊢
    tauto
  · refine ⟨rfl, rfl, fun x hx => ?_⟩
    simp only [Sched.all, Sched.queued, hs, List.mem_cons, List.mem_append] at hx ⊢
    tauto
  · refine ⟨rfl, rfl, fun x hx => ?_⟩
    simp only [Sched.all, List.mem_cons] at hx ⊢
    tauto

theorem taskBlock_all {canrecvPort cansendPort timeout : Word}
    (h : taskBlock s canrecvPort cansendPort timeout context = .ok s') :
    s'.idle = s.idle ∧ s'.nextPid = s.nextPid ∧ ∀ t ∈ s'.all,
      t ∈ s.all ∨ t = blockedTask s canrecvPort cansendPort timeout context := by
  obtain ⟨hidle, hnext, hall⟩ := taskSwitchNext_all h
  refine ⟨hidle, hnext, fun t ht => ?_⟩
  have := hall t ht
  simp only [Sched.all, Sched.queued, List.mem_cons, List.mem_append, List.not_mem_nil,
    or_false] at this ⊢
  tauto

theorem syscallYieldHandler_all (h : syscallYieldHandler s = .ok s') :
    s'.idle = s.idle ∧ s'.nextPid = s.nextPid ∧ ∀ t ∈ s'.all, t ∈ s.all := by
  obtain ⟨hidle, hnext, hall⟩ := taskSwitchNext_all h
  refine ⟨hidle, hnext, fun t ht => ?_⟩
  have := hall t ht
  simp only [Sched.all, Sched.queued, List.mem_cons, List.mem_append, List.not_mem_nil,
    or_false] at this ⊢
  tauto

theorem syscallExitHandler_all (h : syscallExitHandler s = .ok s') :
    s'.idle = s.idle ∧ s'.nextPid = s.nextPid ∧ ∀ t ∈ s'.all, t ∈ s.all := by
  obtain ⟨hidle, hnext, hall⟩ := taskSwitchNext_all h
  refine ⟨hidle, hnext, fun t ht => ?_⟩
  have := hall t ht
  simp only [Sched.all, Sched.queued, List.mem_cons, List.mem_append, List.not_mem_nil,
    or_false] at this ⊢
  tauto

theorem irqHandler_all (h : irqHandler s = .ok s') :
    s'.idle = s.idle ∧ s'.nextPid = s.nextPid ∧ ∀ t ∈ s'.all, t ∈ s.all := by
  unfold irqHandler at h
  simp only at h
  split at h
  · simp only [schedulerTimer, bind_eq_ok] at h
    obtain ⟨_, -, _, -, h⟩ := h
    obtain ⟨hidle, hnext, hall⟩ := taskSwitchNext_all h
    refine ⟨by rw [hidle]; split <;> rfl, by rw [hnext]; split <;> rfl, fun t ht => ?_⟩
    have := hall t ht
    split at this <;>
    · simp only [Sched.all, Sched.queued, List.mem_cons, List.mem_append, List.not_mem_nil,
        or_false] at this ⊢
      tauto
  · cases h
    exact ⟨rfl, rfl, fun t ht => ht⟩

theorem taskWake_all (hd : s.Distinct) (h : taskWake s pid = .ok s') :
    s'.idle = s.idle ∧ s'.current = s.current ∧ s'.nextPid = s.nextPid ∧ ∀ t ∈ s'.all, t ∈ s.all := by
  rcases taskWake_cases hd h with ⟨-, rfl⟩ | ⟨l₁, t, l₂, hs, -, rfl⟩
  · exact ⟨rfl, rfl, rfl, fun t ht => ht⟩
  · refine ⟨rfl, rfl, rfl, fun x hx => ?_⟩
    simp only [Sched.all, Sched.queued, hs, List.mem_cons, List.mem_append, List.not_mem_nil,
      or_false] at hx ⊢
    tauto

theorem wakeTasksWaitingForPort_all (hd : s.Distinct)
    (h : wakeTasksWaitingForPort s portNumber = .ok s') :
    s'.idle = s.idle ∧ s'.current = s.current ∧ s'.nextPid = s.nextPid ∧ ∀ t ∈ s'.all, t ∈ s.all := by
  rw [wakeTasksWaitingForPort_eq hd, Except.ok.injEq] at h
  subst h
  refine ⟨rfl, rfl, rfl, fun x hx => ?_⟩
  simp only [Sched.all, Sched.queued, List.mem_cons, List.mem_append, List.mem_filter] at hx ⊢
  tauto

/-! ## Who is asleep -/

theorem taskSwitchNext_sleeping (h : taskSwitchNext s = .ok s') :
    ∀ t ∈ s'.sleeping, t ∈ s.sleeping := by
  rcases taskSwitchNext_cases h with ⟨l₁, t, l₂, hs, -, rfl⟩ | ⟨t, ready, -, rfl⟩ | ⟨-, rfl⟩
  · intro x hx
    rw [hs, List.mem_append, List.mem_cons]
    exact (List.mem_append.mp hx).imp id .inr
  · exact fun _ hx => hx
  · exact fun _ hx => hx

theorem taskBlock_sleeping {canrecvPort cansendPort timeout : Word}
    (h : taskBlock s canrecvPort cansendPort timeout context = .ok s') : ∀ t ∈ s'.sleeping,
      t ∈ s.sleeping ∨ t = blockedTask s canrecvPort cansendPort timeout context := by
  intro t ht
  exact (List.mem_append.mp (taskSwitchNext_sleeping h t ht)).imp id List.mem_singleton.mp

theorem irqHandler_sleeping (h : irqHandler s = .ok s') : ∀ t ∈ s'.sleeping, t ∈ s.sleeping := by
  unfold irqHandler at h
  simp only at h
  split at h
  · simp only [schedulerTimer, bind_eq_ok] at h
    obtain ⟨_, -, _, -, h⟩ := h
    intro t ht
    have hold := taskSwitchNext_sleeping h t ht
    split at hold <;> exact hold
  · cases h
    exact fun _ ht => ht

/-- A task that is woken is not asleep. -/
theorem taskWake_sleeping (hd : s.Distinct) (h : taskWake s pid = .ok s') :
    ∀ t ∈ s'.sleeping, t ∈ s.sleeping ∧ t.pid ≠ pid := by
  rcases taskWake_cases hd h with ⟨hawake, rfl⟩ | ⟨l₁, t, l₂, hs, hpid, rfl⟩
  · refine fun t ht => ⟨ht, ?_⟩
    rintro rfl
    have hq : t ∈ s'.queued := by simp [Sched.queued, ht]
    rcases hawake with heq | heq | ⟨x, hx, heq⟩
    · exact hd.ne_idle hq heq
    · exact hd.ne_current hq heq
    · exact hd.ready_ne_sleeping hx ht heq
  · intro x hx
    have hnodup := hd.sleeping_nodup
    rw [hs, List.map_append, List.map_cons, List.nodup_middle, List.nodup_cons] at hnodup
    refine ⟨?_, fun heq => hnodup.1 ?_⟩
    · rw [hs, List.mem_append, List.mem_cons]
      exact (List.mem_append.mp hx).imp id .inr
    · rw [hpid, ← heq, ← List.map_append]
      exact List.mem_map_of_mem hx

theorem wakeTasksWaitingForPort_sleeping (hd : s.Distinct)
    (h : wakeTasksWaitingForPort s portNumber = .ok s') :
    ∀ t ∈ s'.sleeping, t ∈ s.sleeping ∧ t.waitCansendPort ≠ portNumber := by
  rw [wakeTasksWaitingForPort_eq hd, Except.ok.injEq] at h
  subst h
  intro t ht
  simpa using ht

/-- The record of a new task. -/
def childTask (s : Sched κ) (context : κ) : Task κ := ⟨s.nextPid, 0, 0, 0, context⟩

theorem syscallForkHandler_eq_ok (h : syscallForkHandler s context = .ok (s', pid)) :
    pid = s.nextPid ∧ s' = { s with
      nextPid := s.nextPid + 1, ready := s.ready ++ [childTask s context] } := by
  simp only [syscallForkHandler, taskCreate, bind_eq_ok, check_eq_ok, pure_inj,
    Prod.mk.injEq] at h
  obtain ⟨⟨_, _⟩, ⟨_, -, rfl, rfl⟩, rfl, rfl⟩ := h
  exact ⟨rfl, rfl⟩

end Rastapopoulos.Scheduler
