import Rastapopoulos.Sched.Conservation

/-!
# How the scheduler can fail

Which faults the functions of the scheduler can end in. In particular `task_wake` fails exactly when
`task_get` does not find the task (`taskWake_error_iff`).
-/

namespace Rastapopoulos.Scheduler

variable {κ : Type} {s : Sched κ} {fault : Fault}

theorem foldlM_checkTask_error {seen : BitVec 64} {l : List (Task κ)}
    (h : l.foldlM (checkTask s) seen = .error fault) : fault = .selfCheck := by
  induction l generalizing seen with
  | nil => simp at h
  | cons x l ih =>
    rw [List.foldlM_cons, bind_eq_error] at h
    rcases h with h | ⟨seen', -, h⟩
    · simp only [checkTask, bind_eq_error, check_eq_error, pure_eq_ok] at h
      rcases h with ⟨-, rfl⟩ | ⟨_, -, ⟨-, rfl⟩ | ⟨_, -, h⟩⟩
      · rfl
      · rfl
      · cases h
    · exact ih h

theorem schedulerPerformChecks_error (h : schedulerPerformChecks s = .error fault) :
    fault = .selfCheck := by
  simp only [schedulerPerformChecks, bind_eq_error, pure_eq_ok] at h
  rcases h with h | ⟨_, -, h | ⟨_, -, h | ⟨_, -, h⟩⟩⟩
  · exact foldlM_checkTask_error h
  · exact foldlM_checkTask_error h
  · exact foldlM_checkTask_error h
  · cases h

theorem taskSwitch_error {t : Task κ} (h : taskSwitch s t = .error fault) :
    fault = .selfCheck := by
  simp only [taskSwitch, bind_eq_error, pure_eq_ok] at h
  rcases h with h | ⟨_, -, h⟩
  · exact schedulerPerformChecks_error h
  · cases h

theorem taskSwitchNext_error (h : taskSwitchNext s = .error fault) : fault = .selfCheck := by
  unfold taskSwitchNext at h
  split at h
  · exact taskSwitch_error h
  · split at h
    · exact taskSwitch_error h
    · exact taskSwitch_error h

theorem irqHandler_error (h : irqHandler s = .error fault) :
    fault = .selfCheck ∨ fault = .reboot := by
  unfold irqHandler at h
  simp only at h
  split at h
  · simp only [schedulerTimer, bind_eq_error, check_eq_error] at h
    rcases h with h | ⟨_, -, ⟨-, rfl⟩ | ⟨_, -, h⟩⟩
    · exact .inl (schedulerPerformChecks_error h)
    · exact .inr rfl
    · exact .inl (taskSwitchNext_error h)
  · cases h

theorem syscallForkHandler_error {context : κ}
    (h : syscallForkHandler s context = .error fault) : fault = .tooManyTasks := by
  simp only [syscallForkHandler, taskCreate, bind_eq_error, check_eq_error, pure_eq_ok] at h
  rcases h with (⟨-, rfl⟩ | ⟨_, -, h⟩) | ⟨_, -, h⟩
  · rfl
  · cases h
  · cases h

/-- `task_get` finds the task: it is the idle or the current task, ready or asleep. -/
def Sched.Findable (s : Sched κ) (pid : Word) : Prop :=
  s.Awake pid ∨ ∃ t ∈ s.sleeping, t.pid = pid

variable {pid : Word}

theorem taskGet_isSome_iff : (taskGet s pid).isSome = true ↔ s.Findable pid := by
  unfold taskGet Sched.Findable Sched.Awake
  split
  · simp_all
  · split
    · simp_all
    · rename_i h₁ h₂
      rw [Option.isSome_or, Bool.or_eq_true, List.find?_isSome, List.find?_isSome]
      simp [h₁, h₂]

/-- **A wake-up fails** exactly when `task_get` does not find the task; the panic at its end is not
reached. -/
theorem taskWake_error_iff (hd : s.Distinct) :
    taskWake s pid = .error fault ↔ fault = .wakeUnknown ∧ ¬ s.Findable pid := by
  by_cases ha : s.Awake pid
  · rw [taskWake_of_awake hd ha]
    simp [Sched.Findable, ha]
  · by_cases hs : ∃ t ∈ s.sleeping, t.pid = pid
    · obtain ⟨t, ht, rfl⟩ := hs
      obtain ⟨l₁, l₂, hl⟩ := List.append_of_mem ht
      rw [taskWake_of_sleeping hd hl]
      have : s.Findable t.pid := .inr ⟨t, ht, rfl⟩
      simp [this]
    · have hnot : ¬ s.Findable pid := not_or.mpr ⟨ha, hs⟩
      rw [taskWake_of_unknown ha (by simpa using hs)]
      constructor
      · rintro h
        cases h
        exact ⟨rfl, hnot⟩
      · rintro ⟨rfl, -⟩
        rfl

/-! ## Tasks that are gone -/

/-- The task has exited; it may have been collected since. -/
def Sched.Gone (s : Sched κ) (pid : Word) : Prop :=
  pid ∈ s.exited.map Task.pid ++ s.collected

/-- The pids that `task_get` finds. -/
def Sched.found (s : Sched κ) : List Word :=
  (if s.current.pid = s.idle.pid then [] else [s.current.pid]) ++
    s.idle.pid :: (s.ready ++ s.sleeping).map Task.pid

theorem places_eq_found (s : Sched κ) :
    s.places ++ s.collected = s.found ++ (s.exited.map Task.pid ++ s.collected) := by
  simp [Sched.places, Sched.found, Sched.queued]

theorem mem_found : pid ∈ s.found ↔ s.Findable pid := by
  unfold Sched.found Sched.Findable Sched.Awake
  simp only [List.mem_append, List.mem_cons, List.mem_map, List.map_append]
  by_cases hcur : s.current.pid = s.idle.pid
  · rw [if_pos hcur, hcur]
    simp only [List.not_mem_nil, false_or, or_assoc, or_self_left]
  · rw [if_neg hcur, List.mem_singleton]
    simp only [or_assoc]
    exact or_left_comm

theorem Accounted.mem_places (h : Accounted s) :
    pid ∈ s.places ++ s.collected ↔ s.Created pid := by
  have hle := h.nextPid_le
  rw [h.perm.mem_iff, mem_firstPids (by omega), Sched.Created]

theorem Accounted.current_created (h : Accounted s) : s.Created s.current.pid := by
  rw [← h.mem_places, places_eq_found]
  exact List.mem_append_left _ (mem_found.mpr (.inl (.inr (.inl rfl))))

/-- A task that was created can be found exactly as long as it has not exited. -/
theorem Accounted.findable_iff_not_gone (h : Accounted s) (hc : s.Created pid) :
    s.Findable pid ↔ ¬ s.Gone pid := by
  have hmem := h.mem_places.mpr hc
  have hnodup := h.nodup
  rw [places_eq_found] at hmem hnodup
  rw [← mem_found]
  constructor
  · exact fun hf hg => (List.nodup_append.mp hnodup).2.2 pid hf pid hg rfl
  · exact fun hg => (List.mem_append.mp hmem).resolve_right hg

/-! ## Runs in which no task exits -/

/-- No task has exited. -/
def Sched.AllThere (s : Sched κ) : Prop := s.exited = [] ∧ s.collected = []

theorem Accounted.exists_task (h : Accounted s) (hall : s.AllThere)
    (hc : s.Created pid) : ∃ t ∈ s.all, t.pid = pid := by
  have hgone : ¬ s.Gone pid := by simp [Sched.Gone, hall.1, hall.2]
  rcases (h.findable_iff_not_gone hc).mpr hgone with (rfl | rfl | ⟨t, ht, rfl⟩) | ⟨t, ht, rfl⟩
  · exact ⟨s.idle, by simp [Sched.all], rfl⟩
  · exact ⟨s.current, by simp [Sched.all], rfl⟩
  · exact ⟨t, by simp [Sched.all, Sched.queued, ht], rfl⟩
  · exact ⟨t, by simp [Sched.all, Sched.queued, ht], rfl⟩

/-- There is one record of every task. -/
theorem Accounted.eq_of_pid (h : Accounted s) {t t' : Task κ} (ht : t ∈ s.all) (ht' : t' ∈ s.all)
    (hpid : t.pid = t'.pid) : t = t' := by
  have hcur : ∀ x ∈ s.all, x.pid = s.current.pid → x = s.current := by
    intro x hx hxpid
    rcases List.mem_cons.mp hx with rfl | hx
    · rfl
    rcases List.mem_cons.mp hx with rfl | hx
    · exact (h.current_idle hxpid.symm).symm
    · exact absurd hxpid (h.distinct.ne_current hx)
  by_cases hc : t.pid = s.current.pid
  · rw [hcur t ht hc, hcur t' ht' (hpid ▸ hc)]
  have hrest : ∀ x ∈ s.all, x.pid ≠ s.current.pid → x ∈ s.idle :: s.queued := fun x hx hne =>
    (List.mem_cons.mp hx).resolve_left fun heq => hne (heq ▸ rfl)
  have hnodup : ((s.idle :: s.queued).map Task.pid).Nodup := by
    rw [List.map_cons, List.nodup_cons]
    refine ⟨fun hmem => ?_, h.distinct.queued_nodup⟩
    obtain ⟨x, hx, heq⟩ := List.mem_map.mp hmem
    exact h.distinct.ne_idle hx heq
  exact List.inj_on_of_nodup_map hnodup (hrest t ht hc) (hrest t' ht' (hpid ▸ hc)) hpid

variable {s' : Sched κ}

theorem Sched.AllThere.switch (h : s.AllThere) (hs : taskSwitchNext s = .ok s') : s'.AllThere := by
  rcases taskSwitchNext_cases hs with ⟨l₁, t, l₂, -, -, rfl⟩ | ⟨t, ready, -, rfl⟩ | ⟨-, rfl⟩ <;>
    exact h

theorem Sched.AllThere.yield (h : s.AllThere) (hs : syscallYieldHandler s = .ok s') :
    s'.AllThere :=
  Sched.AllThere.switch (by exact h) hs

theorem Sched.AllThere.block (h : s.AllThere) {canrecvPort cansendPort timeout : Word} {context : κ}
    (hs : taskBlock s canrecvPort cansendPort timeout context = .ok s') : s'.AllThere :=
  Sched.AllThere.switch (by exact h) hs

theorem Sched.AllThere.tick (h : s.AllThere) (hs : irqHandler s = .ok s') : s'.AllThere := by
  unfold irqHandler at hs
  simp only at hs
  split at hs
  · simp only [schedulerTimer, bind_eq_ok] at hs
    obtain ⟨_, -, _, -, hs⟩ := hs
    refine Sched.AllThere.switch ?_ hs
    split <;> simp [Sched.AllThere, h.1, h.2]
  · cases hs
    exact h

theorem Sched.AllThere.wake (h : s.AllThere) (hd : s.Distinct)
    (hs : taskWake s pid = .ok s') : s'.AllThere := by
  rcases taskWake_cases hd hs with ⟨-, rfl⟩ | ⟨l₁, t, l₂, -, -, rfl⟩ <;> exact h

theorem Sched.AllThere.wakeWaiting (h : s.AllThere) (hd : s.Distinct) {portNumber : Word}
    (hs : wakeTasksWaitingForPort s portNumber = .ok s') : s'.AllThere := by
  rw [wakeTasksWaitingForPort_eq hd, Except.ok.injEq] at hs
  subst hs
  exact h

end Rastapopoulos.Scheduler
