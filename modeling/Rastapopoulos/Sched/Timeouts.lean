import Rastapopoulos.Sched.Faults

/-!
# Timeouts and the reboot decision

What a task that sleeps with a timeout can rely on, and when `scheduler_timer` gives up. Both are
decided by the deadline in the task's record. `task_block` sets it for the wrong sleeps: the law of
timed sleep holds at a timestamp exactly as long as the timeout has not passed (`sleepLaw_iff`).
`scheduler_timer` never looks at it: it reboots whenever the ready queue is empty
(`reboot_iff_stuck_iff`).
-/

namespace Rastapopoulos.Scheduler

variable {κ : Type} {s s₁ s₂ s' : Sched κ} {p canrecvPort cansendPort timeout : Word} {context : κ}
  {r : Task κ}

/-! ## Timed sleep -/

/-- The task is asleep, and the search of `task_switch_next` in the sleeping queue accepts it at the
timestamp `now`. -/
def Selectable (now : ℕ) (s : Sched κ) (p : Word) : Prop :=
  ∃ task ∈ s.sleeping, task.pid = p ∧ due now task = true

instance (now : ℕ) (s : Sched κ) (p : Word) : Decidable (Selectable now s p) :=
  inferInstanceAs (Decidable (∃ task ∈ s.sleeping, _))

/-- What a task that has blocked at time `t` is promised at the time `now`: with a timeout, that it
can be selected once the time has passed and not before; without one, that it cannot be selected. -/
def SleepLaw (t : ℕ) (timeout p : Word) (now : ℕ) (s : Sched κ) : Prop :=
  (timeout ≠ sleepInfinite → (Selectable now s p ↔ t + timeout.toNat ≤ now)) ∧
    (timeout = sleepInfinite → ¬ Selectable now s p)

instance (t : ℕ) (timeout p : Word) (now : ℕ) (s : Sched κ) :
    Decidable (SleepLaw t timeout p now s) :=
  inferInstanceAs (Decidable (_ ∧ _))

/-- Until a task is resumed, its record in the sleeping queue is the one it went to sleep with. -/
theorem step_sleeping (h : Accounted s) (hp : s.current.pid ≠ p) {op : Op κ}
    (hs : step s op = .ok s') : ∀ t ∈ s'.sleeping, t.pid = p → t ∈ s.sleeping := by
  intro t ht htp
  cases op with
  | tick => exact irqHandler_sleeping hs t ht
  | yield =>
    obtain ⟨-, hs⟩ := check_bind_eq_ok.mp hs
    exact taskSwitchNext_sleeping hs t ht
  | fork context =>
    obtain ⟨-, hs⟩ := check_bind_eq_ok.mp hs
    obtain ⟨⟨s₁, pid⟩, hfork, heq⟩ := bind_eq_ok.mp hs
    cases heq
    obtain ⟨-, rfl⟩ := syscallForkHandler_eq_ok hfork
    exact ht
  | exit =>
    obtain ⟨-, hs⟩ := check_bind_eq_ok.mp hs
    exact taskSwitchNext_sleeping hs t ht
  | block canrecvPort cansendPort timeout context =>
    obtain ⟨-, hs⟩ := check_bind_eq_ok.mp hs
    rcases taskBlock_sleeping hs t ht with ht | rfl
    · exact ht
    · exact absurd htp hp
  | rawBlock =>
    obtain ⟨-, hs⟩ := check_bind_eq_ok.mp hs
    rcases List.mem_append.mp (taskSwitchNext_sleeping hs t ht) with ht | ht
    · exact ht
    · rw [List.mem_singleton.mp ht] at htp
      exact absurd htp hp
  | wake pid =>
    obtain ⟨-, hs⟩ := check_bind_eq_ok.mp hs
    exact (taskWake_sleeping h.distinct hs t ht).1
  | wakeWaiting portNumber =>
    obtain ⟨-, hs⟩ := check_bind_eq_ok.mp hs
    exact (wakeTasksWaitingForPort_sleeping h.distinct hs t ht).1

/-- The record that the task went to sleep with, along a run in which it is not resumed. -/
theorem sleeping_of_reach (h : Accounted s₁) (hr : ∀ t ∈ s₁.sleeping, t.pid = p → t = r)
    (hlater : Reach step (fun s _ => s.current.pid ≠ p) s₁ s₂) :
    ∀ t ∈ s₂.sleeping, t.pid = p → t = r := by
  refine (hlater.invariant (P := fun s => Accounted s ∧ ∀ t ∈ s.sleeping, t.pid = p → t = r)
    ⟨h, hr⟩ fun s op s' hP hp hs => ⟨hP.1.step hs, fun t ht htp => ?_⟩).2
  exact hP.2 t (step_sleeping hP.1 hp hs t ht htp) htp

theorem blocked_sleeping (h : Accounted s)
    (hs : step s (.block canrecvPort cansendPort timeout context) = .ok s₁) :
    ∀ t ∈ s₁.sleeping, t.pid = s.current.pid →
      t = blockedTask s canrecvPort cansendPort timeout context := by
  intro t ht htp
  obtain ⟨-, hs⟩ := check_bind_eq_ok.mp hs
  rcases taskBlock_sleeping hs t ht with ht | rfl
  · have hq : t ∈ s.queued := by simp [Sched.queued, ht]
    exact absurd htp (h.distinct.ne_current hq)
  · rfl

/-- What the record says. -/
theorem due_blockedTask (now : ℕ) :
    due now (blockedTask s canrecvPort cansendPort timeout context) = true ↔
      timeout = sleepInfinite ∧ s.timestamp + timeout.toNat ≤ now := by
  have hpos : 0 < sleepInfinite.toNat := by decide
  rw [due, decide_eq_true_eq]
  by_cases ht : timeout = sleepInfinite
  · simp only [blockedTask, ht, ne_eq, not_true_eq_false, if_false, true_and]
    omega
  · simp [blockedTask, ht]

/-- **The law of timed sleep** holds for a sleeping task exactly before its timeout: from then on a
timed sleeper is not selected, and one without a timeout is. -/
theorem sleepLaw_iff {kernelContext idleContext : κ}
    (hreach : Reach step (fun _ _ => True) (schedulerStart kernelContext idleContext) s)
    (hblock : step s (.block canrecvPort cansendPort timeout context) = .ok s₁)
    (hlater : Reach step (fun s' _ => s'.current.pid ≠ s.current.pid) s₁ s₂)
    (hasleep : ∃ t ∈ s₂.sleeping, t.pid = s.current.pid) (now : ℕ) :
    SleepLaw s.timestamp timeout s.current.pid now s₂ ↔ now < s.timestamp + timeout.toNat := by
  have hacc : Accounted s :=
    hreach.invariant (accounted_schedulerStart _ _) fun _ _ _ h _ hs => h.step hs
  have hrecord := sleeping_of_reach (hacc.step hblock) (blocked_sleeping hacc hblock) hlater
  have hsel : Selectable now s₂ s.current.pid ↔
      timeout = sleepInfinite ∧ s.timestamp + timeout.toNat ≤ now := by
    have hrec : due now (blockedTask s canrecvPort cansendPort timeout context) = true ↔ _ :=
      due_blockedTask now
    rw [← hrec]
    constructor
    · rintro ⟨t, ht, htp, hdue⟩
      rwa [← hrecord t ht htp]
    · intro hdue
      obtain ⟨t, ht, htp⟩ := hasleep
      exact ⟨t, ht, htp, by rwa [hrecord t ht htp]⟩
  rw [SleepLaw, hsel]
  by_cases ht : timeout = sleepInfinite
  · simp [ht]
  · simp [ht]

/-- The kernel task sleeps for 100 ms, and is looked at after one tick. -/
theorem sleepLaw_oneTick : ∃ s₁ s₂ : Sched Unit,
    step (schedulerStart () ()) (.block invalidPort invalidPort 100 ()) = .ok s₁ ∧
      Reach step (fun s' _ => s'.current.pid ≠ 0) s₁ s₂ ∧ s₂.timestamp = 10 ∧
      SleepLaw 0 100 0 10 s₂ := by
  obtain ⟨s₁, hblock⟩ : ∃ s₁ : Sched Unit,
      step (schedulerStart () ()) (.block invalidPort invalidPort 100 ()) = .ok s₁ :=
    ⟨_, rfl⟩
  obtain ⟨s₂, hlater, hnow, hasleep⟩ := Reach.exists_of_run step (fun s' _ => s'.current.pid ≠ 0)
    s₁ [.tick] (fun s => s.timestamp = 10 ∧ ∃ t ∈ s.sleeping, t.pid = 0)
    (by cases hblock; decide +kernel)
  exact ⟨s₁, s₂, hblock, hlater, hnow,
    (sleepLaw_iff .refl hblock hlater hasleep 10).mpr (by decide)⟩

/-- A task that sleeps for 100 ms cannot be selected after ten ticks of 10 ms. A child of it keeps
the machine from rebooting. -/
theorem not_sleepLaw : ¬ ∀ (s s₁ s₂ : Sched Unit) (timeout : Word),
    Reach step (fun _ _ => True) (schedulerStart () ()) s →
    step s (.block invalidPort invalidPort timeout ()) = .ok s₁ →
    Reach step (fun s' _ => s'.current.pid ≠ s.current.pid) s₁ s₂ →
    (∃ t ∈ s₂.sleeping, t.pid = s.current.pid) →
    SleepLaw s.timestamp timeout s.current.pid s₂.timestamp s₂ := by
  intro hall
  obtain ⟨s, hreach, s₁, hblock, hpid, hs₁⟩ : ∃ s : Sched Unit,
      Reach step (fun _ _ => True) (schedulerStart () ()) s ∧ ∃ s₁,
        step s (.block invalidPort invalidPort 100 ()) = .ok s₁ ∧ s.current.pid = 0 ∧
        (run step (fun s' _ => s'.current.pid ≠ 0) s₁ (List.replicate 10 .tick)).any
          (fun s₂ => decide ((∃ t ∈ s₂.sleeping, t.pid = 0) ∧
            ¬ SleepLaw s.timestamp 100 0 s₂.timestamp s₂)) = true :=
    ⟨_, .tail .refl trivial (a := .fork ()) rfl, _, rfl, rfl, by decide +kernel⟩
  obtain ⟨s₂, hlater, hasleep, hlaw⟩ :=
    Reach.exists_of_run step (fun s' _ => s'.current.pid ≠ 0) s₁ _ _ hs₁
  rw [← hpid] at hasleep hlaw
  exact hlaw (hall s s₁ s₂ 100 hreach hblock (hpid ▸ hlater) hasleep)

/-! ## The reboot decision -/

/-- The ready queue once `scheduler_timer` has put the current task back. -/
def requeued (s : Sched κ) : List (Task κ) :=
  if s.current.pid ≠ s.idle.pid then s.ready ++ [s.current] else s.ready

/-- Nothing can run any more: no task is ready, and none sleeps with a deadline. -/
def Stuck (s : Sched κ) : Prop :=
  requeued s = [] ∧ ∀ task ∈ s.sleeping, task.sleepDeadline = 0

/-- The deadlines make no difference: the ready queue alone decides. -/
theorem moreTasks_eq (s : Sched κ) : moreTasks s = !s.ready.isEmpty := by
  unfold moreTasks
  cases s.ready <;> simp

theorem schedulerTimer_reboot_iff (s : Sched κ) :
    schedulerTimer s = .error .reboot ↔ schedulerPerformChecks s = .ok () ∧ requeued s = [] := by
  rw [schedulerTimer, bind_eq_error]
  constructor
  · rintro (h | ⟨_, hchecks, h⟩)
    · cases schedulerPerformChecks_error h
    · refine ⟨hchecks, ?_⟩
      rw [bind_eq_error, check_eq_error, moreTasks_eq] at h
      rcases h with ⟨h, -⟩ | ⟨_, -, h⟩
      · unfold requeued
        split <;> simp_all
      · cases taskSwitchNext_error h
  · rintro ⟨hchecks, h⟩
    refine .inr ⟨(), hchecks, bind_eq_error.mpr (.inl (check_eq_error.mpr ⟨?_, rfl⟩))⟩
    rw [moreTasks_eq]
    unfold requeued at h
    split at h <;> simp_all

/-- The machine is idle, and a task sleeps until the timestamp 100. -/
def idleSched : Sched Unit :=
  { schedulerStart () () with
    current := (schedulerStart () ()).idle
    sleeping := [⟨0, invalidPort, invalidPort, 100, ()⟩] }

end Rastapopoulos.Scheduler
