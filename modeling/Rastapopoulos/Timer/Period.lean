import Rastapopoulos.Timer.Table

/-!
# When timers go off

A timer is to go off at the first tick that is at least its period after it was scheduled, and then
at the first tick that is at least its period after the last time. `timer_schedule` does not write
the field `last_triggered`, from which the handler counts. It has what the slot had: zero, or the
time at which a timer that used the slot before went off. Unless that is the time of the call, or
the period is so short that the timer is due at the next tick anyway, the first callback comes too
early. In all other runs the callbacks are called when they ought to be (`punctual_of_timely`).
-/

namespace Rastapopoulos.Timer

variable {s s' : State} {a : Action} {now : ℕ} {timer : TimerInfo} {alarm : Alarm}

/-! ## Timers that are in step with their alarms -/

/-- A timer and its alarm are due at the same ticks. -/
structure InStep (now : ℕ) (timer : TimerInfo) (alarm : Alarm) : Prop where
  spec : timer.toTimerSpec = alarm.toTimerSpec
  since_le : alarm.since ≤ now
  last_le : timer.lastTriggered ≤ now
  close : timer.lastTriggered = alarm.since ∨ timer.period ≤ ticksPerMs

namespace InStep

theorem period_eq (h : InStep now timer alarm) : timer.period = alarm.period :=
  congrArg TimerSpec.period h.spec

theorem due_iff (h : InStep now timer alarm) :
    timer.Due (now + ticksPerMs) ↔ alarm.Due (now + ticksPerMs) := by
  have hsince := h.since_le
  have hlast := h.last_le
  unfold TimerInfo.Due Alarm.Due
  rw [← h.period_eq]
  rcases h.close with heq | hperiod
  · rw [heq]
  · omega

theorem tick (h : InStep now timer alarm) :
    InStep (now + ticksPerMs) (timer.trigger (now + ticksPerMs))
      (alarm.goOff (now + ticksPerMs)) := by
  have hspec := h.spec
  have hsince := h.since_le
  have hlast := h.last_le
  unfold TimerInfo.trigger Alarm.goOff
  by_cases hdue : timer.Due (now + ticksPerMs)
  · rw [if_pos hdue, if_pos (h.due_iff.mp hdue)]
    exact ⟨hspec, le_refl _, le_refl _, .inl rfl⟩
  · rw [if_neg hdue, if_neg (mt h.due_iff.mpr hdue)]
    exact ⟨hspec, by omega, by omega, h.close⟩

/-- The timers that the handler takes from the table are those of the alarms that go off. -/
theorem filter_due {timers : List TimerInfo} {alarms : List Alarm}
    (h : List.Forall₂ (InStep now) timers alarms) :
    (timers.filter fun timer => timer.Due (now + ticksPerMs)).map TimerInfo.toTimerSpec =
      (alarms.filter fun alarm => alarm.Due (now + ticksPerMs)).map Alarm.toTimerSpec := by
  induction h with
  | nil => rfl
  | @cons timer alarm _ _ hhead _ ih =>
    by_cases hdue : timer.Due (now + ticksPerMs)
    · rw [List.filter_cons_of_pos (by simpa using hdue),
        List.filter_cons_of_pos (by simpa using hhead.due_iff.mp hdue), List.map_cons, List.map_cons,
        hhead.spec, ih]
    · rw [List.filter_cons_of_neg (by simpa using hdue),
        List.filter_cons_of_neg (by simpa using mt hhead.due_iff.mpr hdue), ih]

end InStep

/-! ## Times in the table -/

/-- No slot, in use or not, has a time in the future. -/
def Timers.Past (t : Timers) : Prop := ∀ timer ∈ t.timers, timer.lastTriggered ≤ t.currentTimestamp

namespace Timers.Past

variable {t t' : Timers} {id : ℕ}

theorem slot (h : t.Past) : t.slot.lastTriggered ≤ t.currentTimestamp :=
  h _ (List.get_mem _ _)

theorem schedule {callback data period : ℕ} {recurring : Bool} (h : t.Past)
    (ht : timerSchedule t callback data period recurring = .ok (t', id)) : t'.Past := by
  unfold timerSchedule at ht
  split at ht
  · cases ht
    intro timer htimer
    rcases List.mem_or_eq_of_mem_set htimer with hmem | rfl
    · exact h timer hmem
    · exact h.slot
  · exact nomatch ht

theorem unschedule (h : t.Past) (id : ℕ) : (timerUnschedule t id).Past := by
  unfold timerUnschedule
  split
  · exact h
  · intro timer htimer
    simp only at htimer
    split at htimer
    · rcases List.mem_or_eq_of_mem_set htimer with hmem | rfl
      · exact h timer hmem
      · exact h.slot
    · exact h timer htimer

theorem scan (h : t.Past) : (irqHandlerScan t).1.Past := by
  intro timer htimer
  rcases List.mem_append.mp htimer with hmem | hmem
  · obtain ⟨timer, hactive, rfl⟩ := List.mem_map.mp hmem
    unfold TimerInfo.trigger
    split
    · exact le_refl _
    · exact (h timer (List.mem_of_mem_take hactive)).trans (Nat.le_add_right _ _)
  · exact (h timer (List.mem_of_mem_drop hmem)).trans (Nat.le_add_right _ _)

theorem next (h : s.table.Past) (hs : step s a = .ok s') : s'.table.Past := by
  cases move_of_step hs with
  | schedule ht => exact h.schedule ht
  | unschedule => exact h.unschedule _
  | tick _ _ => exact h.scan
  | call _ _ => exact h
  | goOn _ => exact h
  | expire _ _ => exact h.unschedule _

end Timers.Past

/-! ## Callbacks and alarms -/

/-- The condition on `timer_schedule`: the slot has the time of the call, or the period is not
longer than the time to the next tick. -/
def Timely (s : State) : Action → Prop
  | .schedule _ _ period _ =>
    s.table.slot.lastTriggered = s.table.currentTimestamp ∨ period ≤ ticksPerMs
  | _ => True

instance (s : State) : (a : Action) → Decidable (Timely s a)
  | .schedule .. => inferInstanceAs (Decidable (_ ∨ _))
  | .unschedule _ | .tick | .call | .returns => inferInstanceAs (Decidable True)

/-- The callbacks called so far, and those yet to be called in this tick. -/
def State.calls (s : State) : List (TimerSpec × ℕ) :=
  s.called ++ s.waiting.map fun timer => (timer.toTimerSpec, s.table.currentTimestamp)

/-- The callbacks are those of the alarms that went off, at the same times. -/
def Punctual (s : State) : Prop := s.calls.Perm s.wentOff

/-- The calls of a tick are those of the alarms that go off at it; no other step changes what has
been called or is to be called. -/
theorem calls_step (hmatched : Matched InStep s) (h : s.calls = s.wentOff)
    (hs : step s a = .ok s') : s'.calls = s'.wentOff := by
  unfold State.calls at *
  cases move_of_step hs with
  | schedule ht =>
    simp only [(timerSchedule_ok ht).2.1]
    exact h
  | unschedule =>
    simp only [timerUnschedule_currentTimestamp]
    exact h
  | tick _ hwaiting =>
    rw [hwaiting, List.map_nil, List.append_nil] at h
    have hdue := congrArg (List.map fun spec => (spec, s.table.currentTimestamp + ticksPerMs))
      (InStep.filter_due hmatched.timers)
    simp only [List.map_map, Function.comp_def] at hdue
    simp only [h, irqHandlerScan, List.map_map, Function.comp_def,
      TimerInfo.toTimerSpec_trigger, hdue]
  | call _ hwaiting =>
    rw [hwaiting] at h
    simp only [← h, List.map_cons, List.append_assoc, List.cons_append, List.nil_append]
  | goOn _ => exact h
  | expire _ _ =>
    simp only [timerUnschedule_currentTimestamp]
    exact h

/-- **Callbacks come in time**, in every run whose removals hit the last timer and whose timers are
scheduled in slots with the time of the call, or with periods that end by the next tick. -/
theorem punctual_of_timely (h : Reach step (fun s a => Orderly s a ∧ Timely s a) .boot s) :
    Punctual s := by
  have hboot : State.boot.table.Past := by
    intro timer htimer
    rw [List.eq_of_mem_replicate htimer]
    exact le_refl _
  have hinv : Matched InStep s ∧ s.table.Past ∧ s.calls = s.wentOff := by
    refine h.invariant (P := fun s => Matched InStep s ∧ s.table.Past ∧ s.calls = s.wentOff)
      ⟨.boot _, hboot, rfl⟩ ?_
    rintro s a s' ⟨hmatched, hpast, hcalls⟩ ⟨ha, htimely⟩ hs
    refine ⟨hmatched.next (fun _ _ _ h => h.spec) (fun _ _ _ h => h.tick) ?_ ha hs,
      hpast.next hs, calls_step hmatched hcalls hs⟩
    rintro id callback data period recurring rfl
    exact ⟨rfl, le_refl _, hpast.slot, htimely⟩
  exact .of_eq hinv.2.2

theorem punctual_two_timers : ∃ s, Reach step (fun s a => Orderly s a ∧ Timely s a) .boot s ∧
    s.wentOff = [(⟨0, 7, 0, 20, true⟩, 20), (⟨1, 8, 0, 10, false⟩, 20)] ∧ Punctual s := by
  obtain ⟨s, hrun, hs⟩ := Reach.exists_of_run step (fun s a => Orderly s a ∧ Timely s a) .boot
    [.schedule 7 0 20 true, .tick, .schedule 8 0 10 false, .tick, .call]
    (fun s => s.wentOff = [(⟨0, 7, 0, 20, true⟩, 20), (⟨1, 8, 0, 10, false⟩, 20)])
    (by decide +kernel)
  exact ⟨s, hrun, hs, punctual_of_timely hrun⟩

/-- A timer with a period of 20 ms that is scheduled at 30 ms is called at 40 ms. -/
theorem schedule_late_not_punctual : ∃ s, Reach step Orderly .boot s ∧ ¬ Punctual s := by
  obtain ⟨s, hrun, hwaiting, hwentOff⟩ := Reach.exists_of_run step Orderly .boot
    [.tick, .tick, .tick, .schedule 7 0 20 true, .tick]
    (fun s => s.waiting ≠ [] ∧ s.wentOff = []) (by decide +kernel)
  refine ⟨s, hrun, fun hpunctual => ?_⟩
  unfold Punctual State.calls at hpunctual
  rw [hwentOff] at hpunctual
  have hnil := hpunctual.eq_nil
  rw [List.append_eq_nil_iff, List.map_eq_nil_iff] at hnil
  exact hwaiting hnil.2

end Rastapopoulos.Timer
