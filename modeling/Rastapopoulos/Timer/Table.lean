import Rastapopoulos.Timer.Basic

/-!
# Which timers are in the table

Runs of `timer_schedule`, `timer_unschedule` and the timer interrupt. Beside the table the machine
keeps the alarms that ought to be in it: those scheduled and neither unscheduled nor, if they are to
go off only once, called. A callback may schedule and unschedule timers before it returns.

`timer_unschedule` fills the hole from `timers[timer_count]`, one place behind the last timer. So it
loses the last timer and brings an old one back, unless the hole is that of the last timer. In runs
that remove no other, the table has the alarms in the order in which they were scheduled
(`kept_of_orderly`).
-/

namespace Rastapopoulos.Timer

/-! ## The machine -/

/-- A timer that ought to be in the table. `since` is when it was scheduled, or when it last went
off. -/
structure Alarm extends TimerSpec where
  since : ℕ
  deriving DecidableEq

namespace Alarm

def Due (now : ℕ) (alarm : Alarm) : Prop := alarm.since + alarm.period ≤ now

instance (now : ℕ) (alarm : Alarm) : Decidable (alarm.Due now) :=
  inferInstanceAs (Decidable (_ ≤ _))

/-- An alarm that goes off starts anew. -/
def goOff (now : ℕ) (alarm : Alarm) : Alarm :=
  if alarm.Due now then { alarm with since := now } else alarm

@[simp] theorem toTimerSpec_goOff (now : ℕ) (alarm : Alarm) :
    (alarm.goOff now).toTimerSpec = alarm.toTimerSpec := by
  unfold goOff
  split <;> rfl

end Alarm

structure State where
  table : Timers
  /-- The timer whose callback is running. -/
  running : Option TimerInfo
  /-- The rest of `triggered`: callbacks that the handler has yet to call. -/
  waiting : List TimerInfo
  /-- The alarms that ought to be in the table. -/
  alarms : List Alarm
  /-- The callbacks called, with the time of the tick. -/
  called : List (TimerSpec × ℕ)
  /-- The alarms that went off, with the time of the tick. -/
  wentOff : List (TimerSpec × ℕ)
  deriving DecidableEq

def State.boot : State := ⟨.zero, none, [], [], [], []⟩

inductive Action
  | schedule (callback data period : ℕ) (recurring : Bool)
  | unschedule (id : ℕ)
  /-- The timer interrupt, up to the first callback. -/
  | tick
  /-- The handler calls the next callback. -/
  | call
  /-- The callback returns. -/
  | returns
  deriving DecidableEq

/-- The handler runs with interrupts disabled: until it is through, the only code to use the table
is that of the callbacks. -/
def State.free (s : State) : Prop := s.running ≠ none ∨ s.waiting = []

instance (s : State) : Decidable s.free := inferInstanceAs (Decidable (_ ∨ _))

def step (s : State) : Action → Except Fault State
  | .schedule callback data period recurring => do
    check s.free .disabled
    let (table, id) ← timerSchedule s.table callback data period recurring
    return { s with
      table := table
      alarms := s.alarms ++
        [⟨⟨id, callback, data, period, recurring⟩, s.table.currentTimestamp⟩] }
  | .unschedule id => do
    check s.free .disabled
    return { s with
      table := timerUnschedule s.table id
      alarms := s.alarms.filter fun alarm => alarm.id ≠ id }
  | .tick => do
    check (s.running = none ∧ s.waiting = []) .disabled
    let (table, triggered) := irqHandlerScan s.table
    let now := table.currentTimestamp
    return { s with
      table := table
      waiting := triggered
      alarms := s.alarms.map (Alarm.goOff now)
      wentOff := s.wentOff ++
        (s.alarms.filter fun alarm => alarm.Due now).map fun alarm => (alarm.toTimerSpec, now) }
  | .call =>
    match s.running, s.waiting with
    | none, timer :: rest =>
      .ok { s with
        running := some timer
        waiting := rest
        called := s.called ++ [(timer.toTimerSpec, s.table.currentTimestamp)] }
    | _, _ => .error .disabled
  | .returns =>
    match s.running with
    | some timer =>
      if timer.recurring then .ok { s with running := none }
      else .ok { s with
        running := none
        table := timerUnschedule s.table timer.id
        alarms := s.alarms.filter fun alarm => alarm.id ≠ timer.id }
    | none => .error .disabled

/-- The steps, one by one. -/
inductive Move (s : State) : Action → State → Prop
  | schedule {callback data period : ℕ} {recurring : Bool} {table : Timers} {id : ℕ}
      (ht : timerSchedule s.table callback data period recurring = .ok (table, id)) :
      Move s (.schedule callback data period recurring) { s with
        table := table
        alarms := s.alarms ++
          [⟨⟨id, callback, data, period, recurring⟩, s.table.currentTimestamp⟩] }
  | unschedule {id : ℕ} : Move s (.unschedule id) { s with
      table := timerUnschedule s.table id
      alarms := s.alarms.filter fun alarm => alarm.id ≠ id }
  | tick (hrunning : s.running = none) (hwaiting : s.waiting = []) : Move s .tick { s with
      table := (irqHandlerScan s.table).1
      waiting := (irqHandlerScan s.table).2
      alarms := s.alarms.map (Alarm.goOff (s.table.currentTimestamp + ticksPerMs))
      wentOff := s.wentOff ++
        (s.alarms.filter fun alarm => alarm.Due (s.table.currentTimestamp + ticksPerMs)).map
          fun alarm => (alarm.toTimerSpec, s.table.currentTimestamp + ticksPerMs) }
  | call {timer : TimerInfo} {rest : List TimerInfo} (hrunning : s.running = none)
      (hwaiting : s.waiting = timer :: rest) : Move s .call { s with
        running := some timer
        waiting := rest
        called := s.called ++ [(timer.toTimerSpec, s.table.currentTimestamp)] }
  | goOn {timer : TimerInfo} (hrunning : s.running = some timer) :
      Move s .returns { s with running := none }
  | expire {timer : TimerInfo} (hrunning : s.running = some timer)
      (hrecurring : timer.recurring = false) : Move s .returns { s with
        running := none
        table := timerUnschedule s.table timer.id
        alarms := s.alarms.filter fun alarm => alarm.id ≠ timer.id }

theorem move_of_step {s s' : State} {a : Action} (hs : step s a = .ok s') : Move s a s' := by
  cases a with
  | schedule callback data period recurring =>
    simp only [step, bind_eq_ok] at hs
    obtain ⟨-, -, ⟨table, id⟩, ht, hs⟩ := hs
    cases hs
    exact .schedule ht
  | unschedule id =>
    simp only [step, check_bind_eq_ok] at hs
    obtain ⟨-, hs⟩ := hs
    cases hs
    exact .unschedule
  | tick =>
    simp only [step, check_bind_eq_ok] at hs
    obtain ⟨⟨hrunning, hwaiting⟩, hs⟩ := hs
    cases hs
    exact .tick hrunning hwaiting
  | call =>
    simp only [step] at hs
    split at hs
    · rename_i timer rest hrunning hwaiting
      cases hs
      exact .call hrunning hwaiting
    · exact nomatch hs
  | returns =>
    simp only [step] at hs
    split at hs
    · rename_i timer hrunning
      split at hs
      · cases hs
        exact .goOn hrunning
      · rename_i hrecurring
        cases hs
        exact .expire hrunning (by simpa using hrecurring)
    · exact nomatch hs

/-! ## Removals that hit the last timer -/

/-- No timer but the last has this id. -/
def Timers.OnlyLast (t : Timers) (id : ℕ) : Prop := ∀ timer ∈ t.active.dropLast, timer.id ≠ id

instance (t : Timers) (id : ℕ) : Decidable (t.OnlyLast id) :=
  inferInstanceAs (Decidable (∀ _ ∈ _, _))

/-- The condition on a step: a removal hits the last timer of the table, or none; no timer is
unscheduled when its callback is about to be called; and the 32-bit counter of the ids has not come
round to a timer in use. -/
def Orderly (s : State) : Action → Prop
  | .schedule .. => ∀ timer ∈ s.table.active, timer.id ≠ s.table.nextTimerId
  | .unschedule id => s.table.OnlyLast id ∧ ∀ timer ∈ s.waiting, timer.id ≠ id
  | .returns => ∀ timer ∈ s.running, timer.recurring = false → s.table.OnlyLast timer.id
  | .tick | .call => True

instance (s : State) : (a : Action) → Decidable (Orderly s a)
  | .schedule .. => inferInstanceAs (Decidable (∀ _ ∈ _, _))
  | .unschedule _ => inferInstanceAs (Decidable (_ ∧ _))
  | .returns => inferInstanceAs (Decidable (∀ _ ∈ _, _))
  | .tick => inferInstanceAs (Decidable True)
  | .call => inferInstanceAs (Decidable True)

/-- The timers of the table, in order, stand for the alarms, and the callbacks to be called are
those of alarms. The relation between a timer and its alarm is a parameter. -/
structure Matched (R : ℕ → TimerInfo → Alarm → Prop) (s : State) : Prop where
  timers : List.Forall₂ (R s.table.currentTimestamp) s.table.active s.alarms
  nodup : (s.table.active.map fun timer => timer.id).Nodup
  nodup_called : ((s.running.toList ++ s.waiting).map fun timer => timer.id).Nodup
  waiting : ∀ timer ∈ s.waiting, timer.toTimerSpec ∈ s.alarms.map Alarm.toTimerSpec

namespace Matched

variable {R : ℕ → TimerInfo → Alarm → Prop} {s s' : State} {a : Action} {now id : ℕ}
  {timer : TimerInfo} {alarm : Alarm}

/-- Removing by id keeps a matching of two lists whose ids agree. -/
theorem forall₂_filter {R : TimerInfo → Alarm → Prop} {timers : List TimerInfo}
    {alarms : List Alarm} (hR : ∀ timer alarm, R timer alarm → timer.id = alarm.id)
    (h : List.Forall₂ R timers alarms) :
    List.Forall₂ R (timers.filter fun timer => timer.id ≠ id)
      (alarms.filter fun alarm => alarm.id ≠ id) := by
  induction h with
  | nil => exact .nil
  | @cons timer alarm _ _ hhead _ ih =>
    have hid := hR timer alarm hhead
    by_cases h : timer.id = id
    · rw [List.filter_cons_of_neg (by simpa using h),
        List.filter_cons_of_neg (by simpa [← hid] using h)]
      exact ih
    · rw [List.filter_cons_of_pos (by simpa using h),
        List.filter_cons_of_pos (by simpa [← hid] using h)]
      exact .cons hhead ih

variable (hspec : ∀ now timer alarm, R now timer alarm → timer.toTimerSpec = alarm.toTimerSpec)

include hspec in
/-- The timers in use and the alarms are the same, in the same order. -/
theorem specs (h : Matched R s) :
    s.table.active.map TimerInfo.toTimerSpec = s.alarms.map Alarm.toTimerSpec := by
  rw [← List.forall₂_eq_eq_eq, List.forall₂_map_left_iff, List.forall₂_map_right_iff]
  exact h.timers.imp fun timer alarm hta => hspec _ timer alarm hta

include hspec in
/-- A removal, by `timer_unschedule` or behind the callback of a timer that goes off once. -/
theorem remove (h : Matched R s) (hlast : s.table.OnlyLast id) {running : Option TimerInfo}
    (hcalled : ((running.toList ++ s.waiting).map fun timer => timer.id).Nodup)
    (hwaiting : ∀ timer ∈ s.waiting, timer.id ≠ id) :
    Matched R { s with
      running := running
      table := timerUnschedule s.table id
      alarms := s.alarms.filter fun alarm => alarm.id ≠ id } where
  timers := by
    simp only [timerUnschedule_currentTimestamp, timerUnschedule_active hlast]
    exact forall₂_filter (fun timer alarm hR => congrArg TimerSpec.id (hspec _ timer alarm hR))
      h.timers
  nodup := by
    simp only [timerUnschedule_active hlast]
    exact h.nodup.sublist (List.filter_sublist.map _)
  nodup_called := hcalled
  waiting := by
    intro timer htimer
    obtain ⟨alarm, halarm, heq⟩ := List.mem_map.mp (h.waiting timer htimer)
    refine List.mem_map.mpr ⟨alarm, List.mem_filter.mpr ⟨halarm, ?_⟩, heq⟩
    have hid : alarm.id = timer.id := congrArg TimerSpec.id heq
    simpa [hid] using hwaiting timer htimer

theorem schedule {callback data period : ℕ} {recurring : Bool} {table : Timers}
    (h : Matched R s) (hid : ∀ timer ∈ s.table.active, timer.id ≠ s.table.nextTimerId)
    (hsched : timerSchedule s.table callback data period recurring = .ok (table, id))
    (hR : R s.table.currentTimestamp ⟨⟨id, callback, data, period, recurring⟩,
        s.table.slot.lastTriggered⟩
      ⟨⟨id, callback, data, period, recurring⟩, s.table.currentTimestamp⟩) :
    Matched R { s with
      table := table
      alarms := s.alarms ++
        [⟨⟨id, callback, data, period, recurring⟩, s.table.currentTimestamp⟩] } := by
  obtain ⟨rfl, hnow, hactive⟩ := timerSchedule_ok hsched
  refine ⟨?_, ?_, h.nodup_called, fun timer htimer => ?_⟩
  · simp only [hnow, hactive]
    exact List.rel_append h.timers (.cons hR .nil)
  · simp only [hactive, List.map_append, List.map_cons, List.map_nil]
    refine List.nodup_append.mpr ⟨h.nodup, by simp, fun i hi j hj => ?_⟩
    obtain ⟨timer, htimer, rfl⟩ := List.mem_map.mp hi
    rw [List.mem_singleton.mp hj]
    exact hid timer htimer
  · rw [List.map_append]
    exact List.mem_append_left _ (h.waiting timer htimer)

/-- The marks of a tick leave the ids. -/
theorem map_id_trigger (timers : List TimerInfo) (now : ℕ) :
    timers.map ((fun timer => timer.id) ∘ fun timer => timer.trigger now) =
      timers.map fun timer => timer.id :=
  List.map_congr_left fun timer _ => congrArg TimerSpec.id (timer.toTimerSpec_trigger now)

include hspec in
theorem tick
    (hR : ∀ now timer alarm, R now timer alarm →
      R (now + ticksPerMs) (timer.trigger (now + ticksPerMs)) (alarm.goOff (now + ticksPerMs)))
    (h : Matched R s) (hrunning : s.running = none) (wentOff : List (TimerSpec × ℕ)) :
    Matched R { s with
      table := (irqHandlerScan s.table).1
      waiting := (irqHandlerScan s.table).2
      alarms := s.alarms.map (Alarm.goOff (irqHandlerScan s.table).1.currentTimestamp)
      wentOff := wentOff } := by
  have hactive := irqHandlerScan_active s.table
  refine ⟨?_, ?_, ?_, fun timer htimer => ?_⟩
  · simp only [hactive]
    rw [List.forall₂_map_left_iff, List.forall₂_map_right_iff]
    exact h.timers.imp fun timer alarm hta => hR _ timer alarm hta
  · simp only [hactive, List.map_map]
    exact (map_id_trigger ..).symm ▸ h.nodup
  · simp only [hrunning, Option.toList_none, List.nil_append, irqHandlerScan, List.map_map]
    refine List.Nodup.sublist (List.filter_sublist.map _) ?_
    exact (map_id_trigger ..).symm ▸ h.nodup
  · simp only [irqHandlerScan, List.mem_map, List.mem_filter] at htimer
    obtain ⟨timer, ⟨htimer, -⟩, rfl⟩ := htimer
    have hmem := List.mem_map_of_mem (f := TimerInfo.toTimerSpec) htimer
    rw [h.specs hspec, List.mem_map] at hmem
    obtain ⟨alarm, halarm, heq⟩ := hmem
    refine List.mem_map.mpr ⟨_, List.mem_map_of_mem halarm, ?_⟩
    rw [Alarm.toTimerSpec_goOff, TimerInfo.toTimerSpec_trigger, heq]

include hspec in
/-- **One step.** The relation has to hold for a timer that is scheduled, and to be carried on by a
tick. -/
theorem next
    (htick : ∀ now timer alarm, R now timer alarm →
      R (now + ticksPerMs) (timer.trigger (now + ticksPerMs)) (alarm.goOff (now + ticksPerMs)))
    (hsched : ∀ id callback data period recurring, a = .schedule callback data period recurring →
      R s.table.currentTimestamp
        ⟨⟨id, callback, data, period, recurring⟩, s.table.slot.lastTriggered⟩
        ⟨⟨id, callback, data, period, recurring⟩, s.table.currentTimestamp⟩)
    (h : Matched R s) (ha : Orderly s a) (hs : step s a = .ok s') : Matched R s' := by
  cases move_of_step hs with
  | schedule ht => exact h.schedule ha ht (hsched _ _ _ _ _ rfl)
  | unschedule => exact h.remove hspec ha.1 h.nodup_called ha.2
  | tick hrunning _ => exact h.tick hspec htick hrunning _
  | call hrunning hwaiting =>
    have hcalled := h.nodup_called
    have hmem := h.waiting
    rw [hrunning, hwaiting] at hcalled
    rw [hwaiting] at hmem
    exact ⟨h.timers, h.nodup, hcalled, fun x hx => hmem x (.tail _ hx)⟩
  | goOn hrunning =>
    have hcalled := h.nodup_called
    rw [hrunning, Option.toList_some, List.cons_append, List.map_cons, List.nodup_cons] at hcalled
    exact ⟨h.timers, h.nodup, hcalled.2, h.waiting⟩
  | expire hrunning hrecurring =>
    have hcalled := h.nodup_called
    rw [hrunning, Option.toList_some, List.cons_append, List.map_cons, List.nodup_cons] at hcalled
    refine h.remove hspec (ha _ hrunning hrecurring) hcalled.2 ?_
    intro x hx heq
    exact hcalled.1 (heq ▸ List.mem_map_of_mem hx)

theorem boot (R : ℕ → TimerInfo → Alarm → Prop) : Matched R .boot :=
  ⟨.nil, List.nodup_nil, List.nodup_nil, fun _ h => (nomatch h)⟩

end Matched

/-! ## The table and the alarms -/

/-- The timers in use are the alarms, each with what it was scheduled with, and only callbacks of
alarms are about to be called. -/
structure Kept (s : State) : Prop where
  active : (s.table.active.map TimerInfo.toTimerSpec).Perm (s.alarms.map Alarm.toTimerSpec)
  waiting : ∀ timer ∈ s.waiting, timer.toTimerSpec ∈ s.alarms.map Alarm.toTimerSpec

/-- **The table is kept** in every state of every run whose removals hit the last timer. -/
theorem kept_of_orderly {s : State} (h : Reach step Orderly .boot s) : Kept s := by
  have hmatched : Matched (fun _ timer alarm => timer.toTimerSpec = alarm.toTimerSpec) s := by
    refine h.invariant (.boot _) fun s a s' hs ha hstep => ?_
    refine hs.next (fun _ _ _ h => h) (fun now timer alarm h => ?_) (fun _ _ _ _ _ _ => rfl) ha
      hstep
    rw [TimerInfo.toTimerSpec_trigger, Alarm.toTimerSpec_goOff, h]
  exact ⟨.of_eq (hmatched.specs fun _ _ _ h => h), hmatched.waiting⟩

theorem kept_three_timers : ∃ s, Reach step Orderly .boot s ∧
    s.alarms.map (fun alarm => alarm.id) = [0, 3] ∧ Kept s := by
  obtain ⟨s, hrun, hs⟩ := Reach.exists_of_run step Orderly .boot
    [.schedule 7 0 50 true, .schedule 8 1 10 false, .tick, .call, .schedule 9 2 10 true,
      .unschedule 2, .returns, .schedule 9 2 10 true]
    (fun s => s.alarms.map (fun alarm => alarm.id) = [0, 3]) (by decide +kernel)
  exact ⟨s, hrun, hs, kept_of_orderly hrun⟩

/-- Two timers; the first is unscheduled. The second is lost, and in place of the first there is an
empty slot. -/
theorem unschedule_first_not_kept :
    ∃ s, Reach step (fun _ _ => True) .boot s ∧ ¬ Kept s := by
  obtain ⟨s, hrun, hactive, halarms⟩ := Reach.exists_of_run step (fun _ _ => True) .boot
    [.schedule 7 0 50 true, .schedule 8 1 10 true, .unschedule 0]
    (fun s => s.table.active.map TimerInfo.toTimerSpec = [⟨0, 0, 0, 0, false⟩] ∧
      s.alarms.map Alarm.toTimerSpec = [⟨1, 8, 1, 10, true⟩]) (by decide +kernel)
  refine ⟨s, hrun, fun hkept => ?_⟩
  have hperm := hkept.active
  rw [hactive, halarms, List.singleton_perm_singleton] at hperm
  exact absurd hperm (by decide)

end Rastapopoulos.Timer
