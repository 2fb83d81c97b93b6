import Mathlib.Data.List.Forall2
import Mathlib.Data.List.TakeDrop
import Rastapopoulos.Foundations.Fallible
import Rastapopoulos.Foundations.Word

/-!
# The timers of the kernel

The model of `timer.c`: a table of ten slots of which the first `timer_count` are in use, and the
interrupt handler that looks for the timers whose period has passed. The number of slots and the
bound on `timer_count` are fields of the table.

The handler runs in two passes. The first (`irqHandlerScan`) goes through the table and copies the
timers that are due to a list. The second calls their callbacks one after another; it is part of the
machine of `Timer.Table`, for a callback may use the table itself.
-/

namespace Rastapopoulos.Timer

/-- `MAX_TIMERS` -/
def maxTimers : ℕ := 10

/-- `TICKS_PER_MS`, the milliseconds from one tick to the next. -/
def ticksPerMs : ℕ := 1000 / 100

inductive Fault
  | assertion (text : String)
  /-- The machine has no such step in this state. -/
  | disabled
  deriving DecidableEq

/-- What a timer is scheduled with, and the id it gets. -/
structure TimerSpec where
  id : ℕ
  callback : ℕ
  callbackData : ℕ
  period : ℕ
  recurring : Bool
  deriving DecidableEq

/-- `struct timer_info` -/
structure TimerInfo extends TimerSpec where
  lastTriggered : ℕ
  deriving DecidableEq

/-- The variables of `timer.c`. -/
structure Timers where
  currentTimestamp : ℕ
  ticks : ℕ
  timers : List TimerInfo
  length_timers : timers.length = maxTimers
  timerCount : ℕ
  timerCount_lt : timerCount < maxTimers
  nextTimerId : ℕ
  deriving DecidableEq

/-- The table before the first timer is scheduled. -/
def Timers.zero : Timers where
  currentTimestamp := 0
  ticks := 0
  timers := List.replicate maxTimers ⟨⟨0, 0, 0, 0, false⟩, 0⟩
  length_timers := List.length_replicate ..
  timerCount := 0
  timerCount_lt := by decide
  nextTimerId := 0

variable {t t' : Timers} {id : ℕ}

namespace Timers

theorem timerCount_lt_length (t : Timers) : t.timerCount < t.timers.length :=
  t.length_timers ▸ t.timerCount_lt

/-- `timers[timer_count]`, the first slot that is not in use. -/
def slot (t : Timers) : TimerInfo := t.timers.get ⟨t.timerCount, t.timerCount_lt_length⟩

/-- The timers in use. -/
def active (t : Timers) : List TimerInfo := t.timers.take t.timerCount

@[simp] theorem length_active (t : Timers) : t.active.length = t.timerCount := by
  rw [active, List.length_take, Nat.min_eq_left t.timerCount_lt_length.le]

end Timers

def timerSchedule (t : Timers) (callback data period : ℕ) (recurring : Bool) :
    Except Fault (Timers × ℕ) :=
  if h : t.timerCount < maxTimers - 1 then
    let timer := { t.slot with
      id := t.nextTimerId
      callback := callback
      callbackData := data
      period := period
      recurring := recurring }
    .ok ({ t with
      timers := t.timers.set t.timerCount timer
      length_timers := by rw [List.length_set, t.length_timers]
      timerCount := t.timerCount + 1
      timerCount_lt := by unfold maxTimers at *; omega
      nextTimerId := addW t.nextTimerId 1 }, t.nextTimerId)
  else .error (.assertion "timer_count < countof(timers) - 1")

def timerUnschedule (t : Timers) (id : ℕ) : Timers :=
  match t.active.findIdx? fun timer => timer.id == id with
  | none => t
  | some index =>
    { t with
      timers := if index ≠ t.timerCount then t.timers.set index t.slot else t.timers
      length_timers := by split <;> simp [t.length_timers]
      timerCount := t.timerCount - 1
      timerCount_lt := (Nat.sub_le _ _).trans_lt t.timerCount_lt }

/-- The test of the handler. -/
def TimerInfo.Due (now : ℕ) (timer : TimerInfo) : Prop := timer.lastTriggered + timer.period ≤ now

instance (now : ℕ) (timer : TimerInfo) : Decidable (timer.Due now) :=
  inferInstanceAs (Decidable (_ ≤ _))

def TimerInfo.trigger (now : ℕ) (timer : TimerInfo) : TimerInfo :=
  if timer.Due now then { timer with lastTriggered := now } else timer

@[simp] theorem TimerInfo.toTimerSpec_trigger (now : ℕ) (timer : TimerInfo) :
    (timer.trigger now).toTimerSpec = timer.toTimerSpec := by
  unfold TimerInfo.trigger
  split <;> rfl

/-- The first pass of `irq_handler`: the table and the list `triggered`. -/
def irqHandlerScan (t : Timers) : Timers × List TimerInfo :=
  let now := t.currentTimestamp + ticksPerMs
  ({ t with
      ticks := t.ticks + 1
      currentTimestamp := now
      timers := t.active.map (TimerInfo.trigger now) ++ t.timers.drop t.timerCount
      length_timers := by
        rw [List.length_append, List.length_map, t.length_active, List.length_drop,
          Nat.add_sub_cancel' t.timerCount_lt_length.le, t.length_timers] },
    (t.active.filter fun timer => timer.Due now).map (TimerInfo.trigger now))

/-! ## What the functions do to the timers in use -/

theorem timerSchedule_ok {callback data period : ℕ} {recurring : Bool}
    (h : timerSchedule t callback data period recurring = .ok (t', id)) :
    id = t.nextTimerId ∧ t'.currentTimestamp = t.currentTimestamp ∧
      t'.active = t.active ++
        [⟨⟨t.nextTimerId, callback, data, period, recurring⟩, t.slot.lastTriggered⟩] := by
  unfold timerSchedule at h
  split at h
  · cases h
    refine ⟨rfl, rfl, ?_⟩
    simp only [Timers.active]
    rw [List.take_add_one, List.take_set_of_le (le_refl _),
      List.getElem?_set_self t.timerCount_lt_length]
    rfl
  · exact nomatch h

@[simp] theorem timerUnschedule_currentTimestamp :
    (timerUnschedule t id).currentTimestamp = t.currentTimestamp := by
  unfold timerUnschedule
  split <;> rfl

/-- The slot of the last timer in use is taken out of use, with whatever is copied to it. The loop
finds the first timer with the id, so it is the last one if no other has the id. -/
theorem timerUnschedule_active (h : ∀ timer ∈ t.active.dropLast, timer.id ≠ id) :
    (timerUnschedule t id).active = t.active.filter fun timer => timer.id ≠ id := by
  unfold timerUnschedule
  split
  case h_1 hnone =>
    rw [List.findIdx?_eq_none_iff] at hnone
    refine (List.filter_eq_self.mpr fun timer htimer => ?_).symm
    simpa using hnone timer htimer
  case h_2 index hsome =>
    obtain ⟨hindex, hid, -⟩ := List.findIdx?_eq_some_iff_getElem.mp hsome
    have hlast : index + 1 = t.timerCount := by
      rw [t.length_active] at hindex
      by_contra hne
      have hlt : index < t.active.dropLast.length := by
        rw [List.length_dropLast, t.length_active]
        omega
      refine h t.active.dropLast[index] (List.getElem_mem hlt) ?_
      rw [List.getElem_dropLast]
      exact beq_iff_eq.mp hid
    have hsplit : t.active = t.active.dropLast ++ [t.active[index]] := by
      have hne : t.active ≠ [] := List.ne_nil_of_length_pos (by omega)
      have hget : t.active.getLast hne = t.active[index] := by
        rw [List.getLast_eq_getElem]
        congr 1
        rw [t.length_active]
        omega
      rw [← hget, List.dropLast_append_getLast]
    have hfilter : t.active.filter (fun timer => timer.id ≠ id) = t.active.dropLast := by
      conv_lhs => rw [hsplit]
      rw [List.filter_append,
        List.filter_eq_self.mpr fun timer htimer => by simpa using h timer htimer]
      simp [beq_iff_eq.mp hid]
    rw [hfilter, Timers.active, Timers.active, List.dropLast_take t.timerCount_lt_length]
    simp only
    rw [if_pos (by omega), List.take_set_of_le (by omega)]

theorem irqHandlerScan_active (t : Timers) : (irqHandlerScan t).1.active =
    t.active.map (TimerInfo.trigger (t.currentTimestamp + ticksPerMs)) := by
  have hlen : (t.active.map (TimerInfo.trigger (t.currentTimestamp + ticksPerMs))).length =
      t.timerCount := by rw [List.length_map, t.length_active]
  simp only [irqHandlerScan, Timers.active]
  exact List.take_left' hlen

end Rastapopoulos.Timer
