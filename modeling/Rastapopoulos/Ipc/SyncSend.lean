import Rastapopoulos.Ipc.Fifo

/-!
# Sends that wait until the message is taken

After `msgsend` has queued its message it sleeps, and it returns 0 when it is woken, whatever it was
woken by. The receiver wakes it when it takes the message. But a task that sends to one port and has
opened another is also woken by a message to its own port; and the deadline that `task_block` stores
for an infinite sleep wakes it after `2 ^ 32 - 1` milliseconds. Without these two kinds of early
wake-up, `msgsend` returns only once the receiver has taken the message
(`send_synchronous_of_reach`).
-/

namespace Rastapopoulos.Ipc

open Scheduler

variable {k k' : Kernel} {action : Action} {s s' : Sched Cont}

/-- At the end of `msgsend`: the message is queued and the task waits for it to be taken. -/
def Cont.IsFinalWait : Cont → Prop
  | .sendTaken _ _ => True
  | _ => False

instance : DecidablePred Cont.IsFinalWait
  | .sendTaken _ _ => .isTrue trivial
  | .user _ | .sendOpen _ _ | .recv _ _ _ _ | .wait _ _ | .sleep => .isFalse id

variable {cont : Cont} {pid : Word} {p : ℕ} {port : Port}

theorem Cont.IsUser.not_finalWait (h : cont.IsUser) : ¬ cont.IsFinalWait := by
  cases cont with
  | user => exact id
  | sendOpen | sendTaken | recv | wait | sleep => exact h.elim

/-! ## What the scheduler does to tasks in their final wait -/

/-- No task in its final wait was woken or put to sleep. -/
structure Calm (s s' : Sched Cont) : Prop where
  asleep : ∀ t ∈ s.sleeping, t.context.IsFinalWait → t ∈ s'.sleeping
  back : ∀ t ∈ s'.sleeping, t.context.IsFinalWait → t ∈ s.sleeping
  awake : ∀ t ∈ s'.current :: s'.ready, t.context.IsFinalWait → t ∈ s.current :: s.ready

theorem Calm.refl (s : Sched Cont) : Calm s s :=
  ⟨fun _ h _ => h, fun _ h _ => h, fun _ h _ => h⟩

theorem Calm.trans {s'' : Sched Cont} (h : Calm s s') (h' : Calm s' s'') : Calm s s'' :=
  ⟨fun t ht hw => h'.asleep t (h.asleep t ht hw) hw, fun t ht hw => h.back t (h'.back t ht hw) hw,
    fun t ht hw => h.awake t (h'.awake t ht hw) hw⟩

/-- A switch wakes no task in its final wait, unless its deadline has passed. -/
theorem taskSwitchNext_finalWait (h : taskSwitchNext s = .ok s')
    (hidle : s.idle.context.IsUser)
    (hdue : ∀ t ∈ s.sleeping, t.context.IsFinalWait → due s.timestamp t = false) :
    (∀ t ∈ s.sleeping, t.context.IsFinalWait → t ∈ s'.sleeping) ∧
      (∀ t ∈ s'.sleeping, t ∈ s.sleeping) ∧
      ∀ t ∈ s'.current :: s'.ready, t.context.IsFinalWait → t ∈ s.ready := by
  rcases taskSwitchNext_cases h with ⟨l₁, t, l₂, hs, htdue, rfl⟩ | ⟨t, ready, hs, rfl⟩ | ⟨hs, rfl⟩
  · have ht : ¬ t.context.IsFinalWait := fun hw => by
      have := hdue t (by simp [hs]) hw
      rw [htdue] at this
      exact nomatch this
    refine ⟨fun x hx hw => ?_, fun x hx => ?_, fun x hx hw => ?_⟩
    · rw [hs, List.mem_append, List.mem_cons] at hx
      rcases hx with hx | rfl | hx
      · exact List.mem_append_left _ hx
      · exact absurd hw ht
      · exact List.mem_append_right _ hx
    · rw [hs, List.mem_append, List.mem_cons]
      exact (List.mem_append.mp hx).imp id .inr
    · rcases List.mem_cons.mp hx with rfl | hx
      · exact absurd hw ht
      · exact hx
  · exact ⟨fun _ hx _ => hx, fun _ hx => hx, fun x hx _ => hs ▸ hx⟩
  · refine ⟨fun _ hx _ => hx, fun _ hx => hx, fun x hx hw => ?_⟩
    rcases List.mem_cons.mp hx with rfl | hx
    · exact absurd hw hidle.not_finalWait
    · exact hx

section Calm

variable (hidle : s.idle.context.IsUser)
  (hdue : ∀ t ∈ s.sleeping, t.context.IsFinalWait → due s.timestamp t = false)

include hidle hdue

theorem yield_calm (h : syscallYieldHandler s = .ok s') : Calm s s' := by
  obtain ⟨hasleep, hback, hawake⟩ := taskSwitchNext_finalWait h hidle hdue
  refine ⟨hasleep, fun t ht _ => hback t ht, fun t ht hw => ?_⟩
  rcases List.mem_append.mp (hawake t ht hw) with ht | ht
  · exact .tail _ ht
  · exact List.mem_singleton.mp ht ▸ .head _

theorem exit_calm (h : syscallExitHandler s = .ok s') : Calm s s' := by
  obtain ⟨hasleep, hback, hawake⟩ := taskSwitchNext_finalWait h hidle hdue
  exact ⟨hasleep, fun t ht _ => hback t ht,
    fun t ht hw => .tail _ (hawake t ht hw)⟩

/-- A task that blocks joins the sleeping ones. -/
theorem block_finalWait {canrecvPort cansendPort timeout : Word} (hcont : cont.IsFinalWait →
      due s.timestamp (blockedTask s canrecvPort cansendPort timeout cont) = false)
    (h : taskBlock s canrecvPort cansendPort timeout cont = .ok s') :
    let sleeping := s.sleeping ++ [blockedTask s canrecvPort cansendPort timeout cont]
    (∀ t ∈ sleeping, t.context.IsFinalWait → t ∈ s'.sleeping) ∧
      (∀ t ∈ s'.sleeping, t ∈ sleeping) ∧
      ∀ t ∈ s'.current :: s'.ready, t.context.IsFinalWait → t ∈ s.ready := by
  refine taskSwitchNext_finalWait h hidle ?_
  intro t ht hw
  rcases List.mem_append.mp ht with ht | ht
  · exact hdue t ht hw
  · rw [List.mem_singleton.mp ht] at hw ⊢
    exact hcont hw

theorem block_calm {canrecvPort cansendPort timeout : Word} (hcont : ¬ cont.IsFinalWait)
    (h : taskBlock s canrecvPort cansendPort timeout cont = .ok s') : Calm s s' := by
  obtain ⟨hasleep, hback, hawake⟩ := block_finalWait hidle hdue (absurd · hcont) h
  refine ⟨fun t ht => hasleep t (List.mem_append_left _ ht), fun t ht hw => ?_,
    fun t ht hw => .tail _ (hawake t ht hw)⟩
  rcases List.mem_append.mp (hback t ht) with ht | ht
  · exact ht
  · rw [List.mem_singleton.mp ht] at hw
    exact absurd hw hcont

end Calm

theorem irqHandler_calm (hidle : s.idle.context.IsUser)
    (hdue : ∀ t ∈ s.sleeping, t.context.IsFinalWait → due (s.timestamp + tickMillis) t = false)
    (h : irqHandler s = .ok s') : Calm s s' := by
  unfold irqHandler at h
  simp only at h
  split at h
  · simp only [schedulerTimer, bind_eq_ok] at h
    obtain ⟨_, -, _, -, h⟩ := h
    split at h
    · obtain ⟨hasleep, hback, hawake⟩ := taskSwitchNext_finalWait h hidle hdue
      refine ⟨hasleep, fun t ht _ => hback t ht, fun t ht hw => ?_⟩
      rcases List.mem_append.mp (hawake t ht hw) with ht | ht
      · exact .tail _ ht
      · exact List.mem_singleton.mp ht ▸ .head _
    · obtain ⟨hasleep, hback, hawake⟩ := taskSwitchNext_finalWait h hidle hdue
      exact ⟨hasleep, fun t ht _ => hback t ht,
        fun t ht hw => .tail _ (hawake t ht hw)⟩
  · cases h
    exact ⟨fun _ ht _ => ht, fun _ ht _ => ht, fun _ ht _ => ht⟩

/-- Waking a task that is not in its final wait. -/
theorem taskWake_calm (hd : s.Distinct)
    (hpid : ∀ t ∈ s.sleeping, t.pid = pid → ¬ t.context.IsFinalWait)
    (h : taskWake s pid = .ok s') : Calm s s' := by
  rcases taskWake_cases hd h with ⟨-, rfl⟩ | ⟨l₁, t, l₂, hs, ht, rfl⟩
  · exact .refl _
  · have hnot := hpid t (by simp [hs]) ht
    refine ⟨fun x hx hw => ?_, fun x hx _ => ?_, fun x hx hw => ?_⟩
    · rw [hs, List.mem_append, List.mem_cons] at hx
      rcases hx with hx | rfl | hx
      · exact List.mem_append_left _ hx
      · exact absurd hw hnot
      · exact List.mem_append_right _ hx
    · rw [hs, List.mem_append, List.mem_cons]
      exact (List.mem_append.mp hx).imp id .inr
    · rcases List.mem_cons.mp hx with rfl | hx
      · exact .head _
      · rcases List.mem_append.mp hx with hx | hx
        · exact .tail _ hx
        · rw [List.mem_singleton.mp hx] at hw
          exact absurd hw hnot

/-- Waking the tasks that wait for a port to be open. -/
theorem wakeWaiting_calm (hd : s.Distinct) {portNumber : Word}
    (hport : ∀ t ∈ s.sleeping, t.context.IsFinalWait → t.waitCansendPort ≠ portNumber)
    (h : wakeTasksWaitingForPort s portNumber = .ok s') : Calm s s' := by
  rw [wakeTasksWaitingForPort_eq hd, Except.ok.injEq] at h
  subst h
  refine ⟨fun t ht hw => ?_, fun t ht _ => (List.mem_filter.mp ht).1, fun t ht hw => ?_⟩
  · exact List.mem_filter.mpr ⟨ht, by simpa using hport t ht hw⟩
  · rcases List.mem_cons.mp ht with rfl | ht
    · exact .head _
    · rcases List.mem_append.mp ht with ht | ht
      · exact .tail _ ht
      · obtain ⟨ht, heq⟩ := List.mem_filter.mp ht
        exact absurd (of_decide_eq_true heq) (hport t ht hw)

theorem ret_calm (k : Kernel) (outcome : Outcome) : Calm k.sched (ret k outcome).sched := by
  refine ⟨fun _ ht _ => ht, fun _ ht _ => ht, fun t ht hw => ?_⟩
  rcases List.mem_cons.mp ht with rfl | ht
  · exact hw.elim
  · exact .tail _ ht

theorem fork_calm {outcome : Outcome}
    (h : syscallForkHandler s (.user outcome) = .ok (s', pid)) : Calm s s' := by
  obtain ⟨-, rfl⟩ := syscallForkHandler_eq_ok h
  refine ⟨fun _ ht _ => ht, fun _ ht _ => ht, fun t ht hw => ?_⟩
  rcases List.mem_cons.mp ht with rfl | ht
  · exact .head _
  · rcases List.mem_append.mp ht with ht | ht
    · exact .tail _ ht
    · rw [List.mem_singleton.mp ht] at hw
      exact hw.elim

/-! ## The invariant -/

/-- Every message that is still queued has its sender asleep, every sender that is awake has had its
message taken, and senders asleep do not wait for a port to be open. -/
structure Synchronous (k : Kernel) : Prop where
  honest : Honest k
  waiting : ∀ p port i s, k.table.ports[p]? = some port → port.taken.length ≤ i →
    port.sent[i]? = some s → ∃ t ∈ k.sched.sleeping, t.pid = s.sender ∧ t.context = .sendTaken p i
  awake : ∀ t ∈ k.sched.current :: k.sched.ready, ∀ p i, t.context = .sendTaken p i →
    ∃ port, k.table.ports[p]? = some port ∧ i < port.taken.length
  unwoken : ∀ t ∈ k.sched.sleeping, t.context.IsFinalWait → t.waitCansendPort = invalidPort

/-- A step without a message sent or taken keeps the invariant when it is calm. -/
theorem Synchronous.of_calm (h : Synchronous k) (hk' : Honest k') (hc : Calm k.sched k'.sched)
    (hnew : ∀ (p : ℕ) (port' : Port), k'.table.ports[p]? = some port' →
      k.table.ports[p]? = some port' ∨ port'.sent = [])
    (hold : ∀ (p : ℕ) (port : Port), k.table.ports[p]? = some port →
      ∃ port', k'.table.ports[p]? = some port' ∧ port.Grows port') : Synchronous k' where
  honest := hk'
  waiting := by
    intro p port' i s hp' hi hs
    rcases hnew p port' hp' with hp | hnil
    · obtain ⟨t, ht, hpid, hctx⟩ := h.waiting p port' i s hp hi hs
      exact ⟨t, hc.asleep t ht (hctx ▸ trivial), hpid, hctx⟩
    · rw [hnil] at hs
      exact nomatch hs
  awake := by
    intro t ht p i hctx
    obtain ⟨port, hp, hi⟩ := h.awake t (hc.awake t ht (hctx ▸ trivial)) p i hctx
    obtain ⟨port', hp', hgrows⟩ := hold p port hp
    exact ⟨port', hp', lt_of_lt_of_le hi hgrows.taken.length_le⟩
  unwoken := fun t ht hw => h.unwoken t (hc.back t ht hw) hw

/-- **Sending** to a port whose owner is not in its final wait: the message is queued, and its
sender is asleep. -/
theorem Synchronous.send (h : Synchronous k) (hk' : Honest k') {msg : Message}
    {sched : Sched Cont} (hp : k.table.ports[p]? = some port) (hc : Calm k.sched sched)
    (hcur : sched.current = k.sched.current) (hidle : sched.idle.context.IsUser)
    (hdue : ∀ t ∈ sched.sleeping, t.context.IsFinalWait → due sched.timestamp t = false)
    (hb : taskBlock sched invalidPort invalidPort sleepInfinite (.sendTaken p port.sent.length)
      = .ok k'.sched)
    (htable : k'.table = k.table.set p
      (port.push ⟨k.sched.current.pid, msg, msg.stamp k.sched.current.pid⟩)) :
    Synchronous k' := by
  -- the deadline is `2 ^ 32 - 1` milliseconds from now
  have hnew : due sched.timestamp (blockedTask sched invalidPort invalidPort sleepInfinite
      (.sendTaken p port.sent.length)) = false := by
    simp [due, blockedTask, sleepInfinite]
  obtain ⟨hasleep, hback, hawake⟩ := block_finalWait hidle hdue (fun _ => hnew) hb
  refine ⟨hk', fun q port' i s hq hi hs => ?_, fun t ht q i hctx => ?_, fun t ht hw => ?_⟩
  · have hold : ∀ port'', k.table.ports[q]? = some port'' → port''.taken.length ≤ i →
        port''.sent[i]? = some s →
        ∃ t ∈ k'.sched.sleeping, t.pid = s.sender ∧ t.context = .sendTaken q i := by
      intro port'' hq hi hs
      obtain ⟨t, ht, hpid, hctx⟩ := h.waiting q port'' i s hq hi hs
      have hw : t.context.IsFinalWait := hctx ▸ trivial
      exact ⟨t, hasleep t (List.mem_append_left _ (hc.asleep t ht hw)) hw, hpid, hctx⟩
    rcases PortTable.getElem?_set (htable ▸ hq) with ⟨rfl, rfl⟩ | ⟨-, hq⟩
    · rcases lt_or_ge i port.sent.length with hlt | hge
      · exact hold port hp hi (by rwa [Port.push, List.getElem?_append_left hlt] at hs)
      · rw [Port.push, List.getElem?_append_right hge, List.getElem?_singleton] at hs
        split at hs
        · cases hs
          have heq : i = port.sent.length := by omega
          subst heq
          exact ⟨_, hasleep _ (List.mem_append_right _ (List.mem_singleton_self _)) trivial,
            by rw [← hcur]; rfl, rfl⟩
        · cases hs
    · exact hold port' hq hi hs
  · have hw : t.context.IsFinalWait := hctx ▸ trivial
    obtain ⟨port', hq, hi⟩ :=
      h.awake t (hc.awake t (.tail _ (hawake t ht hw)) hw) q i hctx
    by_cases heq : q = p
    · subst heq
      cases hp.symm.trans hq
      have hself := htable ▸ PortTable.getElem?_set_self hp _
      exact ⟨_, hself, hi⟩
    · refine ⟨port', ?_, hi⟩
      rw [htable, PortTable.set, List.getElem?_set_ne (fun h => heq h.symm)]
      exact hq
  · rcases List.mem_append.mp (hback t ht) with ht | ht
    · exact h.unwoken t (hc.back t ht hw) hw
    · rw [List.mem_singleton.mp ht]
      rfl

/-- **Taking** the first message wakes the task that waits for it, and no other. -/
theorem Synchronous.take (h : Synchronous k) (hk' : Honest k') {m : Message}
    {rest : List Message} {sched : Sched Cont} {outcome : Outcome}
    (hp : k.table.ports[p]? = some port) (hq : port.queue = m :: rest)
    (hw : taskWake k.sched m.sender = .ok sched)
    (heq : k' = ret ⟨sched, k.table.set p (port.pop ⟨k.sched.current.pid, m⟩)⟩ outcome) :
    Synchronous k' := by
  have hport := h.honest.ports port (List.mem_of_getElem? hp)
  -- the message is the first one on record as not taken
  have hm : (port.sent.map Sent.copy)[port.taken.length]? = some m := by
    rw [← hport.fifo, hq]
    simp
  obtain ⟨s, hs, hsm⟩ : ∃ s, port.sent[port.taken.length]? = some s ∧ s.copy = m := by
    simpa using hm
  have hsender : s.sender = m.sender := by
    rw [← hsm, hport.copy s (List.mem_of_getElem? hs)]
    rfl
  obtain ⟨t₀, ht₀, hpid₀, hctx₀⟩ := h.waiting p port _ s hp le_rfl hs
  obtain ⟨l₁, l₂, hsleep⟩ := List.append_of_mem ht₀
  rw [← hsender, ← hpid₀, taskWake_of_sleeping h.honest.sane.accounted.distinct hsleep] at hw
  cases hw
  refine ⟨hk', fun q port' i s' hq' hi hs' => ?_, fun t ht q i hctx => ?_, fun t ht hw => ?_⟩
  · have hold : ∀ port'', k.table.ports[q]? = some port'' → port''.taken.length ≤ i →
        port''.sent[i]? = some s' → (q, i) ≠ (p, port.taken.length) →
        ∃ t ∈ k'.sched.sleeping, t.pid = s'.sender ∧ t.context = .sendTaken q i := by
      intro port'' hq hi hs hne
      obtain ⟨t, ht, hpid, hctx⟩ := h.waiting q port'' i s' hq hi hs
      refine ⟨t, ?_, hpid, hctx⟩
      rw [hsleep, List.mem_append, List.mem_cons] at ht
      rw [heq]
      rcases ht with ht | rfl | ht
      · exact List.mem_append_left _ ht
      · rw [hctx] at hctx₀
        injection hctx₀ with h₁ h₂
        exact absurd (by rw [h₁, h₂]) hne
      · exact List.mem_append_right _ ht
    have htable : k'.table = k.table.set p (port.pop ⟨k.sched.current.pid, m⟩) := by
      rw [heq]
      rfl
    rcases PortTable.getElem?_set (htable ▸ hq') with ⟨rfl, rfl⟩ | ⟨hne, hq'⟩
    · have hi' : port.taken.length + 1 ≤ i := by simpa [Port.pop] using hi
      exact hold port hp (by omega) hs' (fun h => by injection h; omega)
    · exact hold port' hq' hi hs' (fun h => hne (by injection h))
  · have hself : k'.table.ports[p]? = some (port.pop ⟨k.sched.current.pid, m⟩) := by
      rw [heq]
      exact PortTable.getElem?_set_self hp _
    -- either the task just woken, or one that was awake before
    have ht' : t = t₀ ∨ t ∈ k.sched.current :: k.sched.ready := by
      rw [heq] at ht
      rcases List.mem_cons.mp ht with rfl | ht
      · cases hctx
      · rcases List.mem_append.mp ht with ht | ht
        · exact .inr (.tail _ ht)
        · exact .inl (List.mem_singleton.mp ht)
    rcases ht' with rfl | ht'
    · rw [hctx] at hctx₀
      injection hctx₀ with h₁ h₂
      subst h₁ h₂
      exact ⟨_, hself, by simp [Port.pop]⟩
    · obtain ⟨port', hq', hi⟩ := h.awake t ht' q i hctx
      by_cases hne : q = p
      · subst hne
        cases hp.symm.trans hq'
        exact ⟨_, hself, by simp only [Port.pop, List.length_append]; omega⟩
      · refine ⟨port', ?_, hi⟩
        rw [heq]
        show (k.table.ports.set p _)[q]? = _
        rw [List.getElem?_set_ne (fun h => hne h.symm)]
        exact hq'
  · rw [heq] at ht
    refine h.unwoken t ?_ hw
    rw [hsleep, List.mem_append, List.mem_cons]
    exact (List.mem_append.mp ht).imp id .inr

/-! ## Steps without an early wake-up -/

/-- The port that the step sends to. -/
def Kernel.sendTarget (k : Kernel) (action : Action) : Option Port :=
  let number : Option Word :=
    match action, k.sched.current.context with
    | .call (.msgsend portNumber _), _ => some portNumber
    | .resume, .sendOpen portNumber _ => some portNumber
    | _, _ => none
  number.bind fun portNumber => (k.table.find portNumber).bind (k.table.ports[·]?)

/-- The step wakes no task from its final wait but by taking its message: no deadline of such a task
has come, and a message that is sent does not go to such a task. -/
def Timely (k : Kernel) (action : Action) : Prop :=
  (∀ t ∈ k.sched.sleeping, t.context.IsFinalWait →
    due (k.sched.timestamp + if action = .tick then tickMillis else 0) t = false) ∧
  ∀ port ∈ k.sendTarget action, ∀ t ∈ k.sched.sleeping, t.pid = port.receiver →
    ¬ t.context.IsFinalWait

instance (k : Kernel) (action : Action) : Decidable (Timely k action) := by
  unfold Timely
  infer_instance

theorem Kernel.From.sendTarget {portNumber : Word} {msg : Message}
    (h : k.From action (.msgsend portNumber msg) (.sendOpen portNumber msg))
    (hfind : k.table.find portNumber = some p) (hp : k.table.ports[p]? = some port) :
    port ∈ k.sendTarget action := by
  rcases h with ⟨rfl, -⟩ | ⟨rfl, hctx⟩
  · simp [Kernel.sendTarget, hfind, hp]
  · simp [Kernel.sendTarget, hctx, hfind, hp]

theorem due_mono {now later : ℕ} {t : Scheduler.Task Cont} (hle : now ≤ later)
    (h : due later t = false) : due now t = false := by
  simp only [due, decide_eq_false_iff_not, not_and, not_le] at h ⊢
  exact fun h₀ => lt_of_le_of_lt hle (h h₀)

theorem Synchronous.move (h : Synchronous k) (hq : Timely k action) (hm : Move k action k')
    (hk' : Honest k')
    (hold : ∀ (p : ℕ) (port : Port), k.table.ports[p]? = some port →
      ∃ port', k'.table.ports[p]? = some port' ∧ port.Grows port') : Synchronous k' := by
  have hk := h.honest.sane
  have hd := hk.accounted.distinct
  have hidle := hk.idle_user
  have hdue : ∀ t ∈ k.sched.sleeping, t.context.IsFinalWait → due k.sched.timestamp t = false :=
    fun t ht hw => due_mono (Nat.le_add_right _ _) (hq.1 t ht hw)
  cases hm with
  | yield _ hs => exact h.of_calm hk' (yield_calm hidle hdue hs) (fun _ _ => .inl) hold
  | exit _ hs => exact h.of_calm hk' (exit_calm hidle hdue hs) (fun _ _ => .inl) hold
  | fork _ hs =>
    exact h.of_calm hk' ((fork_calm hs).trans (ret_calm ⟨_, k.table⟩ _)) (fun _ _ => .inl) hold
  | sleep _ hs | sendBlock _ _ _ hs | waitBlock _ _ _ hs =>
    exact h.of_calm hk' (block_calm hidle hdue id hs) (fun _ _ => .inl) hold
  | portopen _ hs =>
    refine h.of_calm hk' (ret_calm ⟨k.sched, _⟩ _) (fun p port' hp' => ?_) hold
    rcases portopen_port hk.unlocked.table_free hs hp' with hp | ⟨-, number, rfl⟩
    · exact .inl hp
    · exact .inr rfl
  | send hfrom hmsg hfind hp hw hb =>
    have hc := taskWake_calm hd (hq.2 _ (hfrom.sendTarget hfind hp)) hw
    obtain ⟨hidle₁, hcur₁, -⟩ := taskWake_all hd hw
    refine h.send hk' hp hc hcur₁ (hidle₁ ▸ hidle) (fun t ht hw' => ?_) hb rfl
    rw [taskWake_timestamp hd hw]
    exact hdue t (hc.back t ht hw') hw'
  | recvBlock hmay hp _ hw hb =>
    have hpos := (h.honest.receives hp id hmay).2
    have hc := wakeWaiting_calm hd (fun t ht hw' => by
      rw [h.unwoken t ht hw']
      rintro rfl
      exact absurd hpos (by decide)) hw
    obtain ⟨hidle₁, -⟩ := wakeTasksWaitingForPort_all hd hw
    refine h.of_calm hk' (hc.trans (block_calm (hidle₁ ▸ hidle) (fun t ht hw' => ?_) id hb))
      (fun _ _ => .inl) hold
    rw [wakeTasksWaitingForPort_timestamp hd hw]
    exact hdue t (hc.back t ht hw') hw'
  | recvTake hmay hp hqueue _ _ hw => exact h.take hk' hp hqueue hw rfl
  | recvSmall | recvRefused | waitReturn | peek | sendReturn | sleepReturn =>
    exact h.of_calm hk' (ret_calm k _) (fun _ _ => .inl) hold

/-- **A step without an early wake-up keeps sends synchronous.** -/
theorem Synchronous.step (h : Synchronous k) (hq : Timely k action)
    (hs : step k action = .ok k') : Synchronous k' := by
  have hk := h.honest.sane
  have hold : ∀ (p : ℕ) (port : Port), k.table.ports[p]? = some port →
      ∃ port', k'.table.ports[p]? = some port' ∧ port.Grows port' :=
    fun p port hp => step_grows hk hs hp
  have hk' := h.honest.step hs
  rcases step_cases hk hs with ⟨rfl, -, sched, hirq, rfl⟩ | ⟨-, hm⟩
  · exact h.of_calm hk' (irqHandler_calm hk.idle_user hq.1 hirq) (fun _ _ => .inl) hold
  · exact h.move hq hm hk' hold

theorem synchronous_boot : Synchronous boot where
  honest := honest_boot
  waiting := by simp [boot, ipcInit]
  awake := by
    intro t ht p i hctx
    simp only [boot, schedulerStart, List.mem_cons, List.not_mem_nil, or_false] at ht
    subst ht
    cases hctx
  unwoken := by simp [boot, schedulerStart]

/-- The message with index `i` on the port at `p` was sent by the task, and has been taken by the
owner of the port. -/
def PortTable.TakenFrom (table : PortTable) (sender : Word) (p i : ℕ) : Prop :=
  ∃ port s, table.ports[p]? = some port ∧ port.sent[i]? = some s ∧ s.sender = sender ∧
    port.taken[i]? = some ⟨port.receiver, s.copy⟩

theorem Honest.takenFrom (h : Honest k) {i : ℕ}
    (hsent : k.table.SentBy pid p i) (hp : k.table.ports[p]? = some port)
    (hi : i < port.taken.length) : k.table.TakenFrom pid p i := by
  obtain ⟨port', s, hp', hs, hpid⟩ := hsent
  cases hp.symm.trans hp'
  have hport := h.ports port (List.mem_of_getElem? hp)
  obtain ⟨t, ht⟩ : ∃ t, port.taken[i]? = some t := ⟨_, List.getElem?_eq_getElem hi⟩
  have hmsg : (port.taken.map Taken.message ++ port.queue)[i]? = some t.message := by
    rw [List.getElem?_append_left (by simpa using hi), List.getElem?_map, ht]
    rfl
  rw [hport.fifo, List.getElem?_map, hs] at hmsg
  have hcopy : s.copy = t.message := Option.some.inj hmsg
  have hrecv := hport.receiver t (List.mem_of_getElem? ht)
  exact ⟨port, s, hp, hs, hpid, by rw [ht, hcopy, ← hrecv]⟩

/-- **Synchronous send.** In every run without early wake-ups, whenever `msgsend` returns 0 to a
task, the message it queued has been taken from the queue by the port's receiver. -/
theorem send_synchronous_of_reach (h : Reach step Timely boot k) {p i : ℕ}
    (hctx : k.sched.current.context = .sendTaken p i) :
    step k .resume = .ok (ret k (.value 0)) ∧ k.table.TakenFrom k.sched.current.pid p i := by
  have hk : Synchronous k := h.invariant synchronous_boot fun _ _ _ hk hq hs => hk.step hq hs
  obtain ⟨port, hp, hi⟩ := hk.awake _ (.head _) p i hctx
  have hsent := hk.honest.current
  rw [hctx] at hsent
  exact ⟨by simp only [step, resume, hctx], hk.honest.takenFrom hsent hp hi⟩

/-- A child sends to port 5 of its parent, which is waiting there, and runs again once the parent
has taken the message and yields. -/
theorem send_synchronous_child : ∃ k p i, Reach step Timely boot k ∧
    k.sched.current.context = .sendTaken p i ∧ k.table.TakenFrom k.sched.current.pid p i := by
  obtain ⟨k, hreach, hctx⟩ := Reach.exists_of_run step Timely boot
    [.call .fork, .call (.portopen 5), .call (.msgrecv 5 100 true),
      .call (.msgsend 5 Message.zero), .resume, .call .yield]
    (fun k => k.sched.current.context = .sendTaken 0 0) (by decide +kernel)
  exact ⟨k, 0, 0, hreach, hctx, (send_synchronous_of_reach hreach hctx).2⟩

/-- `msgsend` can return too early. Task 2 sends to port 6 of task 0, which does not receive. Task 3
sends to port 5 of task 2 and so wakes it. -/
theorem send_not_synchronous : ¬ ∀ k p i, Reach step (fun _ _ => True) boot k →
    k.sched.current.context = .sendTaken p i → k.table.TakenFrom k.sched.current.pid p i := by
  intro hall
  obtain ⟨k, hreach, hctx, htaken⟩ := Reach.exists_of_run step (fun _ _ => True) boot
    [.call (.portopen 6), .call .fork, .call .fork, .call .yield,
      .call (.portopen 5), .call (.msgsend 6 Message.zero),
      .call (.msgsend 5 Message.zero), .call .yield]
    (fun k => k.sched.current.context = .sendTaken 0 0 ∧ ∀ port ∈ k.table.ports, port.taken = [])
    (by decide +kernel)
  obtain ⟨port, s, hp, -, -, ht⟩ := hall k 0 0 hreach hctx
  rw [htaken port (List.mem_of_getElem? hp)] at ht
  exact nomatch ht

end Rastapopoulos.Ipc
