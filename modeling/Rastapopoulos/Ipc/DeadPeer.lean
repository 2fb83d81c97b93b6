import Rastapopoulos.Ipc.Fifo

/-!
# Waking a task that is gone

`msgsend` wakes the receiver of the port, `msgrecv` the sender of the message. Ports and queued
messages outlive tasks: nothing closes the ports of a task that exits, and nothing withdraws the
messages of a sender that was woken early, went on and exited. In the states that the system calls
and the timer can reach, the assertion in `task_wake` fails exactly in a step that sends to a port
of a task that has exited, or that takes a message of a task that has exited
(`wake_fails_iff_of_reach`).
-/

namespace Rastapopoulos.Ipc

open Scheduler

variable {k k' : Kernel} {action : Action}

/-! ## The pids on record -/

/-- The pids that ports and queued messages hold are those of tasks that were created. -/
structure Recorded (k : Kernel) : Prop where
  honest : Honest k
  receiver : ∀ port ∈ k.table.ports, k.sched.Created port.receiver
  sender : ∀ port ∈ k.table.ports, ∀ m ∈ port.queue, k.sched.Created m.sender

theorem Recorded.sane (h : Recorded k) : Sane k := h.honest.sane

theorem Recorded.step (h : Recorded k) (hs : step k action = .ok k') : Recorded k' := by
  have hcur := step_created h.sane hs h.sane.accounted.current_created
  refine ⟨h.honest.step hs, fun port' hmem => ?_, fun port' hmem m hm => ?_⟩
  · obtain ⟨p, hp'⟩ := List.getElem?_of_mem hmem
    have hold : ∀ port, k.table.ports[p]? = some port → k'.sched.Created port.receiver :=
      fun port hp => step_created h.sane hs (h.receiver port (List.mem_of_getElem? hp))
    cases step_port h.sane hs hp' with
    | keep hp => exact hold _ hp
    | opened => exact hcur
    | push hp | pop hp => exact (hold _ hp :)
  · obtain ⟨p, hp'⟩ := List.getElem?_of_mem hmem
    have hold : ∀ port, k.table.ports[p]? = some port → m ∈ port.queue →
        k'.sched.Created m.sender := fun port hp hm =>
      step_created h.sane hs (h.sender port (List.mem_of_getElem? hp) m hm)
    cases step_port h.sane hs hp' with
    | keep hp => exact hold _ hp hm
    | opened => exact nomatch hm
    | push hp =>
      rcases List.mem_append.mp hm with hm | hm
      · exact hold _ hp hm
      · rw [List.mem_singleton.mp hm]
        exact hcur
    | pop hp => exact hold _ hp (List.mem_of_mem_tail hm)

theorem recorded_boot : Recorded boot :=
  ⟨honest_boot, by simp [boot, ipcInit], by simp [boot, ipcInit]⟩

/-! ## The wake-ups that fail -/

/-- The step sends to a port of a task that has exited, or takes a message of a task that has
exited. -/
def Kernel.WakesGone (k : Kernel) (action : Action) : Prop :=
  (∃ portNumber msg p port, k.Sends action portNumber msg ∧ msg.Intact ∧
    k.table.find portNumber = some p ∧ k.table.ports[p]? = some port ∧
    k.sched.Gone port.receiver) ∨
  ∃ p port bufferSize m rest, k.Receives action p port bufferSize ∧ port.queue = m :: rest ∧
    m.size ≤ bufferSize ∧ k.sched.Gone m.sender

theorem send_fails (h : Recorded k) {portNumber : Word} {msg : Message} {p : ℕ} {port : Port}
    (hsends : k.Sends action portNumber msg) (hmsg : msg.Intact)
    (hfind : k.table.find portNumber = some p) (hp : k.table.ports[p]? = some port)
    (hgone : k.sched.Gone port.receiver) : step k action = .error (.sched .wakeUnknown) := by
  have hc := h.receiver port (List.mem_of_getElem? hp)
  have hacc := h.sane.accounted
  have hw : taskWake k.sched port.receiver = .error .wakeUnknown :=
    (taskWake_error_iff hacc.distinct).mpr
      ⟨rfl, fun hf => (hacc.findable_iff_not_gone hc).mp hf hgone⟩
  rw [hsends.step_eq hmsg, sendLoop_eq h.sane.unlocked, hfind]
  simp only [deliver_eq h.sane.unlocked hp hmsg, hw, lift, error_bind]

theorem receive_fails (h : Recorded k) {p : ℕ} {port : Port} {bufferSize : ℕ} {m : Message}
    {rest : List Message} (hrecv : k.Receives action p port bufferSize)
    (hq : port.queue = m :: rest) (hsize : m.size ≤ bufferSize) (hgone : k.sched.Gone m.sender) :
    step k action = .error (.sched .wakeUnknown) := by
  have hp := hrecv.2.1
  have hmem : m ∈ port.queue := hq ▸ .head _
  have hint := (h.honest.ports port (List.mem_of_getElem? hp)).queue_intact hmem
  have hc := h.sender port (List.mem_of_getElem? hp) m hmem
  have hacc := h.sane.accounted
  have hw : taskWake k.sched m.sender = .error .wakeUnknown :=
    (taskWake_error_iff hacc.distinct).mpr
      ⟨rfl, fun hf => (hacc.findable_iff_not_gone hc).mp hf hgone⟩
  obtain ⟨portNumber, outsize, hstep⟩ := hrecv.step_eq h.sane
  rw [hstep, recvLoop_eq_of_cons h.sane.unlocked hp hq hint, if_pos hsize]
  simp only [hw, lift, error_bind]

/-- **When `task_wake` brings the kernel down.** In every state that the system calls and the timer
can reach, a step trips the assertion or the panic of `task_wake` exactly when it sends to a port
whose owner has exited, or takes a message whose sender has exited. -/
theorem wake_fails_iff_of_reach (h : Reach step (fun _ _ => True) boot k) (action : Action) :
    (step k action = .error (.sched .wakeUnknown) ∨ step k action = .error (.sched .wakeLost)) ↔
      k.WakesGone action := by
  have hk : Recorded k := h.invariant recorded_boot fun _ _ _ hk _ hs => hk.step hs
  have hacc := hk.sane.accounted
  constructor
  · rintro (herr | herr)
    · cases (step_ends hk.sane).of_error herr with
      | sendGone hsends hmsg hfind hp hnot =>
        have hc := hk.receiver _ (List.mem_of_getElem? hp)
        exact .inl ⟨_, _, _, _, hsends, hmsg, hfind, hp,
          not_not.mp (mt (hacc.findable_iff_not_gone hc).mpr hnot)⟩
      | recvGone hrecv hq hint hsize hnot =>
        have hc := hk.sender _ (List.mem_of_getElem? hrecv.2.1) _ (hq ▸ List.mem_cons_self ..)
        exact .inr ⟨_, _, _, _, _, hrecv, hq, hsize,
          not_not.mp (mt (hacc.findable_iff_not_gone hc).mpr hnot)⟩
    · exact nomatch (step_ends hk.sane).of_error herr
  · rintro (⟨n, msg, p, port, hsends, hmsg, hfind, hp, hgone⟩ |
      ⟨p, port, size, m, rest, hrecv, hq, hsize, hgone⟩)
    · exact .inl (send_fails hk hsends hmsg hfind hp hgone)
    · exact .inl (receive_fails hk hrecv hq hsize hgone)

/-- A task opens port 5, forks and exits. Its child's message to port 5 does not find it. -/
theorem wake_fails_orphan : ∃ k msg, Reach step (fun _ _ => True) boot k ∧
    step k (.call (.msgsend 5 msg)) = .error (.sched .wakeUnknown) ∧
    k.WakesGone (.call (.msgsend 5 msg)) := by
  obtain ⟨k, hreach, hk⟩ := Reach.exists_of_run step (fun _ _ => True) boot
    [.call (.portopen 5), .call .fork, .call .exit]
    (fun k => step k (.call (.msgsend 5 Message.zero)) = .error (.sched .wakeUnknown))
    (by decide +kernel)
  exact ⟨k, _, hreach, hk, (wake_fails_iff_of_reach hreach _).mp (.inl hk)⟩

/-- The assertion in `task_wake` can be reached, by calls of `portopen`, `fork`, `exit` and
`msgsend`. -/
theorem wake_not_safe : ¬ ∀ k action, Reach step (fun _ _ => True) boot k →
    step k action ≠ .error (.sched .wakeUnknown) ∧ step k action ≠ .error (.sched .wakeLost) := by
  intro hall
  obtain ⟨k, hreach, hk⟩ := Reach.exists_of_run step (fun _ _ => True) boot
    [.call (.portopen 5), .call .fork, .call .exit]
    (fun k => step k (.call (.msgsend 5 Message.zero)) = .error (.sched .wakeUnknown))
    (by decide +kernel)
  exact (hall k _ hreach).1 hk

end Rastapopoulos.Ipc
