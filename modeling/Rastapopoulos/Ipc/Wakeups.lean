import Rastapopoulos.Ipc.Lookup

/-!
# Who sleeps, and what for

The two ways in which a task could sleep on although it has something to do. A task asleep in
`msgrecv` or `msgwait` has nothing in the queue of its port, in any run: whoever queues a message
wakes the receiver (`no_lost_wakeup_of_reach`). A task asleep in `msgsend` until a port is open may
sleep on when the port is open: only `msgrecv` wakes such tasks, so a receiver that calls `msgwait`
first and a sender that came before it wait for each other (`exists_standoff`). It does not happen
as long as `msgwait` is not called against a sleeping sender (`no_standoff_of_reach`).
-/

namespace Rastapopoulos.Ipc

open Scheduler

variable {k k' : Kernel} {action : Action}

/-- The port, by pointer and by number, from which a task is about to receive. -/
def Cont.inbox : Cont → Option (ℕ × Word)
  | .recv p portNumber _ _ | .wait p portNumber => some (p, portNumber)
  | .user _ | .sendOpen _ _ | .sendTaken _ _ | .sleep => none

/-- The number of the port that a task in `msgsend` waits for. -/
def Cont.opening : Cont → Option Word
  | .sendOpen portNumber _ => some portNumber
  | .user _ | .sendTaken _ _ | .recv _ _ _ _ | .wait _ _ | .sleep => none

/-- The task has opened the port at `p`, and nothing is queued there. -/
def PortTable.Idle (table : PortTable) (pid : Word) (p : ℕ) : Prop :=
  ∃ port, table.ports[p]? = some port ∧ port.receiver = pid ∧ port.queue = []

variable {p : ℕ} {t : Scheduler.Task Cont} {n : Word}

theorem PortTable.Idle.set_ne {table : PortTable} {pid : Word} {q : ℕ} {port : Port}
    (h : table.Idle pid q) (hne : p ≠ q) : (table.set p port).Idle pid q := by
  obtain ⟨port', hq, hrecv, hempty⟩ := h
  exact ⟨port', (List.getElem?_set_ne hne).trans hq, hrecv, hempty⟩

theorem PortTable.Idle.portopen {table table' : PortTable} {pid receiver number result : Word}
    {q : ℕ} (h : table.Idle pid q) (hl : table.lock = false)
    (hopen : syscallPortopenHandler table receiver number = .ok (table', result)) :
    table'.Idle pid q := by
  obtain ⟨port', hq, hrecv, hempty⟩ := h
  have happend : ∀ port, (table.ports ++ [port])[q]? = some port' := fun port => by
    rw [List.getElem?_append_left (List.getElem?_eq_some_iff.mp hq).1, hq]
  refine ⟨port', ?_, hrecv, hempty⟩
  rcases syscallPortopenHandler_cases hl hopen with ⟨-, -, -, rfl⟩ | ⟨-, -, -, rfl⟩ |
    ⟨-, ⟨-, rfl⟩ | ⟨-, -, rfl⟩⟩
  · exact happend _
  · exact happend _
  · exact hq
  · exact hq

/-! ## Falling asleep -/

/-- What a task that is asleep after a step has to do with it. -/
inductive SleepMove (k : Kernel) (table' : PortTable) (t : Scheduler.Task Cont) : Prop
  /-- It was asleep before, and nothing was queued for it. -/
  | kept : t ∈ k.sched.sleeping →
      (∀ p, k.table.Idle t.pid p → table'.Idle t.pid p) → SleepMove k table' t
  /-- It fell asleep, not to receive. -/
  | other : t.waitCanrecvPort = invalidPort → t.context.inbox = none →
      (∀ portNumber, t.context.opening = some portNumber →
        t.waitCansendPort = portNumber ∧ k.table.find portNumber = none) → SleepMove k table' t
  /-- It fell asleep to receive from its port, which was empty. -/
  | receives {p : ℕ} {portNumber : Word} : t.context.inbox = some (p, portNumber) →
      t.waitCanrecvPort = portNumber → (∃ port, table'.ports[p]? = some port ∧ port.queue = []) →
      SleepMove k table' t

/-- Falling asleep otherwise than to receive. -/
theorem block_sleepMove {sched sched' : Sched Cont} {table' : PortTable}
    {cansendPort timeout : Word} {cont : Cont}
    (h : taskBlock sched invalidPort cansendPort timeout cont = .ok sched')
    (hin : cont.inbox = none)
    (hopen : ∀ n, cont.opening = some n → cansendPort = n ∧ k.table.find n = none)
    (hkept : ∀ t ∈ sched.sleeping, SleepMove k table' t)
    (ht : t ∈ sched'.sleeping) : SleepMove k table' t := by
  rcases taskBlock_sleeping h t ht with ht | rfl
  · exact hkept t ht
  · exact .other rfl hin hopen

theorem Move.sleeping (hk : Sane k) (hm : Move k action k')
    (ht : t ∈ k'.sched.sleeping) : SleepMove k k'.table t := by
  have hd := hk.accounted.distinct
  cases hm with
  | yield _ hs | exit _ hs => exact .kept (taskSwitchNext_sleeping hs t ht) fun _ => id
  | fork _ hs =>
    obtain ⟨-, rfl⟩ := syscallForkHandler_eq_ok hs
    exact .kept ht fun _ => id
  | sleep _ hb => exact block_sleepMove hb rfl nofun (fun _ hx => .kept hx fun _ => id) ht
  | portopen _ hopen => exact .kept ht fun p hidle => hidle.portopen hk.unlocked.table_free hopen
  | sendBlock _ _ hnone hb =>
    refine block_sleepMove hb rfl ?_ (fun _ hx => .kept hx fun _ => id) ht
    rintro n ⟨⟩
    exact ⟨rfl, hnone⟩
  | send _ _ _ hp hw hb =>
    refine block_sleepMove hb rfl nofun (fun x hx => ?_) ht
    -- the receiver has been woken
    obtain ⟨hx, hne⟩ := taskWake_sleeping hd hw x hx
    refine .kept hx fun q hidle => hidle.set_ne ?_
    rintro rfl
    obtain ⟨port', hp', hrecv, -⟩ := hidle
    cases hp.symm.trans hp'
    exact hne hrecv.symm
  | recvBlock _ hp hq hw hb =>
    rcases taskBlock_sleeping hb t ht with ht | rfl
    · exact .kept (wakeTasksWaitingForPort_sleeping hd hw t ht).1 fun _ => id
    · exact .receives rfl rfl ⟨_, hp, hq⟩
  | waitBlock _ hp hq hb =>
    rcases taskBlock_sleeping hb t ht with ht | rfl
    · exact .kept ht fun _ => id
    · exact .receives rfl rfl ⟨_, hp, hq⟩
  | recvTake _ hp hq _ _ hw =>
    obtain ⟨hx, -⟩ := taskWake_sleeping hd hw t ht
    refine .kept hx fun q hidle => hidle.set_ne ?_
    rintro rfl
    obtain ⟨port', hp', -, hempty⟩ := hidle
    cases hp.symm.trans hp'
    exact nomatch hq.symm.trans hempty
  | recvSmall | recvRefused | waitReturn | peek | sendReturn | sleepReturn =>
    exact .kept ht fun _ => id

/-- **Who can be asleep after a step.** -/
theorem step_sleeping (hk : Sane k) (hs : step k action = .ok k')
    (ht : t ∈ k'.sched.sleeping) : SleepMove k k'.table t := by
  rcases step_cases hk hs with ⟨-, -, sched, hirq, rfl⟩ | ⟨-, hm⟩
  · exact .kept (irqHandler_sleeping hirq t ht) fun _ => id
  · exact hm.sleeping hk ht

/-! ## Receivers -/

/-- What every step maintains: who is about to receive has a port that is found by its number, and
who sleeps waits for what its record says. -/
structure Attentive (k : Kernel) : Prop where
  honest : Honest k
  found : ∀ t ∈ k.sched.all, ∀ p n, t.context.inbox = some (p, n) → k.table.find n = some p
  empty : ∀ t ∈ k.sched.sleeping, ∀ p n, t.context.inbox = some (p, n) →
    t.waitCanrecvPort = n ∧ ∃ port, k.table.ports[p]? = some port ∧ port.queue = []
  other : ∀ t ∈ k.sched.sleeping, t.context.inbox = none → t.waitCanrecvPort = invalidPort

theorem mem_all_of_sleeping (ht : t ∈ k.sched.sleeping) :
    t ∈ k.sched.all := by
  simp [Sched.all, Sched.queued, ht]

/-- A task about to receive owns the port. -/
theorem Honest.owns_inbox (h : Honest k) (ht : t ∈ k.sched.all)
    (hin : t.context.inbox = some (p, n)) : k.table.Owns t.pid p := by
  have hsound := h.conts t ht
  revert hin hsound
  cases t.context with
  | recv | wait =>
    rintro ⟨⟩ hsound
    exact hsound.1
  | user | sendOpen | sendTaken | sleep => exact fun hin => nomatch hin

/-- The port of a task about to receive was found by its number, or it was about to receive
before. -/
theorem ContMove.inbox {cont : Cont} (h : ContMove k action k' cont)
    (hin : cont.inbox = some (p, n)) :
    k.table.find n = some p ∨ k.sched.current.context.inbox = some (p, n) := by
  cases h with
  | recv _ hmay | wait _ hmay =>
    cases hin
    rcases hmay with ⟨-, -, hfind, -⟩ | ⟨-, hctx⟩
    · exact .inl hfind
    · rw [hctx]
      exact .inr rfl
  | value | small | took | sendOpen | sendTaken | sleep => cases hin

theorem Attentive.step (h : Attentive k) (hs : step k action = .ok k') : Attentive k' := by
  have hk := h.honest.sane
  refine ⟨h.honest.step hs, fun t ht p n hin => ?_, fun t ht p n hin => ?_, fun t ht hin => ?_⟩
  · refine step_find hk hs ?_
    cases step_task hk hs ht with
    | keep hold => exact h.found t hold p n hin
    | child hchild =>
      rw [hchild] at hin
      cases hin
    | moved _ hmove =>
      rcases hmove.inbox hin with hfind | hcur
      · exact hfind
      · exact h.found _ (.head _) p n hcur
  · cases step_sleeping hk hs ht with
    | kept hold hidle =>
      obtain ⟨hwait, port, hp, hempty⟩ := h.empty t hold p n hin
      obtain ⟨port', hp', hrecv⟩ := h.honest.owns_inbox (mem_all_of_sleeping hold) hin
      cases hp.symm.trans hp'
      obtain ⟨port', hp', -, hempty'⟩ := hidle p ⟨port, hp, hrecv, hempty⟩
      exact ⟨hwait, port', hp', hempty'⟩
    | other _ hnone => exact nomatch hnone.symm.trans hin
    | receives hin' hwait hempty =>
      cases hin'.symm.trans hin
      exact ⟨hwait, hempty⟩
  · cases step_sleeping hk hs ht with
    | kept hold _ => exact h.other t hold hin
    | other hwait => exact hwait
    | receives hin' => exact nomatch hin.symm.trans hin'

theorem attentive_boot : Attentive boot where
  honest := honest_boot
  found := by
    intro t ht p n hin
    rcases List.mem_cons.mp ht with rfl | ht
    · cases hin
    rcases List.mem_cons.mp ht with rfl | ht
    · cases hin
    · cases ht
  empty := nofun
  other := nofun

theorem attentive_of_reach (h : Reach step (fun _ _ => True) boot k) : Attentive k :=
  h.invariant attentive_boot fun _ _ _ hinv _ hs => hinv.step hs

/-- **No lost wake-up.** If a task is asleep and `wait_canrecv_port` is a port, then `port_get`
finds that port, the task is its receiver, and its queue is empty; so a task asleep in `msgrecv` or
`msgwait` has no message queued for it. -/
theorem no_lost_wakeup_of_reach (h : Reach step (fun _ _ => True) boot k)
    {t : Scheduler.Task Cont} (ht : t ∈ k.sched.sleeping) :
    (t.waitCanrecvPort ≠ invalidPort → ∃ p port,
      portGet k.table t.waitCanrecvPort = .ok (k.table, some p) ∧ k.table.ports[p]? = some port ∧
      port.receiver = t.pid ∧ port.queue = []) ∧
    ∀ p n, t.context.inbox = some (p, n) → ∃ port, k.table.ports[p]? = some port ∧
      port.receiver = t.pid ∧ port.number = n ∧ port.queue = [] := by
  have hinv := attentive_of_reach h
  have hreceives : ∀ p n, t.context.inbox = some (p, n) → t.waitCanrecvPort = n ∧
      k.table.find n = some p ∧ ∃ port, k.table.ports[p]? = some port ∧ port.receiver = t.pid ∧
      port.number = n ∧ port.queue = [] := by
    intro p n hin
    have hall := mem_all_of_sleeping ht
    obtain ⟨hwait, port, hp, hempty⟩ := hinv.empty t ht p n hin
    obtain ⟨port', hp', hrecv⟩ := hinv.honest.owns_inbox hall hin
    cases hp.symm.trans hp'
    have hfind := hinv.found t hall p n hin
    obtain ⟨port', hp', hnum, -⟩ := PortTable.find_eq_some hfind
    cases hp.symm.trans hp'
    exact ⟨hwait, hfind, port, hp, hrecv, hnum, hempty⟩
  refine ⟨fun hne => ?_, fun p n hin => (hreceives p n hin).2.2⟩
  cases hin : t.context.inbox with
  | none => exact absurd (hinv.other t ht hin) hne
  | some pn =>
    obtain ⟨p, n⟩ := pn
    obtain ⟨rfl, hfind, port, hp, hrecv, -, hempty⟩ := hreceives p n hin
    refine ⟨p, port, ?_, hp, hrecv, hempty⟩
    rw [portGet_eq hinv.honest.sane.unlocked.table_free, hfind]

/-- A child waits for its parent, and later for nothing: its port is empty while it sleeps. -/
theorem no_lost_wakeup_child : ∃ k t, Reach step (fun _ _ => True) boot k ∧ t ∈ k.sched.sleeping ∧
    t.waitCanrecvPort = 5 ∧ ∃ p port, portGet k.table 5 = .ok (k.table, some p) ∧
      k.table.ports[p]? = some port ∧ port.receiver = t.pid ∧ port.queue = [] := by
  obtain ⟨k, hreach, t, ht, hwait⟩ := Reach.exists_of_run step (fun _ _ => True) boot
    [.call .fork, .call (.portopen 5), .call (.msgrecv 5 100 true)]
    (fun k => ∃ t ∈ k.sched.sleeping, t.waitCanrecvPort = 5) (by decide +kernel)
  refine ⟨k, t, hreach, ht, hwait, ?_⟩
  have hport := (no_lost_wakeup_of_reach hreach ht).1 (by rw [hwait]; decide)
  rwa [hwait] at hport

/-! ## Senders that wait for a port to be open -/

/-- Nobody is asleep until the port with this number is open. -/
def Kernel.Heard (k : Kernel) (n : Word) : Prop :=
  ∀ t ∈ k.sched.sleeping, t.context.opening ≠ some n

/-- A port is open, a sender sleeps until it is, and the receiver sleeps until it has a message. -/
def Standoff (k : Kernel) : Prop :=
  ∃ port ∈ k.table.ports,
    (∃ s ∈ k.sched.sleeping, s.context.opening = some port.number ∧
      s.waitCansendPort = port.number) ∧
    ∃ r ∈ k.sched.sleeping, r.pid = port.receiver ∧
      r.context.inbox.map Prod.snd = some port.number ∧ r.waitCanrecvPort = port.number

instance : DecidablePred Standoff := fun k => by
  unfold Standoff
  infer_instance

/-- A sender came first, and the receiver calls `msgwait`. -/
theorem exists_standoff : ¬ ∀ k, Reach step (fun _ _ => True) boot k → ¬ Standoff k := by
  intro hall
  let hello : Message := libMsgsend .zero
  obtain ⟨k, hreach, hstand⟩ := Reach.exists_of_run step (fun _ _ => True) boot
    [.call .fork, .call (.msgsend 5 hello), .call (.portopen 5), .call (.msgwait 5)]
    Standoff (by decide +kernel)
  exact hall k hreach hstand

/-- `msgwait` does not put a receiver to sleep while a sender sleeps until the port is open. -/
def Heeds (k : Kernel) : Action → Prop
  | .call (.msgwait n) => ∀ port, k.table.lookup n = some port →
      port.receiver = k.sched.current.pid → port.queue = [] → k.Heard n
  | _ => True

/-- A task that comes to wait for a message finds its port empty. Either it calls `msgwait`, or it
wakes the senders that wait for the port. -/
theorem Move.inbox (hk : Sane k) (hm : Move k action k')
    (ht : t ∈ k'.sched.all) (hin : t.context.inbox = some (p, n)) :
    t ∈ k.sched.all ∨ k.sched.current.context.inbox = some (p, n) ∨
      ∃ port, k.table.find n = some p ∧ k.table.ports[p]? = some port ∧
        port.receiver = k.sched.current.pid ∧ port.queue = [] ∧
        (action = .call (.msgwait n) ∨ ∀ s ∈ k'.sched.sleeping, s.waitCansendPort ≠ n) := by
  have hd := hk.accounted.distinct
  have hret : ∀ {k₁ : Kernel} {outcome : Outcome}, (∀ x ∈ k₁.sched.all, x ∈ k.sched.all) →
      t ∈ (ret k₁ outcome).sched.all → t ∈ k.sched.all := by
    intro k₁ outcome hall ht
    rcases List.mem_cons.mp ht with rfl | ht
    · cases hin
    · exact hall t (.tail _ ht)
  cases hm with
  | yield _ hs => exact .inl ((syscallYieldHandler_all hs).2.2 t ht)
  | exit _ hs => exact .inl ((syscallExitHandler_all hs).2.2 t ht)
  | fork _ hs =>
    obtain ⟨-, rfl⟩ := syscallForkHandler_eq_ok hs
    simp only [Sched.all, Sched.queued, ret, List.mem_cons, List.mem_append, List.not_mem_nil,
      or_false] at ht ⊢
    rcases ht with rfl | rfl | ((ht | rfl) | ht) | ht
    · cases hin
    · exact .inl (.inr (.inl rfl))
    · exact .inl (.inr (.inr (.inl (.inl ht))))
    · cases hin
    · exact .inl (.inr (.inr (.inl (.inr ht))))
    · exact .inl (.inr (.inr (.inr ht)))
  | sleep _ hb | sendBlock _ _ _ hb =>
    rcases (taskBlock_all hb).2.2 t ht with hold | rfl
    · exact .inl hold
    · cases hin
  | send _ _ _ _ hw hb =>
    rcases (taskBlock_all hb).2.2 t ht with hold | rfl
    · exact .inl ((taskWake_all hd hw).2.2.2 t hold)
    · cases hin
  | recvBlock hmay hp hq hw hb =>
    obtain ⟨-, -, -, hall⟩ := wakeTasksWaitingForPort_all hd hw
    rcases (taskBlock_all hb).2.2 t ht with hold | rfl
    · exact .inl (hall t hold)
    cases hin
    rcases hmay with ⟨-, -, hfind, hrecv⟩ | ⟨-, hctx⟩
    · refine .inr (.inr ⟨_, hfind, hp, hrecv, hq, .inr fun s hs => ?_⟩)
      rcases taskBlock_sleeping hb s hs with hs | rfl
      · exact (wakeTasksWaitingForPort_sleeping hd hw s hs).2
      · obtain ⟨-, -, -, hpos⟩ := PortTable.find_eq_some hfind
        intro heq
        rw [← show invalidPort = n from heq] at hpos
        exact absurd hpos (by decide)
    · rw [hctx]
      exact .inr (.inl rfl)
  | waitBlock hmay hp hq hb =>
    rcases (taskBlock_all hb).2.2 t ht with hold | rfl
    · exact .inl hold
    cases hin
    rcases hmay with ⟨hact, -, hfind, hrecv⟩ | ⟨-, hctx⟩
    · exact .inr (.inr ⟨_, hfind, hp, hrecv, hq, .inl hact⟩)
    · rw [hctx]
      exact .inr (.inl rfl)
  | recvTake _ _ _ _ _ hw => exact .inl (hret (taskWake_all hd hw).2.2.2 ht)
  | portopen | recvSmall | recvRefused | waitReturn | peek | sendReturn | sleepReturn =>
    exact .inl (hret (fun _ hx => hx) ht)

/-- What holds in runs that heed waiting senders. -/
structure Heedful (k : Kernel) : Prop where
  attentive : Attentive k
  opens : ∀ t ∈ k.sched.sleeping, ∀ n, t.context.opening = some n → t.waitCansendPort = n
  heard : ∀ t ∈ k.sched.all, ∀ p n, t.context.inbox = some (p, n) → k.Heard n

theorem Heedful.step (h : Heedful k) (hq : Heeds k action) (hs : step k action = .ok k') :
    Heedful k' := by
  have hk := h.attentive.honest.sane
  have hopens : ∀ s ∈ k'.sched.sleeping, ∀ n, s.context.opening = some n →
      (s ∈ k.sched.sleeping ∨ k.table.find n = none) ∧ s.waitCansendPort = n := by
    intro s hsleep n hopen
    cases step_sleeping hk hs hsleep with
    | kept hold => exact ⟨.inl hold, h.opens s hold n hopen⟩
    | other _ _ hother => exact ⟨.inr (hother n hopen).2, (hother n hopen).1⟩
    | receives hin =>
      revert hin hopen
      cases s.context <;> nofun
  refine ⟨h.attentive.step hs, fun s hsleep n hopen => (hopens s hsleep n hopen).2, ?_⟩
  intro t ht p n hin s hsleep hopen
  obtain ⟨hold, hwait⟩ := hopens s hsleep n hopen
  -- a sender that already slept, on a port that the receiver had or has just been given
  have hclash : ∀ {t : Scheduler.Task Cont}, t ∈ k.sched.all → t.context.inbox = some (p, n) →
      False := by
    intro t ht hin
    rcases hold with hold | hnone
    · exact h.heard t ht p n hin s hold hopen
    · exact nomatch hnone.symm.trans (h.attentive.found t ht p n hin)
  rcases step_cases hk hs with ⟨-, -, sched, hirq, rfl⟩ | ⟨-, hm⟩
  · exact hclash ((irqHandler_all hirq).2.2 t ht) hin
  rcases hm.inbox hk ht hin with hmem | hcur | ⟨port, hfind, hp, hrecv, hempty, hact | hwoken⟩
  · exact hclash hmem hin
  · exact hclash (.head _) hcur
  · subst hact
    rcases hold with hold | hnone
    · exact hq port (PortTable.lookup_of_find hfind hp) hrecv hempty s hold hopen
    · exact nomatch hnone.symm.trans hfind
  · exact hwoken s hsleep hwait

theorem heedful_boot : Heedful boot where
  attentive := attentive_boot
  opens := nofun
  heard := fun _ _ _ _ _ _ hs => nomatch hs

/-- **No stand-off**, in any run in which `msgwait` heeds waiting senders. -/
theorem no_standoff_of_reach (h : Reach step Heeds boot k) : ¬ Standoff k := by
  have hinv : Heedful k := h.invariant heedful_boot fun _ _ _ hinv hq hs => hinv.step hq hs
  rintro ⟨port, -, ⟨s, hs, hopen, -⟩, r, hr, -, hin, -⟩
  obtain ⟨⟨p, n⟩, hin, rfl⟩ := Option.map_eq_some_iff.mp hin
  exact hinv.heard r (mem_all_of_sleeping hr) p _ hin s hs hopen

/-- The sender came first here too, and the receiver calls `msgrecv`. -/
theorem no_standoff_recv : ∃ k, Reach step Heeds boot k ∧
    (∃ port ∈ k.table.ports, port.number = 5 ∧ port.sent.length = 1) ∧ ¬ Standoff k := by
  let hello : Message := libMsgsend .zero
  let allowed : Action → Bool := fun action =>
    match action with
    | .call (.msgwait _) => false
    | _ => true
  obtain ⟨k, hreach, hk⟩ := Reach.exists_of_run step (fun _ action => allowed action = true) boot
    [.call .fork, .call (.msgsend 5 hello), .call (.portopen 5), .call (.msgrecv 5 100 true), .resume]
    (fun k => ∃ port ∈ k.table.ports, port.number = 5 ∧ port.sent.length = 1) (by decide +kernel)
  have hheeds : Reach step Heeds boot k := by
    refine hreach.mono fun k action hact => ?_
    cases action with
    | tick | resume => trivial
    | call syscall =>
      cases syscall with
      | msgwait => exact nomatch hact
      | portopen | msgsend | msgrecv | msgpeek | yield | fork | exit | sleep => trivial
  exact ⟨k, hheeds, hk, no_standoff_of_reach hheeds⟩

end Rastapopoulos.Ipc
