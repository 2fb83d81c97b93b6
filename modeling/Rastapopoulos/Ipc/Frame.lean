import Rastapopoulos.Ipc.Steps

/-!
# What a step leaves of each port and of each task

A step changes at most one port and the record of at most one task, and it may add one of each.
`step_port` says what the port at an index can be after a step, and `step_task` what a task can be;
the invariants of the message queues are derived from these two.
-/

namespace Rastapopoulos.Ipc

open Scheduler

variable {k k' : Kernel} {action : Action}

/-! ## Ports -/

/-- What the port at the index `p` can be after a step from `k`. -/
inductive PortMove (k : Kernel) (action : Action) (p : ℕ) : Port → Prop
  | keep {port : Port} : k.table.ports[p]? = some port → PortMove k action p port
  | opened {number : Word} : k.table.ports[p]? = none →
      PortMove k action p (newPort number k.sched.current.pid)
  | push {port : Port} {portNumber : Word} {msg : Message} : k.table.ports[p]? = some port →
      k.From action (.msgsend portNumber msg) (.sendOpen portNumber msg) → msg.Intact →
      k.table.find portNumber = some p →
      PortMove k action p (port.push ⟨k.sched.current.pid, msg, msg.stamp k.sched.current.pid⟩)
  | pop {port : Port} {portNumber : Word} {bufferSize : ℕ} {outsize : Bool} {m : Message}
      {rest : List Message} : k.table.ports[p]? = some port →
      k.MayRecv action p port portNumber (.msgrecv portNumber bufferSize outsize)
        (.recv p portNumber bufferSize outsize) →
      port.queue = m :: rest → m.Intact → m.size ≤ bufferSize →
      PortMove k action p (port.pop ⟨k.sched.current.pid, m⟩)

variable {p : ℕ} {t : Scheduler.Task Cont}

theorem PortTable.getElem?_set {table : PortTable} {q : ℕ} {port port' : Port}
    (h : (table.set p port).ports[q]? = some port') :
    (q = p ∧ port' = port) ∨ (q ≠ p ∧ table.ports[q]? = some port') := by
  rw [PortTable.set, List.getElem?_set] at h
  split at h
  · rename_i heq
    split at h
    · exact .inl ⟨heq.symm, (Option.some.inj h).symm⟩
    · cases h
  · rename_i hne
    exact .inr ⟨fun heq => hne heq.symm, h⟩

/-- The ports after a `portopen` call. -/
theorem portopen_port {table table' : PortTable} {receiver number result : Word}
    {port' : Port} (hl : table.lock = false)
    (h : syscallPortopenHandler table receiver number = .ok (table', result))
    (hp : table'.ports[p]? = some port') :
    table.ports[p]? = some port' ∨
      (table.ports[p]? = none ∧ ∃ number', port' = newPort number' receiver) := by
  have happend : ∀ n, (table.ports ++ [newPort n receiver])[p]? = some port' →
      table.ports[p]? = some port' ∨
        (table.ports[p]? = none ∧ ∃ number', port' = newPort number' receiver) := by
    intro n hp
    rcases lt_or_ge p table.ports.length with hlt | hge
    · exact .inl (by rwa [List.getElem?_append_left hlt] at hp)
    · rw [List.getElem?_append_right hge, List.getElem?_singleton] at hp
      split at hp
      · exact .inr ⟨List.getElem?_eq_none hge, n, (Option.some.inj hp).symm⟩
      · exact nomatch hp
  rcases syscallPortopenHandler_cases hl h with ⟨-, -, -, rfl⟩ | ⟨-, -, -, rfl⟩ |
    ⟨-, ⟨-, rfl⟩ | ⟨-, -, rfl⟩⟩
  · exact happend _ hp
  · exact happend _ hp
  · exact .inl hp
  · exact .inl hp

theorem Move.port (hu : k.table.Unlocked) (hm : Move k action k') {port' : Port}
    (hp : k'.table.ports[p]? = some port') : PortMove k action p port' := by
  cases hm with
  | portopen _ hs =>
    rcases portopen_port hu.table_free hs hp with hp | ⟨hnone, number, rfl⟩
    · exact .keep hp
    · exact .opened hnone
  | send hfrom hmsg hfind hport =>
    rcases PortTable.getElem?_set hp with ⟨rfl, rfl⟩ | ⟨-, hp⟩
    · exact .push hport hfrom hmsg hfind
    · exact .keep hp
  | recvTake hmay hport hq hint hsize =>
    rcases PortTable.getElem?_set hp with ⟨rfl, rfl⟩ | ⟨-, hp⟩
    · exact .pop hport hmay hq hint hsize
    · exact .keep hp
  | yield | exit | fork | sleep | sendBlock | recvBlock | recvSmall | recvRefused | waitBlock
    | waitReturn | peek | sendReturn | sleepReturn => exact .keep hp

/-- **What a step leaves of a port.** -/
theorem step_port (hk : Sane k) (h : step k action = .ok k') {port' : Port}
    (hp : k'.table.ports[p]? = some port') : PortMove k action p port' := by
  rcases step_cases hk h with ⟨-, -, sched, -, rfl⟩ | ⟨-, hm⟩
  · exact .keep hp
  · exact hm.port hk.unlocked hp

/-- The port is the same, with longer histories. -/
structure Port.Grows (port port' : Port) : Prop where
  number : port'.number = port.number
  receiver : port'.receiver = port.receiver
  sent : port.sent <+: port'.sent
  taken : port.taken <+: port'.taken

theorem Port.Grows.refl (port : Port) : port.Grows port :=
  ⟨rfl, rfl, List.prefix_refl _, List.prefix_refl _⟩

theorem PortMove.grows {port port' : Port} (hm : PortMove k action p port')
    (hp : k.table.ports[p]? = some port) : port.Grows port' := by
  cases hm with
  | keep hp' =>
    cases hp.symm.trans hp'
    exact .refl port
  | opened hp' => exact nomatch hp.symm.trans hp'
  | push hp' =>
    cases hp.symm.trans hp'
    exact ⟨rfl, rfl, List.prefix_append _ _, List.prefix_refl _⟩
  | pop hp' =>
    cases hp.symm.trans hp'
    exact ⟨rfl, rfl, List.prefix_refl _, List.prefix_append _ _⟩

theorem Move.length_le (hu : k.table.Unlocked) (hm : Move k action k') :
    k.table.ports.length ≤ k'.table.ports.length := by
  cases hm with
  | portopen _ hs =>
    rcases syscallPortopenHandler_cases hu.table_free hs with ⟨-, -, -, rfl⟩ | ⟨-, -, -, rfl⟩ |
      ⟨-, ⟨-, rfl⟩ | ⟨-, -, rfl⟩⟩ <;> simp [ret]
  | send | recvTake => simp [ret, PortTable.set]
  | yield | exit | fork | sleep | sendBlock | recvBlock | recvSmall | recvRefused | waitBlock
    | waitReturn | peek | sendReturn | sleepReturn => exact le_refl _

/-- **Ports stay**, with longer histories. -/
theorem step_grows (hk : Sane k) (h : step k action = .ok k') {port : Port}
    (hp : k.table.ports[p]? = some port) :
    ∃ port', k'.table.ports[p]? = some port' ∧ port.Grows port' := by
  have hlen : k.table.ports.length ≤ k'.table.ports.length := by
    rcases step_cases hk h with ⟨-, -, sched, -, rfl⟩ | ⟨-, hm⟩
    · exact le_refl _
    · exact hm.length_le hk.unlocked
  have hlt : p < k'.table.ports.length :=
    lt_of_lt_of_le (List.getElem?_eq_some_iff.mp hp).1 hlen
  have hp' := List.getElem?_eq_getElem hlt
  exact ⟨_, hp', (step_port hk h hp').grows hp⟩

/-! ## Tasks -/

/-- Where the current task of `k` can stand after a step to `k'`, when it stands elsewhere. -/
inductive ContMove (k : Kernel) (action : Action) (k' : Kernel) : Cont → Prop
  | value {eax : Word} : ContMove k action k' (.user (.value eax))
  | small {size : Option ℕ} : ContMove k action k' (.user ⟨3, size, none⟩)
  | took {p : ℕ} {port : Port} {portNumber : Word} {bufferSize : ℕ} {outsize : Bool} {m : Message}
      {rest : List Message} : k.table.ports[p]? = some port →
      k.MayRecv action p port portNumber (.msgrecv portNumber bufferSize outsize)
        (.recv p portNumber bufferSize outsize) →
      port.queue = m :: rest → m.Intact → m.size ≤ bufferSize →
      k'.table = k.table.set p (port.pop ⟨k.sched.current.pid, m⟩) →
      ContMove k action k' (.user ⟨0, reportedSize outsize m, some m⟩)
  | sendOpen {portNumber : Word} {msg : Message} :
      k.From action (.msgsend portNumber msg) (.sendOpen portNumber msg) →
      (k.sched.current.context.IsUser → msg.Intact) →
      ContMove k action k' (.sendOpen portNumber msg)
  | sendTaken {p : ℕ} {port : Port} {portNumber : Word} {msg : Message} :
      k.table.ports[p]? = some port →
      k.From action (.msgsend portNumber msg) (.sendOpen portNumber msg) →
      k.table.find portNumber = some p →
      k'.table = k.table.set p
        (port.push ⟨k.sched.current.pid, msg, msg.stamp k.sched.current.pid⟩) →
      ContMove k action k' (.sendTaken p port.sent.length)
  | recv {p : ℕ} {port : Port} {portNumber : Word} {bufferSize : ℕ} {outsize : Bool} :
      k.table.ports[p]? = some port →
      k.MayRecv action p port portNumber (.msgrecv portNumber bufferSize outsize)
        (.recv p portNumber bufferSize outsize) →
      ContMove k action k' (.recv p portNumber bufferSize outsize)
  | wait {p : ℕ} {port : Port} {portNumber : Word} : k.table.ports[p]? = some port →
      k.MayRecv action p port portNumber (.msgwait portNumber) (.wait p portNumber) →
      ContMove k action k' (.wait p portNumber)
  | sleep : ContMove k action k' .sleep

/-- What a task can be after a step from `k` to `k'`. -/
inductive TaskMove (k : Kernel) (action : Action) (k' : Kernel) (t : Scheduler.Task Cont) : Prop
  | keep : t ∈ k.sched.all → TaskMove k action k' t
  | child : t = childTask k.sched (.user (.value 0)) → TaskMove k action k' t
  | moved : t.pid = k.sched.current.pid → ContMove k action k' t.context → TaskMove k action k' t

theorem block_task {sched sched' : Sched Cont} {canrecvPort cansendPort timeout : Word} {cont : Cont}
    (hall : ∀ t ∈ sched.all, t ∈ k.sched.all) (hcur : sched.current = k.sched.current)
    (h : taskBlock sched canrecvPort cansendPort timeout cont = .ok sched')
    (hmove : ContMove k action k' cont) (ht : t ∈ sched'.all) :
    TaskMove k action k' t := by
  rcases (taskBlock_all h).2.2 t ht with ht | rfl
  · exact .keep (hall t ht)
  · exact .moved (by rw [← hcur]; rfl) hmove

theorem ret_task {k₁ : Kernel} {outcome : Outcome} (hall : ∀ t ∈ k₁.sched.all, t ∈ k.sched.all)
    (hcur : k₁.sched.current = k.sched.current) (hmove : ContMove k action k' (.user outcome))
    (ht : t ∈ (ret k₁ outcome).sched.all) : TaskMove k action k' t := by
  rcases List.mem_cons.mp ht with rfl | ht
  · exact .moved (by rw [← hcur]; rfl) hmove
  · exact .keep (hall t (.tail _ ht))

theorem Move.task (hk : Sane k) (hm : Move k action k') (ht : t ∈ k'.sched.all) :
    TaskMove k action k' t := by
  have hd := hk.accounted.distinct
  cases hm with
  | yield _ hs => exact .keep ((syscallYieldHandler_all hs).2.2 t ht)
  | exit _ hs => exact .keep ((syscallExitHandler_all hs).2.2 t ht)
  | fork _ hs =>
    obtain ⟨-, rfl⟩ := syscallForkHandler_eq_ok hs
    rcases List.mem_cons.mp ht with rfl | ht
    · exact .moved rfl .value
    · simp only [ret, Sched.queued, List.mem_cons, List.mem_append, List.not_mem_nil,
        or_false] at ht
      by_cases hc : t = childTask k.sched (.user (.value 0))
      · exact .child hc
      · refine .keep ?_
        simp only [Sched.all, Sched.queued, List.mem_cons, List.mem_append]
        tauto
  | sleep _ hs => exact block_task (fun _ h => h) rfl hs .sleep ht
  | portopen _ hs => exact ret_task (fun _ h => h) rfl .value ht
  | sendBlock hfrom hmsg _ hs => exact block_task (fun _ h => h) rfl hs (.sendOpen hfrom hmsg) ht
  | send hfrom _ hfind hp hw hb =>
    obtain ⟨-, hcur, -, hall⟩ := taskWake_all hd hw
    exact block_task hall hcur hb (.sendTaken hp hfrom hfind rfl) ht
  | recvBlock hmay hp _ hw hb =>
    obtain ⟨-, hcur, -, hall⟩ := wakeTasksWaitingForPort_all hd hw
    exact block_task hall hcur hb (.recv hp hmay) ht
  | recvTake hmay hp hq hint hsize hw =>
    obtain ⟨-, hcur, -, hall⟩ := taskWake_all hd hw
    exact ret_task hall hcur (.took hp hmay hq hint hsize rfl) ht
  | recvSmall => exact ret_task (fun _ h => h) rfl .small ht
  | waitBlock hmay hp _ hs => exact block_task (fun _ h => h) rfl hs (.wait hp hmay) ht
  | recvRefused | waitReturn | peek | sendReturn | sleepReturn =>
    exact ret_task (fun _ h => h) rfl .value ht

/-- **What a step leaves of a task.** -/
theorem step_task (hk : Sane k) (h : step k action = .ok k')
    (ht : t ∈ k'.sched.all) : TaskMove k action k' t := by
  rcases step_cases hk h with ⟨-, -, sched, hirq, rfl⟩ | ⟨-, hm⟩
  · exact .keep ((irqHandler_all hirq).2.2 t ht)
  · exact hm.task hk ht

/-! ## Pids -/

theorem Move.nextPid_le (hk : Sane k) (hm : Move k action k') :
    k.sched.nextPid.toNat ≤ k'.sched.nextPid.toNat := by
  have hd := hk.accounted.distinct
  cases hm with
  | yield _ hs => rw [(syscallYieldHandler_all hs).2.1]
  | exit _ hs => rw [(syscallExitHandler_all hs).2.1]
  | fork _ hs =>
    obtain ⟨-, rfl⟩ := syscallForkHandler_eq_ok hs
    have := hk.accounted.nextPid_le
    show _ ≤ (k.sched.nextPid + 1).toNat
    rw [BitVec.toNat_add]
    show _ ≤ (k.sched.nextPid.toNat + 1) % 2 ^ 32
    omega
  | sleep _ hs | sendBlock _ _ _ hs | waitBlock _ _ _ hs => rw [(taskBlock_all hs).2.1]
  | send _ _ _ _ hw hb => rw [(taskBlock_all hb).2.1, (taskWake_all hd hw).2.2.1]
  | recvBlock _ _ _ hw hb =>
    rw [(taskBlock_all hb).2.1, (wakeTasksWaitingForPort_all hd hw).2.2.1]
  | recvTake _ _ _ _ _ hw => exact le_of_eq (congrArg BitVec.toNat (taskWake_all hd hw).2.2.1.symm)
  | portopen | recvSmall | recvRefused | waitReturn | peek | sendReturn | sleepReturn =>
    exact le_refl _

theorem Move.idle_eq (hk : Sane k) (hm : Move k action k') : k'.sched.idle = k.sched.idle := by
  have hd := hk.accounted.distinct
  cases hm with
  | yield _ hs => exact (syscallYieldHandler_all hs).1
  | exit _ hs => exact (syscallExitHandler_all hs).1
  | fork _ hs =>
    obtain ⟨-, rfl⟩ := syscallForkHandler_eq_ok hs
    rfl
  | sleep _ hs | sendBlock _ _ _ hs | waitBlock _ _ _ hs => exact (taskBlock_all hs).1
  | send _ _ _ _ hw hb => exact (taskBlock_all hb).1.trans (taskWake_all hd hw).1
  | recvBlock _ _ _ hw hb => exact (taskBlock_all hb).1.trans (wakeTasksWaitingForPort_all hd hw).1
  | recvTake _ _ _ _ _ hw => exact (taskWake_all hd hw).1
  | portopen | recvSmall | recvRefused | waitReturn | peek | sendReturn | sleepReturn => rfl

theorem step_idle (hk : Sane k) (h : step k action = .ok k') : k'.sched.idle = k.sched.idle := by
  rcases step_cases hk h with ⟨-, -, sched, hirq, rfl⟩ | ⟨-, hm⟩
  · exact (irqHandler_all hirq).1
  · exact hm.idle_eq hk

/-- A pid stays handed out. -/
theorem step_created (hk : Sane k) (h : step k action = .ok k') {pid : Word}
    (hc : k.sched.Created pid) : k'.sched.Created pid := by
  rcases step_cases hk h with ⟨-, -, sched, hirq, rfl⟩ | ⟨-, hm⟩
  · rw [Sched.Created, (irqHandler_all hirq).2.1]
    exact hc
  · exact lt_of_lt_of_le hc (hm.nextPid_le hk)

end Rastapopoulos.Ipc
