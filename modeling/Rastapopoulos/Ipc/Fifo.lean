import Rastapopoulos.Ipc.Frame

/-!
# Messages arrive unchanged and in order

In every run, what was taken from a port, followed by what is still queued on it, is what was queued
on it, in order; what was queued is the sender's buffer with the sender filled in; and only the task
that opened the port takes from it (`Honest`). When the tasks use the library's `msgsend` and
`msgrecv`, none of the checksum tests fails (`messages_intact_of_reach`).
-/

namespace Rastapopoulos.Ipc

open Scheduler

variable {k k' : Kernel} {action : Action} {table : PortTable} {port port' : Port}

/-- The histories and the queue of a port fit together. -/
structure Port.Faithful (port : Port) : Prop where
  fifo : port.taken.map Taken.message ++ port.queue = port.sent.map Sent.copy
  receiver : ∀ t ∈ port.taken, t.receiver = port.receiver
  copy : ∀ s ∈ port.sent, s.copy = s.buffer.stamp s.sender

theorem Port.Faithful.queue_intact (h : port.Faithful) {m : Message} (hm : m ∈ port.queue) :
    m.Intact := by
  have : m ∈ port.sent.map Sent.copy := h.fifo ▸ List.mem_append_right _ hm
  obtain ⟨s, hs, rfl⟩ := List.mem_map.mp this
  rw [h.copy s hs]
  exact Message.stamp_intact _ _

theorem Port.faithful_newPort (number receiver : Word) : (newPort number receiver).Faithful :=
  ⟨rfl, by simp [newPort], by simp [newPort]⟩

theorem Port.Faithful.push (h : port.Faithful) (sender : Word) (msg : Message) :
    (port.push ⟨sender, msg, msg.stamp sender⟩).Faithful where
  fifo := by
    rw [Port.push, ← List.append_assoc, h.fifo, List.map_append, List.map_singleton]
  receiver := h.receiver
  copy := by
    intro s hs
    rcases List.mem_append.mp hs with hs | hs
    · exact h.copy s hs
    · rw [List.mem_singleton.mp hs]

theorem Port.Faithful.pop (h : port.Faithful) {m : Message} {rest : List Message}
    (hq : port.queue = m :: rest) : (port.pop ⟨port.receiver, m⟩).Faithful where
  fifo := by
    have := h.fifo
    rw [hq] at this
    simpa [Port.pop, hq] using this
  receiver := by
    intro t ht
    rcases List.mem_append.mp ht with ht | ht
    · exact h.receiver t ht
    · rw [List.mem_singleton.mp ht]
      rfl
  copy := h.copy

/-! ## Where tasks stand -/

/-- The port at `p` was opened by the task. -/
def PortTable.Owns (table : PortTable) (pid : Word) (p : ℕ) : Prop :=
  ∃ port, table.ports[p]? = some port ∧ port.receiver = pid

variable {pid : Word} {p : ℕ}

theorem PortTable.Owns.step (hk : Sane k) (hs : Ipc.step k action = .ok k')
    (h : k.table.Owns pid p) : k'.table.Owns pid p := by
  obtain ⟨port, hp, hrecv⟩ := h
  obtain ⟨port', hp', hgrows⟩ := step_grows hk hs hp
  exact ⟨port', hp', hgrows.receiver.trans hrecv⟩

/-- The message with the index `i` on the port at `p` was sent by the task. -/
def PortTable.SentBy (table : PortTable) (pid : Word) (p i : ℕ) : Prop :=
  ∃ port s, table.ports[p]? = some port ∧ port.sent[i]? = some s ∧ s.sender = pid

theorem PortTable.SentBy.step (hk : Sane k) (hs : Ipc.step k action = .ok k')
    {i : ℕ} (h : k.table.SentBy pid p i) : k'.table.SentBy pid p i := by
  obtain ⟨port, s, hp, hi, hpid⟩ := h
  obtain ⟨port', hp', hgrows⟩ := step_grows hk hs hp
  obtain ⟨l, hl⟩ := hgrows.sent
  refine ⟨port', s, hp', ?_, hpid⟩
  rw [← hl, List.getElem?_append_left (List.getElem?_eq_some_iff.mp hi).1, hi]

/-- A task may stand here: a message in its hands is intact and was taken by it, a message whose
sending it waits for is its own, and so is a port it waits at. -/
def Cont.Sound (table : PortTable) (pid : Word) : Cont → Prop
  | .user outcome => ∀ m, outcome.buffer = some m →
      m.Intact ∧ ∃ port ∈ table.ports, ⟨pid, m⟩ ∈ port.taken
  | .sendTaken p i => table.SentBy pid p i
  | .recv p portNumber _ _ | .wait p portNumber => table.Owns pid p ∧ 0 ≤ portNumber.toInt
  | .sendOpen _ _ | .sleep => True

/-- What every step maintains. -/
structure Honest (k : Kernel) : Prop where
  sane : Sane k
  ports : ∀ port ∈ k.table.ports, port.Faithful
  conts : ∀ t ∈ k.sched.all, t.context.Sound k.table t.pid

theorem Honest.current (h : Honest k) :
    k.sched.current.context.Sound k.table k.sched.current.pid :=
  h.conts _ (.head _)

/-- A task that receives owns the port, and its number is not negative. -/
theorem Honest.receives (h : Honest k) {portNumber : Word} {syscall : Syscall} {cont : Cont}
    (hp : k.table.ports[p]? = some port)
    (hsound : cont.Sound k.table k.sched.current.pid →
      k.table.Owns k.sched.current.pid p ∧ 0 ≤ portNumber.toInt)
    (hmay : k.MayRecv action p port portNumber syscall cont) :
    port.receiver = k.sched.current.pid ∧ 0 ≤ portNumber.toInt := by
  rcases hmay with ⟨-, -, hfind, hrecv⟩ | ⟨-, hctx⟩
  · obtain ⟨-, -, -, hpos⟩ := PortTable.find_eq_some hfind
    exact ⟨hrecv, hpos⟩
  · obtain ⟨⟨port', hp', hrecv⟩, hpos⟩ := hsound (hctx ▸ h.current)
    cases hp.symm.trans hp'
    exact ⟨hrecv, hpos⟩

theorem Honest.step_ports (h : Honest k) (hs : step k action = .ok k') :
    ∀ port ∈ k'.table.ports, port.Faithful := by
  intro port' hmem
  obtain ⟨p, hp'⟩ := List.getElem?_of_mem hmem
  cases step_port h.sane hs hp' with
  | keep hp => exact h.ports _ (List.mem_of_getElem? hp)
  | opened => exact Port.faithful_newPort _ _
  | push hp => exact (h.ports _ (List.mem_of_getElem? hp)).push _ _
  | pop hp hmay hqueue =>
    rw [← (h.receives hp id hmay).1]
    exact (h.ports _ (List.mem_of_getElem? hp)).pop hqueue

theorem Cont.Sound.step (hk : Sane k) (hs : Ipc.step k action = .ok k') {cont : Cont}
    (h : cont.Sound k.table pid) : cont.Sound k'.table pid := by
  cases cont with
  | user outcome =>
    intro m hm
    obtain ⟨hint, port, hmem, htaken⟩ := h m hm
    obtain ⟨p, hp⟩ := List.getElem?_of_mem hmem
    obtain ⟨port', hp', hgrows⟩ := step_grows hk hs hp
    exact ⟨hint, port', List.mem_of_getElem? hp', hgrows.taken.subset htaken⟩
  | sendOpen => trivial
  | sendTaken p i => exact PortTable.SentBy.step hk hs h
  | recv p => exact ⟨h.1.step hk hs, h.2⟩
  | wait p => exact ⟨h.1.step hk hs, h.2⟩
  | sleep => trivial

theorem Honest.step_conts (h : Honest k) (hs : step k action = .ok k') :
    ∀ t ∈ k'.sched.all, t.context.Sound k'.table t.pid := by
  intro t ht
  cases step_task h.sane hs ht with
  | keep hold => exact (h.conts t hold).step h.sane hs
  | child hchild =>
    subst hchild
    exact fun m hm => nomatch hm
  | moved hpid hmove =>
    rw [hpid]
    generalize t.context = cont at hmove
    cases hmove with
    | value => exact fun m hm => nomatch hm
    | small => exact fun m hm => nomatch hm
    | took hp hmay hqueue hint hsize htable =>
      intro m' hm'
      cases hm'
      refine ⟨hint, _, htable ▸ List.mem_of_getElem? (PortTable.getElem?_set_self hp _), ?_⟩
      exact List.mem_append_right _ (List.mem_singleton_self _)
    | sendOpen => trivial
    | sendTaken hp _ _ htable =>
      exact ⟨_, _, htable ▸ PortTable.getElem?_set_self hp _, List.getElem?_concat_length, rfl⟩
    | recv hp hmay =>
      obtain ⟨hrecv, hpos⟩ := h.receives hp id hmay
      exact ⟨PortTable.Owns.step h.sane hs ⟨_, hp, hrecv⟩, hpos⟩
    | wait hp hmay =>
      obtain ⟨hrecv, hpos⟩ := h.receives hp id hmay
      exact ⟨PortTable.Owns.step h.sane hs ⟨_, hp, hrecv⟩, hpos⟩
    | sleep => trivial

theorem Honest.step (h : Honest k) (hs : step k action = .ok k') : Honest k' :=
  ⟨h.sane.step hs, h.step_ports hs, h.step_conts hs⟩

theorem honest_boot : Honest boot where
  sane := sane_boot
  ports := by simp [boot, ipcInit]
  conts := by
    intro t ht
    have : t.context = .user (.value 0) := by
      simp only [boot, schedulerStart, Sched.all, Sched.queued, List.mem_cons, List.append_nil,
        List.not_mem_nil, or_false] at ht
      rcases ht with rfl | rfl <;> rfl
    rw [this]
    intro m hm
    cases hm

/-! ## Library calls -/

/-- The library's calls: `msgsend` on the buffer it has prepared, `msgrecv` with a buffer that holds
at least the header, as a `struct message` does. -/
def LibraryCall (_ : Kernel) : Action → Prop
  | .call (.msgsend _ msg) => ∃ buffer, msg = libMsgsend buffer
  | .call (.msgrecv _ bufferSize _) => messageHeaderSize ≤ bufferSize
  | _ => True

theorem libMsgsend_libMsgsend (buffer : Message) :
    libMsgsend (libMsgsend buffer) = libMsgsend buffer := rfl

instance (k : Kernel) : (action : Action) → Decidable (LibraryCall k action)
  | .call (.msgsend _ msg) =>
    decidable_of_iff (msg = libMsgsend msg)
      ⟨fun h => ⟨msg, h⟩, by rintro ⟨buffer, rfl⟩; rw [libMsgsend_libMsgsend]⟩
  | .call (.msgrecv _ bufferSize _) => inferInstanceAs (Decidable (messageHeaderSize ≤ bufferSize))
  | .tick | .resume | .call (.portopen _) | .call (.msgwait _) | .call (.msgpeek _)
  | .call .yield | .call .fork | .call .exit | .call (.sleep _) => .isTrue trivial

/-- Everything sent or waiting to be sent was prepared by the library. -/
structure Prepared (k : Kernel) : Prop where
  honest : Honest k
  sent : ∀ port ∈ k.table.ports, ∀ s ∈ port.sent, ∃ buffer, s.buffer = libMsgsend buffer
  waiting : ∀ t ∈ k.sched.all, ∀ portNumber msg, t.context = .sendOpen portNumber msg →
    ∃ buffer, msg = libMsgsend buffer

theorem Prepared.sends (h : Prepared k) (hq : LibraryCall k action) {portNumber : Word}
    {msg : Message} (hfrom : k.From action (.msgsend portNumber msg) (.sendOpen portNumber msg)) :
    ∃ buffer, msg = libMsgsend buffer := by
  rcases hfrom with ⟨rfl, -⟩ | ⟨-, hctx⟩
  · exact hq
  · exact h.waiting _ (.head _) _ _ hctx

theorem Prepared.step (h : Prepared k) (hq : LibraryCall k action) (hs : step k action = .ok k') :
    Prepared k' := by
  have hk := h.honest.sane
  refine ⟨h.honest.step hs, fun port' hmem s hsent => ?_, fun t ht portNumber msg hctx => ?_⟩
  · obtain ⟨p, hp'⟩ := List.getElem?_of_mem hmem
    cases step_port hk hs hp' with
    | keep hp => exact h.sent _ (List.mem_of_getElem? hp) s hsent
    | opened => exact nomatch hsent
    | push hp hfrom =>
      rcases List.mem_append.mp hsent with hsent | hsent
      · exact h.sent _ (List.mem_of_getElem? hp) s hsent
      · rw [List.mem_singleton.mp hsent]
        exact h.sends hq hfrom
    | pop hp => exact h.sent _ (List.mem_of_getElem? hp) s hsent
  · cases step_task hk hs ht with
    | keep hold => exact h.waiting t hold _ _ hctx
    | child hchild =>
      subst hchild
      exact nomatch hctx
    | moved _ hmove =>
      rw [hctx] at hmove
      cases hmove with
      | sendOpen hfrom => exact h.sends hq hfrom

theorem prepared_boot : Prepared boot where
  honest := honest_boot
  sent := by simp [boot, ipcInit]
  waiting := by
    intro t ht portNumber msg hctx
    have := honest_boot.conts t ht
    simp only [boot, schedulerStart, Sched.all, Sched.queued, List.mem_cons, List.append_nil,
      List.not_mem_nil, or_false] at ht
    rcases ht with rfl | rfl <;> cases hctx

/-- The checksum tests of the kernel. -/
theorem Prepared.no_checksum_fault (h : Prepared k) (hq : LibraryCall k action) :
    Ipc.step k action ≠ .error .sendChecksum ∧ Ipc.step k action ≠ .error .corruptedMessage := by
  constructor
  · intro herr
    cases (step_ends h.honest.sane).of_error herr with
    | sendChecksum hsends hbad =>
      obtain ⟨buffer, rfl⟩ := h.sends hq hsends.2
      exact hbad (Message.stamp_intact _ _)
  · intro herr
    cases (step_ends h.honest.sane).of_error herr with
    | corruptedMessage hreceives hqueue hbad =>
      refine hbad ((h.honest.ports _ (List.mem_of_getElem? hreceives.2.1)).queue_intact ?_)
      rw [hqueue]
      exact .head _

/-! ## Whole runs -/

/-- Only the step that returns a message to the current task takes one. -/
theorem step_taken (hk : Sane k) (hs : step k action = .ok k')
    (hp : k.table.ports[p]? = some port) (hp' : k'.table.ports[p]? = some port') :
    port'.taken = port.taken ∨ ∃ m size, port'.taken = port.taken ++ [⟨k.sched.current.pid, m⟩] ∧
      k'.sched.current.pid = k.sched.current.pid ∧
      k'.sched.current.context = .user ⟨0, size, some m⟩ := by
  by_cases heq : port' = port
  · exact .inl (by rw [heq])
  rcases step_cases hk hs with ⟨-, -, sched, -, rfl⟩ | ⟨-, hm⟩
  · exact absurd (Option.some.inj (hp'.symm.trans hp)) heq
  cases hm with
  | send _ _ _ hport =>
    rcases PortTable.getElem?_set hp' with ⟨rfl, rfl⟩ | ⟨-, hp'⟩
    · cases hport.symm.trans hp
      exact .inl rfl
    · exact absurd (Option.some.inj (hp'.symm.trans hp)) heq
  | recvTake _ hport _ _ _ hw =>
    rcases PortTable.getElem?_set hp' with ⟨rfl, rfl⟩ | ⟨-, hp'⟩
    · cases hport.symm.trans hp
      refine .inr ⟨_, _, rfl, ?_, rfl⟩
      rw [← (taskWake_all hk.accounted.distinct hw).2.1]
      rfl
    · exact absurd (Option.some.inj (hp'.symm.trans hp)) heq
  | portopen _ hopen =>
    rcases portopen_port hk.unlocked.table_free hopen hp' with hp' | ⟨hnone, -⟩
    · exact absurd (Option.some.inj (hp'.symm.trans hp)) heq
    · exact nomatch hnone.symm.trans hp
  | yield | exit | fork | sleep | sendBlock | recvBlock | recvSmall | recvRefused | waitBlock
    | waitReturn | peek | sendReturn | sleepReturn =>
    exact absurd (Option.some.inj (hp'.symm.trans hp)) heq

/-- Only the step of a task that sends to the port queues on it. -/
theorem step_sent (hk : Sane k) (hs : step k action = .ok k')
    (hp : k.table.ports[p]? = some port) (hp' : k'.table.ports[p]? = some port') :
    port'.sent = port.sent ∨ ∃ s, port'.sent = port.sent ++ [s] ∧
      s.sender = k.sched.current.pid ∧ k.Sends action port.number s.buffer := by
  rcases step_cases hk hs with ⟨-, -, sched, -, rfl⟩ | ⟨hne, hm⟩
  · cases hp.symm.trans hp'
    exact .inl rfl
  cases hm.port hk.unlocked hp' with
  | keep hp'' =>
    cases hp.symm.trans hp''
    exact .inl rfl
  | opened hnone => exact nomatch hnone.symm.trans hp
  | push hp'' hfrom _ hfind =>
    cases hp.symm.trans hp''
    obtain ⟨port', hport', hnum, -⟩ := PortTable.find_eq_some hfind
    cases hp.symm.trans hport'
    exact .inr ⟨_, rfl, rfl, hne, hnum ▸ hfrom⟩
  | pop hp'' =>
    cases hp.symm.trans hp''
    exact .inl rfl

/-- What is on record about the messages of a port: those taken are the first ones queued, in order,
all taken by the task that opened the port; and each one queued has the contents of the sender's
buffer and the pid of the sender. -/
structure Port.InOrder (port : Port) : Prop where
  taken_prefix : port.taken.map Taken.message <+: port.sent.map Sent.copy
  taker : ∀ t ∈ port.taken, t.receiver = port.receiver
  contents : ∀ s ∈ port.sent, (∃ buffer, s.buffer = libMsgsend buffer) ∧
    s.copy.sender = s.sender ∧ s.copy.replyPort = s.buffer.replyPort ∧
    s.copy.code = s.buffer.code ∧ s.copy.len = s.buffer.len ∧ s.copy.data = s.buffer.data

theorem Port.Faithful.inOrder (h : port.Faithful)
    (hsent : ∀ s ∈ port.sent, ∃ buffer, s.buffer = libMsgsend buffer) : port.InOrder where
  taken_prefix := ⟨_, h.fifo⟩
  taker := h.receiver
  contents := by
    intro s hs
    rw [h.copy s hs]
    exact ⟨hsent s hs, rfl, rfl, rfl, rfl, rfl⟩

/-- What a step does to the port at `p`: it opens it for the current task; or it leaves its number
and receiver alone, queues at most the message that the current task sends to this port, and takes
at most the message that it returns to the current task. -/
def PortStep (k : Kernel) (action : Action) (k' : Kernel) (p : ℕ) (port' : Port) : Prop :=
  (k.table.ports[p]? = none ∧ port'.receiver = k.sched.current.pid ∧ port'.sent = [] ∧
    port'.taken = []) ∨
  ∃ port, k.table.ports[p]? = some port ∧ port'.number = port.number ∧
    port'.receiver = port.receiver ∧
    (port'.sent = port.sent ∨ ∃ s, port'.sent = port.sent ++ [s] ∧
      s.sender = k.sched.current.pid ∧ k.Sends action port.number s.buffer) ∧
    (port'.taken = port.taken ∨ ∃ m size, port'.taken = port.taken ++ [⟨k.sched.current.pid, m⟩] ∧
      k'.sched.current.pid = k.sched.current.pid ∧
      k'.sched.current.context = .user ⟨0, size, some m⟩)

theorem step_portStep (hk : Sane k) (hs : step k action = .ok k')
    (hp' : k'.table.ports[p]? = some port') : PortStep k action k' p port' := by
  cases hp : k.table.ports[p]? with
  | none =>
    cases step_port hk hs hp' with
    | opened => exact .inl ⟨hp, rfl, rfl, rfl⟩
    | keep h | push h | pop h => exact nomatch hp.symm.trans h
  | some port =>
    have hgrows := (step_port hk hs hp').grows hp
    exact .inr ⟨port, hp, hgrows.number, hgrows.receiver, step_sent hk hs hp hp',
      step_taken hk hs hp hp'⟩

end Rastapopoulos.Ipc
