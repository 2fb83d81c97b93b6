import Rastapopoulos.Ipc.DeadPeer
import Rastapopoulos.Ipc.Wakeups

/-!
# Receiving that fails

`msgrecv` refuses with 1 or 2, or with 3 when the buffer is too small for the first message. It may
have slept and looked again many times before. None of its looks that takes no message changes a
port, and the only tasks it wakes are those that wait for the port to be opened
(`Kernel.Undisturbed`).

After a 3 the message stays at the head of the queue, whatever is sent behind it, until its owner
calls `msgrecv` again (`Pending`). That call delivers it, provided the sender of the message is
still there to be woken (`failed_receive`).
-/

namespace Rastapopoulos.Ipc

open Scheduler

variable {k k' : Kernel} {action : Action} {portNumber : Word} {bufferSize : ℕ} {outsize : Bool}

/-! ## One look into the queue -/

/-- Who sleeps stays asleep when another task blocks, unless its deadline has passed. -/
theorem mem_sleeping_of_taskBlock {sched sched' : Sched Cont}
    {canrecvPort cansendPort timeout : Word} {cont : Cont}
    (h : taskBlock sched canrecvPort cansendPort timeout cont = .ok sched')
    {t : Scheduler.Task Cont} (ht : t ∈ sched.sleeping) :
    t ∈ sched'.sleeping ∨ due sched.timestamp t = true := by
  have hold := List.mem_append_left
    [blockedTask sched canrecvPort cansendPort timeout cont] ht
  rcases taskSwitchNext_cases h with ⟨l₁, x, l₂, hs, hdue, rfl⟩ | ⟨x, ready, -, rfl⟩ | ⟨-, rfl⟩
  · simp only at hs hdue
    rw [hs, List.mem_append, List.mem_cons] at hold
    rcases hold with hl | rfl | hl
    · exact .inl (List.mem_append_left _ hl)
    · exact .inr hdue
    · exact .inl (List.mem_append_right _ hl)
  · exact .inl hold
  · exact .inl hold

/-- The current task is in `msgrecv`: it makes the call, or goes on with it after a sleep. -/
def Kernel.InMsgrecv (k : Kernel) (action : Action) (portNumber : Word) (bufferSize : ℕ)
    (outsize : Bool) : Prop :=
  k.sched.current.pid ≠ k.sched.idle.pid ∧
    ∃ p, k.From action (.msgrecv portNumber bufferSize outsize)
      (.recv p portNumber bufferSize outsize)

/-- What a look that takes no message may do: the ports stay as they are and no lock is held. A task
stops sleeping because it waited for the port to be opened, or because of its deadline. -/
structure Kernel.Undisturbed (k k' : Kernel) (portNumber : Word) : Prop where
  table : k'.table = k.table
  unlocked : k'.table.Unlocked
  asleep : ∀ t ∈ k.sched.sleeping, t ∈ k'.sched.sleeping ∨ t.waitCansendPort = portNumber ∨
    due k.sched.timestamp t = true

/-- What a step in `msgrecv` can do. -/
inductive Look (k : Kernel) (portNumber : Word) (bufferSize : ℕ) (outsize : Bool) :
    Kernel → Prop
  | sleep {p : ℕ} {sched₁ sched₂ : Sched Cont} :
      wakeTasksWaitingForPort k.sched portNumber = .ok sched₁ →
      taskBlock sched₁ portNumber invalidPort sleepInfinite
        (.recv p portNumber bufferSize outsize) = .ok sched₂ →
      Look k portNumber bufferSize outsize { k with sched := sched₂ }
  | take {p : ℕ} {port : Port} {m : Message} {sched : Sched Cont} :
      taskWake k.sched m.sender = .ok sched →
      Look k portNumber bufferSize outsize
        (ret ⟨sched, k.table.set p (port.pop ⟨k.sched.current.pid, m⟩)⟩
          ⟨0, reportedSize outsize m, some m⟩)
  | small {p : ℕ} {port : Port} {m : Message} {rest : List Message} :
      k.table.find portNumber = some p → k.table.ports[p]? = some port →
      port.receiver = k.sched.current.pid → port.queue = m :: rest → bufferSize < m.size →
      Look k portNumber bufferSize outsize (ret k ⟨3, reportedSize outsize m, none⟩)
  | refused {eax : Word} : eax = 1 ∨ eax = 2 →
      Look k portNumber bufferSize outsize (ret k (.value eax))

/-- The port that a task in `msgrecv` looks at is the one found by the number it gave. -/
theorem Attentive.mayRecv (hk : Attentive k) {p q n b o} {port : Port}
    (hfrom : k.From action (.msgrecv portNumber bufferSize outsize)
      (.recv q portNumber bufferSize outsize))
    (hp : k.table.ports[p]? = some port)
    (hmay : k.MayRecv action p port n (.msgrecv n b o) (.recv p n b o)) :
    (n = portNumber ∧ b = bufferSize ∧ o = outsize) ∧ k.table.find portNumber = some p ∧
      port.receiver = k.sched.current.pid := by
  rcases hfrom with ⟨rfl, -⟩ | ⟨rfl, hctx⟩
  · rcases hmay with ⟨hact, -, hfind, hrecv⟩ | ⟨hact, -⟩
    · cases hact
      exact ⟨⟨rfl, rfl, rfl⟩, hfind, hrecv⟩
    · exact nomatch hact
  · rcases hmay with ⟨hact, -⟩ | ⟨-, hctx'⟩
    · exact nomatch hact
    · cases hctx.symm.trans hctx'
      have hin : k.sched.current.context.inbox = some (p, portNumber) := by rw [hctx]; rfl
      obtain ⟨port', hp', hrecv⟩ := hk.honest.owns_inbox (.head _) hin
      cases hp.symm.trans hp'
      exact ⟨⟨rfl, rfl, rfl⟩, hk.found _ (.head _) p portNumber hin, hrecv⟩

theorem step_look (hk : Attentive k) (hin : k.InMsgrecv action portNumber bufferSize outsize)
    (hs : step k action = .ok k') : Look k portNumber bufferSize outsize k' := by
  obtain ⟨-, q, hfrom⟩ := hin
  have hother : ∀ syscall cont, k.From action syscall cont →
      syscall = .msgrecv portNumber bufferSize outsize ∨
        cont = .recv q portNumber bufferSize outsize := by
    rintro syscall cont (⟨rfl, -⟩ | ⟨rfl, hctx⟩)
    · rcases hfrom with ⟨heq, -⟩ | ⟨heq, -⟩
      · exact .inl (Action.call.inj heq)
      · exact nomatch heq
    · rcases hfrom with ⟨heq, -⟩ | ⟨-, hctx'⟩
      · exact nomatch heq
      · exact .inr (hctx.symm.trans hctx')
  rcases step_cases hk.honest.sane hs with ⟨rfl, -⟩ | ⟨-, hm⟩
  · rcases hfrom with ⟨heq, -⟩ | ⟨heq, -⟩ <;> exact nomatch heq
  cases hm with
  | recvBlock hmay hp _ hw hb =>
    obtain ⟨⟨rfl, rfl, rfl⟩, -⟩ := hk.mayRecv hfrom hp hmay
    exact .sleep hw hb
  | recvTake hmay hp _ _ _ hw =>
    obtain ⟨⟨rfl, rfl, rfl⟩, -⟩ := hk.mayRecv hfrom hp hmay
    exact .take hw
  | recvSmall hmay hp hq hsize =>
    obtain ⟨⟨rfl, rfl, rfl⟩, hfind, hrecv⟩ := hk.mayRecv hfrom hp hmay
    exact .small hfind hp hrecv hq hsize
  | recvRefused _ h =>
    refine .refused ?_
    rcases h with ⟨-, rfl⟩ | ⟨-, -, -, -, -, rfl⟩
    · exact .inl rfl
    · exact .inr rfl
  | sendBlock hfrom' | send hfrom' | waitReturn hfrom' =>
    rcases hother _ _ hfrom' with h | h <;> exact nomatch h
  | waitBlock hmay =>
    rcases hother _ _ (hmay.imp (fun h => ⟨h.1, h.2.1⟩) id) with h | h <;> exact nomatch h
  | yield | exit | fork | sleep | portopen | peek =>
    rcases hfrom with ⟨heq, -⟩ | ⟨heq, -⟩ <;> exact nomatch heq
  | sendReturn hctx' | sleepReturn hctx' =>
    rcases hother (.msgpeek 0) _ (.inr ⟨rfl, hctx'⟩) with h | h <;> exact nomatch h

/-! ## The message that waits -/

/-- The step is not a call of `msgrecv` by the task `pid`. -/
def NoReceive (pid : Word) (k : Kernel) (action : Action) : Prop :=
  k.sched.current.pid = pid → ∀ n b o, action ≠ .call (.msgrecv n b o)

instance (pid : Word) (k : Kernel) : DecidablePred (NoReceive pid k)
  | .call (.msgrecv n b o) => decidable_of_iff (k.sched.current.pid ≠ pid)
      ⟨fun h heq => absurd heq h, fun h heq => h heq n b o rfl⟩
  | .tick | .resume | .call .yield | .call .exit | .call .fork | .call (.sleep _)
  | .call (.portopen _) | .call (.msgsend _ _) | .call (.msgwait _) | .call (.msgpeek _) =>
    .isTrue fun _ _ _ _ => nofun

/-- The message `m` is the first in the queue of the port that the task `pid` finds under
`portNumber`, and the task is not about to take it. -/
structure Pending (pid portNumber : Word) (p : ℕ) (m : Message) (k : Kernel) : Prop where
  recorded : Recorded k
  found : k.table.find portNumber = some p
  head : ∃ port rest, k.table.ports[p]? = some port ∧ port.receiver = pid ∧ port.queue = m :: rest
  busy : pid ≠ k.sched.idle.pid
  away : ∀ t ∈ k.sched.all, t.pid = pid → ∀ q n b o, t.context ≠ .recv q n b o

variable {pid : Word} {p : ℕ} {m : Message}

/-- Only the owner of the port could take the message, and only by calling `msgrecv`. -/
theorem Pending.not_mayRecv (h : Pending pid portNumber p m k) (hq : NoReceive pid k action)
    (hpid : k.sched.current.pid = pid) {q n b o} {port : Port} :
    ¬ k.MayRecv action q port n (.msgrecv n b o) (.recv q n b o) := by
  rintro (⟨hact, -⟩ | ⟨-, hctx⟩)
  · exact hq hpid _ _ _ hact
  · exact h.away _ (.head _) hpid _ _ _ _ hctx

theorem Pending.next (h : Pending pid portNumber p m k) (hq : NoReceive pid k action)
    (hs : step k action = .ok k') : Pending pid portNumber p m k' := by
  have hsane := h.recorded.sane
  obtain ⟨port, rest, hp, hrecv, hqueue⟩ := h.head
  refine ⟨h.recorded.step hs, step_find hsane hs h.found, ?_, step_idle hsane hs ▸ h.busy,
    fun t ht hpid q n b o hctx => ?_⟩
  · obtain ⟨port', hp', -⟩ := step_grows hsane hs hp
    cases step_port hsane hs hp' with
    | keep hold =>
      cases hp.symm.trans hold
      exact ⟨port, rest, hp', hrecv, hqueue⟩
    | opened hold => cases hp.symm.trans hold
    | push hold =>
      cases hp.symm.trans hold
      exact ⟨_, rest ++ [_], hp', hrecv, by simp [Port.push, hqueue]; rfl⟩
    | pop hold hmay =>
      cases hp.symm.trans hold
      have hpid := (h.recorded.honest.receives hold id hmay).1
      exact absurd hmay (h.not_mayRecv hq (hpid.symm.trans hrecv))
  · cases step_task hsane hs ht with
    | keep hold => exact h.away t hold hpid q n b o hctx
    | child hchild =>
      rw [hchild] at hctx
      cases hctx
    | moved hcur hmove =>
      rw [hctx] at hmove
      cases hmove with
      | recv _ hmay => exact h.not_mayRecv hq (hcur.symm.trans hpid) hmay

/-! ## Trying again -/

/-- A call of `msgrecv` with a buffer that is large enough for `m` returns 0 and `m`. -/
def Kernel.Delivers (k : Kernel) (portNumber : Word) (m : Message) : Prop :=
  ∀ bufferSize outsize, m.size ≤ bufferSize →
    ∃ k', step k (.call (.msgrecv portNumber bufferSize outsize)) = .ok k' ∧
      k'.sched.current.pid = k.sched.current.pid ∧
      k'.sched.current.context = .user ⟨0, reportedSize outsize m, some m⟩

theorem Pending.delivers_iff (h : Pending pid portNumber p m k) (hcur : k.sched.current.pid = pid)
    (huser : k.sched.current.context.IsUser) :
    k.Delivers portNumber m ↔ ¬ k.sched.Gone m.sender := by
  have hsane := h.recorded.sane
  have hne : k.sched.current.pid ≠ k.sched.idle.pid := hcur ▸ h.busy
  have hd := hsane.accounted.distinct
  obtain ⟨port, rest, hp, hrecv, hqueue⟩ := h.head
  have hmem : m ∈ port.queue := hqueue ▸ .head _
  have hc := h.recorded.sender port (List.mem_of_getElem? hp) m hmem
  have hown : port.receiver = k.sched.current.pid := hrecv.trans hcur.symm
  have hmay : ∀ b o, k.MayRecv (.call (.msgrecv portNumber b o)) p port portNumber
      (.msgrecv portNumber b o) (.recv p portNumber b o) :=
    fun b o => .inl ⟨rfl, huser, h.found, hown⟩
  constructor
  · intro hdel hgone
    have hrec : k.Receives (.call (.msgrecv portNumber m.size true)) p port m.size :=
      ⟨hne, hp, portNumber, true, hmay _ _⟩
    obtain ⟨k', hs, -⟩ := hdel m.size true le_rfl
    exact nomatch hs.symm.trans (receive_fails h.recorded hrec hqueue le_rfl hgone)
  · intro hgone b o hsize
    have hint := (h.recorded.honest.ports port (List.mem_of_getElem? hp)).queue_intact hmem
    have hfind := (hsane.accounted.findable_iff_not_gone hc).mpr hgone
    have hstep : step k (.call (.msgrecv portNumber b o)) = recvLoop k p portNumber b o := by
      simp only [step, handle, syscallMsgrecvHandler, check_of _ huser, check_of _ hne,
        portGet_eq hsane.unlocked.table_free, h.found, PortTable.get_eq hp, ok_bind, hown,
        ne_eq, not_true, if_false]
    obtain ⟨sched, hw⟩ : ∃ sched, taskWake k.sched m.sender = .ok sched := by
      cases hw : taskWake k.sched m.sender with
      | ok sched => exact ⟨sched, rfl⟩
      | error f => exact absurd hfind ((taskWake_error_iff hd).mp hw).2
    have hsame := (taskWake_all hd hw).2.1
    rw [hstep, recvLoop_eq_of_cons hsane.unlocked hp hqueue hint, if_pos hsize, hw]
    refine ⟨_, rfl, ?_, rfl⟩
    show sched.current.pid = k.sched.current.pid
    rw [hsame]

/-- **A failed receive changes nothing.** Take any step of a task `t` in `msgrecv`, from any state
that the system calls and the timer can reach. If `t` goes (back) to sleep, then nothing has
happened to the ports, and nobody was woken because of a message. If `msgrecv` returns something
other than 0, then nothing at all has happened but the return. If it returns 3, then the size it
reports is that of the first message `m` in the queue. When `t` next calls `msgrecv` with a buffer
that is large enough, whatever has happened in between, it gets `m`, if and only if the sender of
`m` has not exited. -/
theorem failed_receive (h : Reach step (fun _ _ => True) boot k)
    (hin : k.InMsgrecv action portNumber bufferSize outsize) (hs : step k action = .ok k')
    {t : Scheduler.Task Cont} (ht : t ∈ k'.sched.all) (hpid : t.pid = k.sched.current.pid) :
    (∀ p, t.context = .recv p portNumber bufferSize outsize → k.Undisturbed k' portNumber) ∧
    ∀ outcome, t.context = .user outcome → outcome.eax ≠ 0 →
      (outcome.eax = 1 ∨ outcome.eax = 2 ∨ outcome.eax = 3) ∧ k' = ret k outcome ∧
      k'.table.Unlocked ∧
      (outcome.eax = 3 → ∃ p port m rest, k.table.find portNumber = some p ∧
        k.table.ports[p]? = some port ∧ port.queue = m :: rest ∧
        outcome.outsize = reportedSize outsize m ∧
        ∀ k₂, Reach step (NoReceive t.pid) k' k₂ → k₂.sched.current.pid = t.pid →
          k₂.sched.current.context.IsUser →
          (k₂.Delivers portNumber m ↔ ¬ k₂.sched.Gone m.sender)) := by
  have hk := attentive_of_reach h
  have hsane := hk.honest.sane
  have hd := hsane.accounted.distinct
  have hne := hin.1
  have hunlocked := (hsane.step hs).unlocked
  have hrec : Recorded k' :=
    (h.tail trivial hs).invariant recorded_boot fun _ _ _ hk _ hs => hk.step hs
  cases step_look hk hin hs with
  | sleep hw hb =>
    obtain ⟨hidle, hcur, -, -⟩ := wakeTasksWaitingForPort_all hd hw
    have hctx := block_at (hsane.accounted.wakeWaiting hw).distinct
      (by rw [hidle, hcur]; exact hne) hb t ht (by rw [hcur]; exact hpid)
    refine ⟨fun _ _ => ⟨rfl, hunlocked, fun x hx => ?_⟩,
      fun outcome hout => nomatch hctx.symm.trans hout⟩
    by_cases hwait : x.waitCansendPort = portNumber
    · exact .inr (.inl hwait)
    rw [wakeTasksWaitingForPort_eq hd, Except.ok.injEq] at hw
    subst hw
    have hx' : x ∈ k.sched.sleeping.filter (·.waitCansendPort ≠ portNumber) :=
      List.mem_filter.mpr ⟨hx, by simpa using hwait⟩
    exact (mem_sleeping_of_taskBlock hb hx').imp_right .inr
  | take hw =>
    obtain ⟨hidle, hcur, -, -⟩ := taskWake_all hd hw
    have hctx := ret_at (hsane.accounted.wake hw).distinct
      (by rw [hidle, hcur]; exact hne) _ t ht (by rw [hcur]; exact hpid)
    refine ⟨fun p hp => (nomatch hctx.symm.trans hp), fun outcome hout hne => ?_⟩
    cases hctx.symm.trans hout
    exact absurd rfl hne
  | small hfind hp hrecv hq hsize =>
    have hctx := ret_at hd hne _ t ht hpid
    refine ⟨fun p hp => (nomatch hctx.symm.trans hp), fun outcome hout _ => ?_⟩
    cases hctx.symm.trans hout
    refine ⟨.inr (.inr rfl), rfl, hunlocked, fun _ => ⟨_, _, _, _, hfind, hp, hq, rfl, ?_⟩⟩
    intro k₂ hreach hcur huser
    have hpend : Pending t.pid portNumber _ _ k₂ :=
      hreach.invariant ⟨hrec, hfind, ⟨_, _, hp, hrecv.trans hpid.symm, hq⟩, hpid ▸ hne,
        fun t' ht' hpid' q n b o hctx' => nomatch
          (ret_at hd hne _ t' ht' (hpid'.trans hpid)).symm.trans hctx'⟩
        fun _ _ _ hpend hq hs => hpend.next hq hs
    exact hpend.delivers_iff hcur huser
  | refused heax =>
    have hctx := ret_at hd hne _ t ht hpid
    refine ⟨fun p hp => (nomatch hctx.symm.trans hp), fun outcome hout _ => ?_⟩
    cases hctx.symm.trans hout
    refine ⟨heax.imp_right .inl, rfl, hunlocked, fun h3 => ?_⟩
    rcases heax with rfl | rfl <;> exact absurd h3 (by decide)

/-- A child sends to port 6 of its parent. The parent's first buffer is too small, its second one is
not. -/
theorem failed_receive_child : ∃ k k' m, Reach step (fun _ _ => True) boot k ∧
    step k (.call (.msgrecv 6 0 true)) = .ok k' ∧ k' = ret k ⟨3, some m.size, none⟩ ∧
    k'.Delivers 6 m := by
  obtain ⟨k, hreach, huser, hne, hgone, hstep⟩ := Reach.exists_of_run step (fun _ _ => True) boot
    [.call (.portopen 6), .call .fork, .call .yield, .call (.msgsend 6 Message.zero)]
    (fun k => k.sched.current.context.IsUser ∧ k.sched.current.pid ≠ k.sched.idle.pid ∧
      k.sched.exited.map Scheduler.Task.pid ++ k.sched.collected = [] ∧
      step k (.call (.msgrecv 6 0 true)) =
        .ok (ret k ⟨3, some (Message.zero.stamp 2).size, none⟩))
    (by decide +kernel)
  obtain ⟨-, -, -, h3⟩ := (failed_receive hreach ⟨hne, 0, .inl ⟨rfl, huser⟩⟩ hstep
    (.head _) rfl).2 _ rfl (by decide)
  obtain ⟨p, port, m, rest, -, -, -, hsize, hdel⟩ := h3 rfl
  have hsize' : m.size = (Message.zero.stamp 2).size := (Option.some.inj hsize).symm
  refine ⟨k, _, m, hreach, hstep, by rw [hsize'], (hdel _ .refl rfl trivial).mpr ?_⟩
  show m.sender ∉ k.sched.exited.map Scheduler.Task.pid ++ k.sched.collected
  rw [hgone]
  exact List.not_mem_nil

/-- The second call can bring the kernel down. Task 2 sends to port 6 of task 0, and task 3 to port
5 of task 2, which so returns from `msgsend`. Task 0 calls `msgrecv` with a buffer that is too
small. Task 2 exits, and task 0 calls `msgrecv` again, with a buffer that is large enough. -/
theorem retry_not_delivered : ¬ ∀ k k' k₂ action n b o p port m rest,
    Reach step (fun _ _ => True) boot k → k.InMsgrecv action n b o → step k action = .ok k' →
    k'.sched.current.pid = k.sched.current.pid →
    k'.sched.current.context = .user ⟨3, reportedSize o m, none⟩ →
    k.table.find n = some p → k.table.ports[p]? = some port → port.queue = m :: rest →
    Reach step (NoReceive k.sched.current.pid) k' k₂ →
    k₂.sched.current.pid = k.sched.current.pid → k₂.sched.current.context.IsUser →
    k₂.Delivers n m := by
  intro hall
  obtain ⟨k, hreach, huser, hne, hpid, hfind, hqueue, hstep, hrun⟩ :=
    Reach.exists_of_run step (fun _ _ => True) boot
    [.call (.portopen 6), .call .fork, .call .fork, .call .yield, .call (.portopen 5),
      .call (.msgsend 6 Message.zero), .call (.msgsend 5 Message.zero)]
    (fun k => k.sched.current.context.IsUser ∧ k.sched.current.pid ≠ k.sched.idle.pid ∧
      k.sched.current.pid = 0 ∧ k.table.find 6 = some 0 ∧
      k.table.ports[0]?.map Port.queue = some [Message.zero.stamp 2] ∧
      step k (.call (.msgrecv 6 0 true)) =
        .ok (ret k ⟨3, some (Message.zero.stamp 2).size, none⟩) ∧
      (run step (NoReceive 0) (ret k ⟨3, some (Message.zero.stamp 2).size, none⟩)
        [.call .yield, .resume, .call .exit]).any (fun k₂ => decide (k₂.sched.current.pid = 0 ∧
          k₂.sched.current.context.IsUser ∧
          step k₂ (.call (.msgrecv 6 100 true)) = .error (.sched .wakeUnknown))) = true)
    (by decide +kernel)
  obtain ⟨k₂, hk₂, hcur, huser₂, herr⟩ := Reach.exists_of_run step (NoReceive 0) _ _ _ hrun
  obtain ⟨port, hp, hq⟩ := Option.map_eq_some_iff.mp hqueue
  obtain ⟨k₃, hok, -⟩ := hall k _ k₂ _ 6 0 true 0 port _ [] hreach ⟨hne, 0, .inl ⟨rfl, huser⟩⟩
    hstep rfl rfl hfind hp hq (hpid ▸ hk₂) (hcur.trans hpid.symm) huser₂ 100 true (by decide)
  exact nomatch hok.symm.trans herr

end Rastapopoulos.Ipc
