import Rastapopoulos.Rpc.Ledger

/-!
# The invariant of clients and servers

Every task stands where its program says, its books balance with its reply port, and what was taken
from the server's port is what has been served and what the server has in hand. `Inv.next` says what
has to be looked at when a step is taken, and `Inv.quiet` has the steps that neither send nor
receive.
-/

namespace Rastapopoulos.Rpc

open Ipc

variable {cfg : Config} {w w' : World} {pid : Word} {cont : Cont} {port : Port}

/-! ## The invariant -/

/-- Where a task in this phase may stand. -/
def Phase.Stands (cfg : Config) (table : PortTable) (ackPort : Option Word) : Phase → Cont → Prop
  | .idle, cont => cont.IsFree
  | .ready, cont => cont.IsFree
  | .handling request, cont => cont.IsFree ∧ request.size ≤ dispatchBufferSize
  | .sending call, cont => cont = .sendOpen cfg.rpcPort (libMsgsend call.request) ∨
      (∃ p i, cont = .sendTaken p i) ∨ cont = .user (.value 0)
  | .receiving call, cont =>
      (∃ p number size, cont = .recv p number size false ∧ ackPort = some number ∧
        table.find number = some p ∧ stubReceiveSize call.fn call.env = .ok size) ∨
      ∃ m, cont = .user ⟨0, none, some m⟩
  | .awaiting, cont =>
      (∃ p, cont = .recv p cfg.rpcPort dispatchBufferSize true ∧
        table.find cfg.rpcPort = some p) ∨
      ∃ outcome, cont = .user outcome ∧ (outcome.eax ≠ 0 ∧ outcome.buffer = none ∨
        ∃ m, outcome.buffer = some m ∧ m.size ≤ dispatchBufferSize)
  | .replying, cont => (∃ p i, cont = .sendTaken p i) ∨ ∃ outcome, cont = .user outcome

/-- The client has its reply port to itself, the call it is in is a proper one, and its books
balance. -/
structure Kept (cfg : Config) (w : World) (pid ackPort : Word) (cont : Cont) (port : Port) :
    Prop where
  inbox : w.kernel.table.lookup ackPort = some port
  owner : port.receiver = pid
  apart : ackPort ≠ cfg.rpcPort
  valid : ∀ call, (w.prog pid).phase = .sending call ∨ (w.prog pid).phase = .receiving call →
    call.Valid cfg ackPort
  twoWay : ∀ call, (w.prog pid).phase = .receiving call → ¬ call.fn.OneWay
  balanced : Balanced pid port (w.books cfg pid cont)

/-- The task has not called anything yet. -/
structure Blank (cfg : Config) (w : World) (pid : Word) : Prop where
  phase : (w.prog pid).phase = .idle
  calls : w.begun.filter (·.1 = pid) = []
  returned : w.finished.filter (·.client = pid) = []
  asked : (sentTo w.kernel.table cfg.rpcPort).filter (cfg.wants pid) = []

/-- What was taken from the server's port has been served, or is in the hands of the task that has
opened the port; no other task has anything in hand. -/
structure ServerSide (cfg : Config) (w : World) : Prop where
  opened : ∀ port, w.kernel.table.lookup cfg.rpcPort = some port →
    w.kernel.sched.Created port.receiver ∧ ∃ hand,
    port.taken.map Taken.message = w.served.map Served.request ++ hand ∧
    ∀ t ∈ w.kernel.sched.all, (w.prog t.pid).phase.serverHand t.context =
      if t.pid = port.receiver then hand else []
  closed : w.kernel.table.lookup cfg.rpcPort = none → w.served = [] ∧
    ∀ t ∈ w.kernel.sched.all, (w.prog t.pid).phase.serverHand t.context = []

/-- What every step maintains. -/
structure Inv (cfg : Config) (w : World) : Prop where
  orderly : Orderly w.kernel
  created : ∀ pid, ¬ w.kernel.sched.Created pid → (w.prog pid).ackPort = none
  blank : ∀ pid, (w.prog pid).ackPort = none → Blank cfg w pid
  stands : ∀ t ∈ w.kernel.sched.all,
    (w.prog t.pid).phase.Stands cfg w.kernel.table (w.prog t.pid).ackPort t.context
  kept : ∀ t ∈ w.kernel.sched.all, ∀ ackPort, (w.prog t.pid).ackPort = some ackPort →
    ∃ port, Kept cfg w t.pid ackPort t.context port
  server : ServerSide cfg w

theorem Inv.sane (h : Inv cfg w) : Sane w.kernel := h.orderly.honest.sane

theorem Inv.current_mem : w.kernel.sched.current ∈ w.kernel.sched.all := .head _

/-- The requests answered, and the one in the server's hands, were queued in this order. -/
theorem ServerSide.answered_prefix (h : ServerSide cfg w) (hk : Orderly w.kernel) (pid : Word) :
    (w.served.filter fun s => cfg.wants pid s.request).map Served.request <+:
      (sentTo w.kernel.table cfg.rpcPort).filter (cfg.wants pid) := by
  have hmap : (w.served.filter fun s => cfg.wants pid s.request).map Served.request =
      (w.served.map Served.request).filter (cfg.wants pid) := by
    rw [List.filter_map]
    rfl
  rw [hmap]
  cases hl : w.kernel.table.lookup cfg.rpcPort with
  | none =>
    rw [(h.closed hl).1]
    exact List.nil_prefix
  | some port =>
    obtain ⟨-, hand, htaken, -⟩ := h.opened port hl
    have hfifo := (hk.faithful hl).fifo
    rw [sentTo, hl]
    refine List.IsPrefix.filter _ ?_
    simp only [← hfifo, htaken, List.append_assoc]
    exact List.prefix_append _ _

/-! ## What has to be shown of a step -/

theorem Inv.current_created (h : Inv cfg w) : w.kernel.sched.Created w.pid :=
  h.sane.accounted.current_created

theorem Inv.child_ackPort (h : Inv cfg w) :
    (w.prog w.kernel.sched.nextPid).ackPort = none ∧ w.kernel.sched.nextPid ≠ w.pid := by
  have hnew : ¬ w.kernel.sched.Created w.kernel.sched.nextPid := lt_irrefl _
  exact ⟨h.created _ hnew, fun heq => hnew (heq ▸ h.current_created)⟩

variable {phase : Phase} {table table' : PortTable} {k' : Kernel} {action : Action}

theorem Phase.Stands.step {ackPort : Option Word} (h : phase.Stands cfg table ackPort cont)
    (hfind : ∀ n p, table.find n = some p → table'.find n = some p) :
    phase.Stands cfg table' ackPort cont := by
  cases phase with
  | receiving call =>
    rcases h with ⟨p, number, size, hcont, hack, hf, hsize⟩ | h
    · exact .inl ⟨p, number, size, hcont, hack, hfind _ _ hf, hsize⟩
    · exact .inr h
  | awaiting =>
    rcases h with ⟨p, hcont, hf⟩ | h
    · exact .inl ⟨p, hcont, hfind _ _ hf⟩
    · exact .inr h
  | idle | ready | handling | sending | replying => exact h

/-- What a step leaves of the kernel, whatever it is. -/
structure Advances (k k' : Kernel) : Prop where
  orderly : Orderly k'
  created : ∀ pid, k.sched.Created pid → k'.sched.Created pid
  tasks : ∀ t ∈ k'.sched.all, t.pid ≠ k.sched.current.pid →
    t ∈ k.sched.all ∨ t = Scheduler.childTask k.sched (.user (.value 0))
  find : ∀ n p, k.table.find n = some p → k'.table.find n = some p

theorem Advances.refl {k : Kernel} (h : Orderly k) : Advances k k :=
  ⟨h, fun _ => id, fun _ ht _ => .inl ht, fun _ _ => id⟩

theorem Advances.of_step {k : Kernel} (h : Orderly k) (hexit : action ≠ .call .exit)
    (hrange : ∀ n, action = .call (.portopen n) → InRange k.table ⟨k.sched.current.pid, n⟩)
    (hs : Ipc.step k action = .ok k') : Advances k k' :=
  ⟨h.step hexit hrange hs, fun _ => step_created h.honest.sane hs,
    fun _ ht hne => step_task_ne h.honest.sane hs ht hne, fun _ _ => step_find h.honest.sane hs⟩

/-- It is enough to look at the current task, at the clients that are told something, and at the
server's side. -/
theorem Inv.next (h : Inv cfg w) (hk : Advances w.kernel w'.kernel)
    (hprog : ∀ pid ≠ w.pid, w'.prog pid = w.prog pid)
    (hblank : ∀ pid, (w'.prog pid).ackPort = none → Blank cfg w' pid)
    (hothers : ∀ t ∈ w.kernel.sched.all, t.pid ≠ w.pid → ∀ ackPort port,
      (w.prog t.pid).ackPort = some ackPort → Kept cfg w t.pid ackPort t.context port →
      ∃ port', Kept cfg w' t.pid ackPort t.context port')
    (hself : ∀ t ∈ w'.kernel.sched.all, t.pid = w.pid →
      (w'.prog w.pid).phase.Stands cfg w'.kernel.table (w'.prog w.pid).ackPort t.context ∧
      ∀ ackPort, (w'.prog w.pid).ackPort = some ackPort →
        ∃ port, Kept cfg w' w.pid ackPort t.context port)
    (hserver : ServerSide cfg w') : Inv cfg w' where
  orderly := hk.orderly
  created := by
    intro pid hnew
    have hold : ¬ w.kernel.sched.Created pid := fun hc => hnew (hk.created pid hc)
    rw [hprog pid fun heq => hold (heq ▸ h.current_created)]
    exact h.created pid hold
  blank := hblank
  stands := by
    intro t ht
    by_cases hpid : t.pid = w.pid
    · rw [hpid]
      exact (hself t ht hpid).1
    rw [hprog _ hpid]
    rcases hk.tasks t ht hpid with hold | rfl
    · exact (h.stands t hold).step hk.find
    · have hphase := (h.blank _ h.child_ackPort.1).phase
      show (w.prog w.kernel.sched.nextPid).phase.Stands _ _ _ _
      rw [hphase]
      trivial
  kept := by
    intro t ht ackPort hack
    by_cases hpid : t.pid = w.pid
    · rw [hpid] at hack ⊢
      exact (hself t ht hpid).2 ackPort hack
    rw [hprog _ hpid] at hack
    rcases hk.tasks t ht hpid with hold | rfl
    · obtain ⟨port, hkept⟩ := h.kept t hold ackPort hack
      exact hothers t hold hpid ackPort port hack hkept
    · exact nomatch h.child_ackPort.1.symm.trans hack
  server := hserver

/-- A task that a step does not concern. -/
structure Unaffected (cfg : Config) (w w' : World) (pid : Word) : Prop where
  prog : w'.prog pid = w.prog pid
  calls : w'.begun.filter (·.1 = pid) = w.begun.filter (·.1 = pid)
  asked : (sentTo w'.kernel.table cfg.rpcPort).filter (cfg.wants pid) =
    (sentTo w.kernel.table cfg.rpcPort).filter (cfg.wants pid)
  answered : (w'.served.filter fun s => cfg.wants pid s.request) =
    w.served.filter fun s => cfg.wants pid s.request
  returned : w'.finished.filter (·.client = pid) = w.finished.filter (·.client = pid)

theorem Unaffected.blank (h : Unaffected cfg w w' pid) (hb : Blank cfg w pid) : Blank cfg w' pid :=
  ⟨h.prog ▸ hb.phase, h.calls ▸ hb.calls, h.returned ▸ hb.returned, h.asked ▸ hb.asked⟩

theorem Unaffected.books (h : Unaffected cfg w w' pid) (cont : Cont) :
    w'.books cfg pid cont = w.books cfg pid cont := by
  simp only [World.books, h.prog, h.calls, h.asked, h.answered, h.returned]

theorem Unaffected.kept {ackPort : Word} (h : Unaffected cfg w w' pid)
    (hlookup : w'.kernel.table.lookup ackPort = w.kernel.table.lookup ackPort)
    (hkept : Kept cfg w pid ackPort cont port) : Kept cfg w' pid ackPort cont port where
  inbox := hlookup ▸ hkept.inbox
  owner := hkept.owner
  apart := hkept.apart
  valid := h.prog ▸ hkept.valid
  twoWay := h.prog ▸ hkept.twoWay
  balanced := h.books cont ▸ hkept.balanced

/-- What a task other than the current one has in hand. -/
theorem Inv.serverHand_others (h : Inv cfg w) (hk : Advances w.kernel w'.kernel)
    (hprog : ∀ pid ≠ w.pid, w'.prog pid = w.prog pid)
    {t' : Scheduler.Task Cont} (ht' : t' ∈ w'.kernel.sched.all) (hne : t'.pid ≠ w.pid) :
    (∃ t ∈ w.kernel.sched.all, t.pid = t'.pid ∧
        (w'.prog t'.pid).phase.serverHand t'.context =
          (w.prog t.pid).phase.serverHand t.context) ∨
      (¬ w.kernel.sched.Created t'.pid ∧
        (w'.prog t'.pid).phase.serverHand t'.context = []) := by
  rw [hprog _ hne]
  rcases hk.tasks t' ht' hne with hold | rfl
  · exact .inl ⟨t', hold, rfl, rfl⟩
  · refine .inr ⟨lt_irrefl _, ?_⟩
    show (w.prog w.kernel.sched.nextPid).phase.serverHand _ = []
    rw [(h.blank _ h.child_ackPort.1).phase]
    rfl

/-- The port of the server is neither taken from nor given away. -/
def Untaken (cfg : Config) (w w' : World) : Prop :=
  (∃ port port', w.kernel.table.lookup cfg.rpcPort = some port ∧
      w'.kernel.table.lookup cfg.rpcPort = some port' ∧ port'.taken = port.taken ∧
      port'.receiver = port.receiver) ∨
    (w.kernel.table.lookup cfg.rpcPort = none ∧ ∀ port',
      w'.kernel.table.lookup cfg.rpcPort = some port' → port' = newPort cfg.rpcPort w.pid)

theorem Untaken.of_lookup
    (h : w'.kernel.table.lookup cfg.rpcPort = w.kernel.table.lookup cfg.rpcPort) :
    Untaken cfg w w' := by
  cases hl : w.kernel.table.lookup cfg.rpcPort with
  | some port => exact .inl ⟨port, port, hl, h.trans hl, rfl, rfl⟩
  | none => exact .inr ⟨hl, fun port' hl' => nomatch (h.trans hl).symm.trans hl'⟩

/-- The server's side of a step that is not the server's business. -/
theorem Inv.serverSide (h : Inv cfg w) (hk : Advances w.kernel w'.kernel)
    (hserved : w'.served = w.served) (hprog : ∀ pid ≠ w.pid, w'.prog pid = w.prog pid)
    (hport : Untaken cfg w w')
    (hself : ∀ t' ∈ w'.kernel.sched.all, t'.pid = w.pid →
      (w'.prog w.pid).phase.serverHand t'.context =
        w.phase.serverHand w.kernel.sched.current.context) : ServerSide cfg w' := by
  have hhand : ∀ t' ∈ w'.kernel.sched.all,
      (∃ t ∈ w.kernel.sched.all, t.pid = t'.pid ∧
        (w'.prog t'.pid).phase.serverHand t'.context =
          (w.prog t.pid).phase.serverHand t.context) ∨
      (¬ w.kernel.sched.Created t'.pid ∧
        (w'.prog t'.pid).phase.serverHand t'.context = []) := by
    intro t' ht'
    by_cases hpid : t'.pid = w.pid
    · exact .inl ⟨_, Inv.current_mem, hpid.symm, by rw [hpid]; exact hself t' ht' hpid⟩
    · exact h.serverHand_others hk hprog ht' hpid
  rcases hport with ⟨port, port', hl, hl', htaken, hrecv⟩ | ⟨hnone, hnew⟩
  · obtain ⟨hcr, hand, heq, hall⟩ := h.server.opened port hl
    refine ⟨fun port'' hl'' => ?_, fun hnone' => nomatch hl'.symm.trans hnone'⟩
    cases hl'.symm.trans hl''
    rw [hserved, htaken, hrecv]
    refine ⟨hk.created _ hcr, hand, heq, fun t' ht' => ?_⟩
    rcases hhand t' ht' with ⟨t, ht, hpid, hsame⟩ | ⟨hnot, hnil⟩
    · rw [hsame, hall t ht, hpid]
    · have hne : ¬ t'.pid = port.receiver := fun hpid => hnot (hpid ▸ hcr)
      rw [hnil, if_neg hne]
  · obtain ⟨hserved₀, hall⟩ := h.server.closed hnone
    have hnil : ∀ t' ∈ w'.kernel.sched.all,
        (w'.prog t'.pid).phase.serverHand t'.context = [] := by
      intro t' ht'
      rcases hhand t' ht' with ⟨t, ht, -, hsame⟩ | ⟨-, hnil⟩
      · rw [hsame, hall t ht]
      · exact hnil
    rw [← hserved] at hserved₀
    refine ⟨fun port' hl' => ?_, fun _ => ⟨hserved₀, hnil⟩⟩
    rw [hnew port' hl', hserved₀]
    refine ⟨hk.created _ h.current_created, [], rfl, fun t' ht' => ?_⟩
    rw [hnil t' ht', ite_self]

/-- A step of the current task that tells no other client anything. -/
theorem Inv.alone (h : Inv cfg w) (hk : Advances w.kernel w'.kernel)
    (haff : ∀ pid ≠ w.pid, Unaffected cfg w w' pid)
    (hlookup : ∀ n port, w.kernel.table.lookup n = some port → n ≠ cfg.rpcPort →
      port.receiver ≠ w.pid → w'.kernel.table.lookup n = w.kernel.table.lookup n)
    (hack : (w'.prog w.pid).ackPort ≠ none)
    (hself : ∀ t ∈ w'.kernel.sched.all, t.pid = w.pid →
      (w'.prog w.pid).phase.Stands cfg w'.kernel.table (w'.prog w.pid).ackPort t.context ∧
      ∀ ackPort, (w'.prog w.pid).ackPort = some ackPort →
        ∃ port, Kept cfg w' w.pid ackPort t.context port)
    (hserver : ServerSide cfg w') : Inv cfg w' := by
  have hprog : ∀ pid ≠ w.pid, w'.prog pid = w.prog pid := fun pid hne => (haff pid hne).prog
  refine h.next hk hprog (fun pid hnone => ?_) ?_ hself hserver
  · have hne : pid ≠ w.pid := fun heq => hack (heq ▸ hnone)
    exact (haff pid hne).blank (h.blank pid ((hprog pid hne) ▸ hnone))
  · intro t ht hne ackPort port _ hkept
    have hsame := hlookup ackPort port hkept.inbox hkept.apart (hkept.owner ▸ hne)
    exact ⟨port, (haff _ hne).kept hsame hkept⟩

/-! ## Steps that neither send nor receive -/

section Quiet

variable {action : Action} {k' : Kernel}

theorem sentTo_of_lookup {number : Word}
    (h : table'.lookup number = table.lookup number) : sentTo table' number = sentTo table number := by
  rw [sentTo, sentTo, h]

theorem sentTo_quiet (hk : Sane w.kernel) (hq : Quiet w.kernel action)
    (hs : Ipc.step w.kernel action = .ok k') (number : Word) :
    sentTo k'.table number = sentTo w.kernel.table number := by
  rcases quiet_lookup hk hq hs number with hl | ⟨hnone, hnew⟩
  · exact sentTo_of_lookup hl
  · rw [sentTo, sentTo, hnone, hnew]
    rfl

/-- In a free phase the books do not depend on where the task stands. -/
theorem books_of_free (h : (w.prog pid).phase.IsFree) (cont cont' : Cont) :
    w.books cfg pid cont' = w.books cfg pid cont := by
  unfold World.books
  cases hphase : (w.prog pid).phase with
  | idle | ready | handling => rfl
  | sending | receiving | awaiting | replying =>
    rw [hphase] at h
    exact h.elim

theorem serverHand_of_free (h : phase.IsFree) (cont cont' : Cont) :
    phase.serverHand cont' = phase.serverHand cont := by
  cases phase with
  | idle | ready | handling => rfl
  | sending | receiving | awaiting | replying => exact h.elim

theorem Phase.Stands.of_free {ackPort : Option Word}
    {cont' : Cont} (h : phase.Stands cfg table ackPort cont) (hphase : phase.IsFree)
    (hcont : cont'.IsFree) : phase.Stands cfg table' ackPort cont' := by
  cases phase with
  | idle | ready => exact hcont
  | handling => exact ⟨hcont, h.2⟩
  | sending | receiving | awaiting | replying => exact hphase.elim

/-- **A quiet step of the kernel**, by a task that is in a free phase if it is not a tick. -/
theorem Inv.quiet (h : Inv cfg w) (hq : Quiet w.kernel action)
    (hfree : action = .tick ∨ w.phase.IsFree)
    (hrange : ∀ n, action = .call (.portopen n) → InRange w.kernel.table ⟨w.pid, n⟩)
    (hs : Ipc.step w.kernel action = .ok k') : Inv cfg { w with kernel := k' } := by
  have hexit : action ≠ .call .exit := by
    rintro rfl
    cases hq with
    | call hord => exact hord
  have hk : Advances w.kernel k' := .of_step h.orderly hexit hrange hs
  have haff : ∀ pid, Unaffected cfg w { w with kernel := k' } pid := fun pid =>
    ⟨rfl, rfl, by rw [sentTo_quiet h.sane hq hs], rfl, rfl⟩
  have hlookup : ∀ {n port}, w.kernel.table.lookup n = some port →
      k'.table.lookup n = w.kernel.table.lookup n := by
    intro n port hl
    exact (quiet_lookup h.sane hq hs n).resolve_right fun hnone => nomatch hl.symm.trans hnone.1
  -- the current task: its record is an old one, or it stands somewhere free
  have hself : ∀ t ∈ k'.sched.all, t.pid = w.pid → (t ∈ w.kernel.sched.all) ∨
      (w.phase.IsFree ∧ t.context.IsFree) := by
    intro t ht hpid
    rcases quiet_task h.sane hq hs ht with hold | rfl | ⟨htick, -, hcont⟩
    · exact .inl hold
    · exact absurd hpid h.child_ackPort.2
    · exact .inr ⟨hfree.resolve_left htick, hcont⟩
  refine h.next hk (fun pid _ => rfl) (fun pid hnone => (haff pid).blank (h.blank pid hnone)) ?_ ?_ ?_
  · intro t ht hne ackPort port _ hkept
    exact ⟨port, (haff _).kept (hlookup hkept.inbox) hkept⟩
  · intro t ht hpid
    rcases hself t ht hpid with hold | ⟨hphase, hcont⟩
    · have hstands := h.stands t hold
      rw [hpid] at hstands
      refine ⟨hstands.step hk.find, fun ackPort hack => ?_⟩
      obtain ⟨port, hkept⟩ := h.kept t hold ackPort (hpid ▸ hack)
      rw [hpid] at hkept
      exact ⟨port, (haff _).kept (hlookup hkept.inbox) hkept⟩
    · refine ⟨(h.stands _ Inv.current_mem).of_free hphase hcont, fun ackPort hack => ?_⟩
      obtain ⟨port, hkept⟩ := h.kept _ Inv.current_mem ackPort hack
      have hkept' := (haff w.pid).kept (hlookup hkept.inbox) hkept
      refine ⟨port, { hkept' with balanced := ?_ }⟩
      rw [books_of_free (w := { w with kernel := k' }) hphase w.kernel.sched.current.context t.context]
      exact hkept'.balanced
  · refine h.serverSide hk rfl (fun _ _ => rfl) ?_ fun t' ht' hpid => ?_
    · cases hl : w.kernel.table.lookup cfg.rpcPort with
      | some port => exact .of_lookup (hlookup hl)
      | none =>
        refine .inr ⟨hl, fun port' hl' => ?_⟩
        rcases quiet_lookup h.sane hq hs cfg.rpcPort with hsame | ⟨-, hnew⟩
        · exact nomatch hl.symm.trans (hsame.symm.trans hl')
        · exact Option.some.inj (hl'.symm.trans hnew)
    · rcases hself t' ht' hpid with hold | ⟨hphase, -⟩
      · rw [h.sane.context_eq hold hpid]
        rfl
      · exact serverHand_of_free hphase _ _

end Quiet

end Rastapopoulos.Rpc
