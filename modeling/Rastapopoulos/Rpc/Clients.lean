import Rastapopoulos.Rpc.Exchange

/-!
# The steps of clients

Opening the reply port, the three parts of a stub, and the continuation of a system call that was
asleep, whether a client's or the server's: each keeps the invariant.
-/

namespace Rastapopoulos.Rpc

open Ipc

variable {cfg : Config} {w w' : World} {pid ackPort : Word} {cont : Cont} {port : Port} {call : Call}

/-! ## Where tasks stand -/

theorem World.act_eq_ok {action : Action} :
    w.act action = .ok w' ↔
      ∃ k', Ipc.step w.kernel action = .ok k' ∧ w' = { w with kernel := k' } := by
  simp only [World.act, bind_eq_ok, mapError_eq_ok, pure_inj, eq_comm (a := w')]

theorem World.outcome_eq_ok {outcome : Outcome} (h : w.outcome = .ok outcome) :
    w.kernel.sched.current.context = .user outcome := by
  unfold World.outcome at h
  split at h
  · cases h
    assumption
  · cases h

/-- The record of the current task, where a step of its program leaves it. -/
theorem Inv.standsAt (h : Inv cfg w) :
    StandsAt w.kernel.sched w.pid w.kernel.sched.current.context := fun _ ht hpid =>
  h.sane.context_eq ht hpid

theorem Inv.ne_idle (h : Inv cfg w) (hctx : ¬ w.kernel.sched.current.context.IsUser) :
    w.pid ≠ w.kernel.sched.idle.pid := by
  intro heq
  apply hctx
  rw [h.sane.accounted.current_idle heq]
  exact h.sane.idle_user

theorem Inv.current_stands (h : Inv cfg w) :
    w.phase.Stands cfg w.kernel.table (w.prog w.pid).ackPort w.kernel.sched.current.context :=
  h.stands _ Inv.current_mem

theorem Inv.current_kept (h : Inv cfg w) (hack : (w.prog w.pid).ackPort = some ackPort) :
    ∃ port, Kept cfg w w.pid ackPort w.kernel.sched.current.context port :=
  h.kept _ Inv.current_mem ackPort hack

/-- A task that is not between calls has its reply port. -/
theorem Inv.ackPort_ne_none (h : Inv cfg w) (hphase : (w.prog pid).phase ≠ .idle) :
    (w.prog pid).ackPort ≠ none := fun hnone => hphase (h.blank pid hnone).phase

theorem Inv.current_ackPort (h : Inv cfg w) (hphase : w.phase ≠ .idle) :
    (w.prog w.pid).ackPort ≠ none := h.ackPort_ne_none hphase

theorem Unaffected.refl (pid : Word) : Unaffected cfg w w pid := ⟨rfl, rfl, rfl, rfl, rfl⟩

variable {phase : Phase} {cont' : Cont}

theorem Inv.entered (h : Inv cfg w) (hphase : w.phase = phase) (hne : phase ≠ .idle)
    (hhand : phase.serverHand w.kernel.sched.current.context = []) : Entered cfg w w phase where
  kernel := rfl
  served := rfl
  others := fun pid _ => .refl pid
  phase := hphase
  ackPort := h.current_ackPort (by rw [hphase]; exact hne)
  hand := hphase ▸ hhand

/-- The task moves on, and nothing in its books depends on it. -/
theorem Kept.moved (h : Kept cfg w pid ackPort cont port)
    (hunsent : (w.prog pid).phase.unsent cont' = (w.prog pid).phase.unsent cont)
    (hhand : (w.prog pid).phase.hand cont' = (w.prog pid).phase.hand cont) :
    Kept cfg w pid ackPort cont' port := by
  refine { h with balanced := ?_ }
  have hbal := h.balanced
  simp only [World.books, ← hunsent, ← hhand] at hbal
  exact hbal

/-! ## Continuations -/

/-- `msgsend` returns: its message was taken, or the task was woken for another reason. -/
theorem Inv.sendReturns {p i : ℕ} {k' : Kernel} (h : Inv cfg w)
    (hphase : (∃ call, w.phase = .sending call) ∨ w.phase = .replying)
    (hctx : w.kernel.sched.current.context = .sendTaken p i)
    (hs : Ipc.step w.kernel .resume = .ok k') :
    Inv cfg { w with kernel := k' } := by
  have hk : Advances w.kernel k' := .of_step h.orderly (by nofun) (by nofun) hs
  have hne := h.ne_idle (by rw [hctx]; exact id)
  have hret : Ipc.resume w.kernel = .ok k' := hs
  simp only [Ipc.resume, hctx, Except.ok.injEq] at hret
  have hat : StandsAt k'.sched w.pid (.user (.value 0)) := by
    rw [← hret]
    exact ret_at h.sane.accounted.distinct hne (.value 0)
  have hkept := h.kept _ Inv.current_mem
  rw [hctx] at hkept
  rcases hphase with ⟨call, hphase⟩ | hphase
  all_goals
    have hphase' : (w.prog w.pid).phase = _ := hphase
    have he := h.entered hphase (by simp) rfl
    refine he.inv_of_table h hk (by rw [← hret]; rfl) hat rfl ?_ fun ackPort hack => ?_
  · exact .inr (.inr rfl)
  · obtain ⟨port, hkept⟩ := hkept ackPort hack
    exact ⟨port, hkept.moved (by rw [← World.pid, hphase']; rfl) (by rw [← World.pid, hphase']; rfl)⟩
  · exact .inr ⟨_, rfl⟩
  · obtain ⟨port, hkept⟩ := hkept ackPort hack
    exact ⟨port, hkept.moved (by rw [← World.pid, hphase']; rfl) (by rw [← World.pid, hphase']; rfl)⟩

/-- **A system call that was asleep goes on.** -/
theorem Inv.resume (hcfg : cfg.Sound) (h : Inv cfg w) (hact : w.act .resume = .ok w') :
    Inv cfg w' := by
  obtain ⟨k', hs, rfl⟩ := World.act_eq_ok.mp hact
  have hk : Advances w.kernel k' := .of_step h.orderly (by nofun) (by nofun) hs
  have hstands := h.current_stands
  have hkept := h.kept _ Inv.current_mem
  have howns := h.orderly.honest.current
  have hloop : Ipc.resume w.kernel = .ok k' := hs
  have huser : ∀ outcome, w.kernel.sched.current.context ≠ .user outcome := by
    intro outcome hctx
    simp [Ipc.resume, hctx] at hloop
  cases hphase : w.phase with
  | idle | ready =>
    rw [hphase] at hstands
    exact h.quiet (.resume hstands) (.inr (by rw [hphase]; trivial)) (by simp) hs
  | handling request =>
    rw [hphase] at hstands
    exact h.quiet (.resume hstands.1) (.inr (by rw [hphase]; trivial)) (by simp) hs
  | sending call =>
    rw [hphase] at hstands
    rcases hstands with hctx | ⟨p, i, hctx⟩ | hctx
    · have hne := h.ne_idle (by rw [hctx]; exact id)
      simp only [Ipc.resume, hctx] at hloop hkept
      exact h.send hcfg (h.entered hphase (by simp) rfl) hkept hk hne hloop
    · exact h.sendReturns (.inl ⟨call, hphase⟩) hctx hs
    · exact absurd hctx (huser _)
  | receiving call =>
    rw [hphase] at hstands
    obtain ⟨p, number, size, hctx, hack, hfind, hsize⟩ | ⟨m, hctx⟩ := hstands
    · have hne := h.ne_idle (by rw [hctx]; exact id)
      simp only [Ipc.resume, hctx] at hloop hkept
      obtain ⟨port, hkept⟩ := hkept number hack
      exact h.receive (h.entered hphase (by simp) (by rw [hctx]; rfl)) hack hkept hfind hsize hk hne hloop
    · exact absurd hctx (huser _)
  | awaiting =>
    rw [hphase] at hstands
    obtain ⟨p, hctx, hfind⟩ | ⟨outcome, hctx, -⟩ := hstands
    · have hne := h.ne_idle (by rw [hctx]; exact id)
      simp only [Ipc.resume, hctx] at hloop hkept howns
      obtain ⟨⟨port, hp, hrecv⟩, -⟩ := howns
      refine h.await (h.entered hphase (by simp) (by rw [hctx]; rfl)) (fun ackPort hack => ?_) hfind hp
        hrecv hk hne hloop
      have hphase' : (w.prog w.pid).phase = _ := hphase
      obtain ⟨cport, hkept⟩ := hkept ackPort hack
      exact ⟨cport, fun cont => hkept.moved (by rw [← World.pid, hphase']; rfl)
        (by rw [← World.pid, hphase']; rfl)⟩
    · exact absurd hctx (huser _)
  | replying =>
    rw [hphase] at hstands
    obtain ⟨p, i, hctx⟩ | ⟨outcome, hctx⟩ := hstands
    · exact h.sendReturns (.inr hphase) hctx hs
    · exact absurd hctx (huser _)

/-! ## The reply port -/

theorem balanced_nil (pid number : Word) (prog : Prog) (cont : Cont) (hphase : prog.phase = .idle) :
    Balanced pid (newPort number pid)
      ⟨[], prog.phase.unsent cont, [], [], prog.phase.hand cont, [], prog.phase.outstanding⟩ := by
  rw [hphase]
  exact ⟨rfl, rfl, rfl, rfl, Nat.zero_le _, nofun⟩

/-- **A task opens its reply port.** -/
theorem Inv.openAckPort (h : Inv cfg w)
    (hrange : InRange w.kernel.table ⟨w.pid, Scheduler.invalidPort⟩)
    (hapart : w.kernel.table.nextPortValue ≠ cfg.rpcPort) (hs : openAckPort w = .ok w') :
    Inv cfg w' := by
  simp only [Rpc.openAckPort, bind_eq_ok, check_eq_ok, pure_inj,
    World.act_eq_ok] at hs
  obtain ⟨-, hnone, -, ⟨k', hstep, rfl⟩, outcome, hout, rfl⟩ := hs
  have hk : Advances w.kernel k' :=
    .of_step h.orderly (by nofun) (by rintro n ⟨⟩; exact hrange) hstep
  obtain ⟨-, hne, table, result, hopen, rfl⟩ := step_portopen hstep
  obtain rfl : Outcome.value result = outcome := by
    cases World.outcome_eq_ok hout
    rfl
  have hblank := h.blank _ hnone
  obtain ⟨hresult, -, hnew⟩ := portopen_dynamic h.orderly.separated hrange hopen
  have hrpc : table.lookup cfg.rpcPort = w.kernel.table.lookup cfg.rpcPort := by
    refine (portopen_lookup h.sane.unlocked.table_free hopen cfg.rpcPort).resolve_right ?_
    rintro ⟨-, heq, -⟩
    exact hapart (hresult.symm.trans heq.symm)
  have hat : StandsAt (ret { w.kernel with table := table } (.value result)).sched w.pid
      (.user (.value result)) :=
    ret_at (k := { w.kernel with table := table }) h.sane.accounted.distinct hne _
  have hasked : sentTo table cfg.rpcPort = sentTo w.kernel.table cfg.rpcPort := sentTo_of_lookup hrpc
  let w₁ : World := { w with prog := Function.update w.prog w.pid ⟨some result, .idle⟩ }
  have hprog : w₁.prog w.pid = ⟨some result, .idle⟩ := Function.update_self ..
  have he : Entered cfg w w₁ .idle :=
    { kernel := rfl
      served := rfl
      others := fun pid hpid => ⟨Function.update_of_ne hpid _ _, rfl, rfl, rfl, rfl⟩
      phase := by rw [hprog]
      ackPort := by rw [hprog]; exact nofun
      hand := by rw [World.phase, hblank.phase]; rfl }
  refine he.inv h hk (he.serverSide h hk (.of_lookup hrpc) hat rfl)
    (fun pid _ => by show List.filter _ (sentTo table _) = _; rw [hasked])
    (fun n port hl _ _ => ?_) hat trivial fun ackPort hack => ?_
  · exact (portopen_lookup h.sane.unlocked.table_free hopen n).resolve_right
      fun hnone => nomatch hl.symm.trans hnone.1
  · rw [hprog] at hack
    cases hack
    have hphase : (w₁.prog w.pid).phase = .idle := he.phase
    refine ⟨_, ⟨hnew, rfl, hresult ▸ hapart, ?_, ?_, ?_⟩⟩
    · rintro call (hcall | hcall) <;> exact nomatch hphase.symm.trans hcall
    · rintro call hcall
      exact nomatch hphase.symm.trans hcall
    · have hanswered := h.server.answered_prefix h.orderly w.pid
      rw [hblank.asked, List.prefix_nil, List.map_eq_nil_iff] at hanswered
      have hasked' := hblank.asked
      rw [← hasked] at hasked'
      show Balanced w.pid (newPort result w.pid)
        ⟨(w.begun.filter (·.1 = w.pid)).map Prod.snd, _, (sentTo table _).filter _,
          w.served.filter _, _, w.finished.filter _, _⟩
      rw [hblank.calls, hblank.returned, hanswered, hasked']
      exact balanced_nil w.pid result (w₁.prog w.pid) (.user (.value result)) hphase

/-! ## Stubs -/

theorem World.goto_prog (phase : Phase) :
    (w.goto pid phase).prog pid = ⟨(w.prog pid).ackPort, phase⟩ := Function.update_self ..

/-- The current task goes on elsewhere in its program; only its own records change. -/
theorem entered_goto {begun : List (Word × Call)} {finished : List Finished}
    (hack : (w.prog w.pid).ackPort ≠ none)
    (hbegun : ∀ pid ≠ w.pid, begun.filter (·.1 = pid) = w.begun.filter (·.1 = pid))
    (hfinished : ∀ pid ≠ w.pid, finished.filter (·.client = pid) = w.finished.filter (·.client = pid))
    (hhand : w.phase.serverHand w.kernel.sched.current.context = []) :
    Entered cfg w ⟨w.kernel, (w.goto w.pid phase).prog, begun, w.served, finished⟩ phase where
  kernel := rfl
  served := rfl
  others := fun pid hne =>
    ⟨Function.update_of_ne hne _ _, hbegun pid hne, rfl, rfl, hfinished pid hne⟩
  phase := by
    rw [World.goto_prog]
  ackPort := by
    rw [World.goto_prog]
    exact hack
  hand := hhand

/-- The program goes on, and nothing in the books depends on it. -/
theorem Kept.goto (h : Kept cfg w pid ackPort cont port)
    (hvalid : ∀ call, phase = .sending call ∨ phase = .receiving call → call.Valid cfg ackPort)
    (htwo : ∀ call, phase = .receiving call → ¬ call.fn.OneWay)
    (hunsent : phase.unsent cont' = (w.prog pid).phase.unsent cont)
    (hhand : phase.hand cont' = (w.prog pid).phase.hand cont)
    (hout : phase.outstanding = (w.prog pid).phase.outstanding) :
    Kept cfg (w.goto pid phase) pid ackPort cont' port := by
  refine ⟨h.inbox, h.owner, h.apart, ?_, ?_, ?_⟩
  · rw [World.goto_prog]
    exact hvalid
  · rw [World.goto_prog]
    exact htwo
  · have hbal := h.balanced
    simp only [World.books, ← hunsent, ← hhand, ← hout] at hbal
    simp only [World.books, World.goto_prog]
    exact hbal

/-- At one of the system calls of a stub. -/
def Phase.InStub : Phase → Prop
  | .sending _ | .receiving _ => True
  | .idle | .ready | .awaiting | .handling _ | .replying => False

/-- Outside of stubs nothing is under way. -/
theorem Phase.outside (h : ¬ phase.InStub) (cont : Cont) :
    phase.unsent cont = [] ∧ phase.hand cont = [] ∧ phase.outstanding = [] := by
  cases phase with
  | sending | receiving => exact absurd trivial h
  | idle | ready | awaiting | handling | replying => exact ⟨rfl, rfl, rfl⟩

/-- The program goes on outside of stubs. -/
theorem Kept.outside (h : Kept cfg w pid ackPort cont port)
    (hphase : ¬ phase.InStub) (hunsent : (w.prog pid).phase.unsent cont = [])
    (hhand : (w.prog pid).phase.hand cont = [])
    (hout : (w.prog pid).phase.outstanding = []) :
    Kept cfg (w.goto pid phase) pid ackPort cont' port := by
  obtain ⟨hunsent', hhand', hout'⟩ := Phase.outside hphase cont'
  refine h.goto ?_ ?_ (hunsent'.trans hunsent.symm) (hhand'.trans hhand.symm) (hout'.trans hout.symm)
  · rintro call (rfl | rfl) <;> exact absurd trivial hphase
  · rintro call rfl
    exact absurd trivial hphase

/-- What the program does between two system calls leaves the kernel alone. -/
theorem Entered.inv_of_kernel {w₁ : World} (h : Inv cfg w)
    (he : Entered cfg w w₁ phase) (hhand : phase.serverHand w.kernel.sched.current.context = [])
    (hstands : phase.Stands cfg w.kernel.table (w₁.prog w.pid).ackPort
      w.kernel.sched.current.context)
    (hkept : ∀ ackPort, (w₁.prog w.pid).ackPort = some ackPort →
      ∃ port, Kept cfg w₁ w.pid ackPort w.kernel.sched.current.context port) : Inv cfg w₁ := by
  have hinv := he.inv_of_table h (.refl h.orderly) rfl h.standsAt hhand hstands hkept
  rw [← he.kernel] at hinv
  exact hinv

theorem beginCall_eq_ok {index : ℕ} {env : Env} (h : beginCall cfg w index env = .ok w') :
    ∃ ackPort fn request k', w.prog w.pid = ⟨some ackPort, .idle⟩ ∧
      cfg.interface[index]? = some fn ∧ stubRequest fn index env ackPort = .ok request ∧
      Ipc.step w.kernel (.call (.msgsend cfg.rpcPort (libMsgsend request))) = .ok k' ∧
      w' = { w.goto w.pid (.sending ⟨index, fn, env, request⟩) with
        kernel := k'
        begun := if fn.OneWay then w.begun else
          w.begun ++ [(w.pid, ⟨index, fn, env, request⟩)] } := by
  unfold beginCall at h
  split at h
  · rename_i ackPort fn hprog hfn
    simp only [bind_eq_ok, World.act_eq_ok, pure_inj] at h
    obtain ⟨request, hreq, -, ⟨k', hstep, rfl⟩, rfl⟩ := h
    exact ⟨ackPort, fn, request, k', hprog, hfn, hreq, hstep, rfl⟩
  · cases h

/-- The books when a call begins. -/
theorem Inv.books_begun (h : Inv cfg w) (hprog : w.prog w.pid = ⟨some ackPort, .idle⟩)
    (hkept : Kept cfg w w.pid ackPort w.kernel.sched.current.context port) :
    Balanced w.pid port (World.books cfg ⟨w.kernel, (w.goto w.pid (.sending call)).prog,
      if call.fn.OneWay then w.begun else w.begun ++ [(w.pid, call)], w.served, w.finished⟩ w.pid
      (.sendOpen cfg.rpcPort (libMsgsend call.request))) := by
  have hbal := hkept.balanced
  have hout : (w.books cfg w.pid w.kernel.sched.current.context).outstanding = [] := by
    simp only [World.books, hprog, Phase.outstanding]
  obtain ⟨hunsent, hhand, hqueue⟩ := hbal.settled (h.orderly.faithful hkept.inbox)
    (h.server.answered_prefix h.orderly w.pid) hout
  by_cases hone : call.fn.OneWay
  · simpa only [World.books, World.goto_prog, hprog, Phase.outstanding, Phase.unsent, Phase.hand,
      if_pos hone] using hbal
  · have hbegin := @Balanced.begin w.pid port _ call hbal hout hunsent ⟨hhand, hqueue⟩
    simpa only [World.books, World.goto_prog, hprog, Phase.outstanding, Phase.unsent, Phase.hand,
      if_neg hone, List.filter_append, List.map_append, List.filter_cons_of_pos, decide_true,
      List.filter_nil, List.map_cons, List.map_nil] using hbegin

/-- **A call begins.** -/
theorem Inv.beginCall {index : ℕ} {env : Env} (hcfg : cfg.Sound) (h : Inv cfg w)
    (hset : ∀ fn, cfg.interface[index]? = some fn → CallSet fn env)
    (hs : beginCall cfg w index env = .ok w') : Inv cfg w' := by
  obtain ⟨ackPort, fn, request, k', hprog, hfn, hreq, hstep, rfl⟩ := beginCall_eq_ok hs
  have hk : Advances w.kernel k' := .of_step h.orderly (by nofun) (by nofun) hstep
  obtain ⟨-, hne, hloop⟩ := step_msgsend hstep
  have hsound := hcfg.functions fn (List.mem_of_getElem? hfn)
  obtain ⟨hreply, hcode, hdata⟩ := stubRequest_eq_ok hsound.args (hset fn hfn).args hreq
  have hvalid : Call.Valid cfg ackPort ⟨index, fn, env, request⟩ :=
    ⟨hfn, hset fn hfn, hreply, hcode, hdata⟩
  have hack : (w.prog w.pid).ackPort = some ackPort := by rw [hprog]
  obtain ⟨port, hkept⟩ := h.current_kept hack
  have he : Entered cfg w ⟨w.kernel, (w.goto w.pid (.sending ⟨index, fn, env, request⟩)).prog,
      if fn.OneWay then w.begun else w.begun ++ [(w.pid, ⟨index, fn, env, request⟩)], w.served,
      w.finished⟩ (.sending ⟨index, fn, env, request⟩) := by
    refine entered_goto (by rw [hack]; exact nofun) (fun pid hpid => ?_) (fun _ _ => rfl) ?_
    · split
      · rfl
      · simp [List.filter_append, hpid.symm]
    · rw [World.phase, hprog]
      rfl
  refine h.send hcfg he (fun ackPort' hack' => ?_) hk hne hloop
  rw [World.goto_prog, hack] at hack'
  cases hack'
  refine ⟨port, ⟨hkept.inbox, hkept.owner, hkept.apart, ?_, ?_, h.books_begun hprog hkept⟩⟩
  · rw [he.phase]
    rintro call (hcall | hcall) <;> cases hcall
    exact hvalid
  · rw [he.phase]
    rintro call hcall
    cases hcall

theorem proceedCall_eq_ok (h : proceedCall w = .ok w') :
    ∃ ackPort call outcome, w.prog w.pid = ⟨some ackPort, .sending call⟩ ∧
      w.kernel.sched.current.context = .user outcome ∧
      ((outcome.eax ≠ 0 ∧ w' = w.finishCall call .failSend) ∨
        (outcome.eax = 0 ∧ call.fn.OneWay ∧ w' = w.finishCall call (.ok [] [])) ∨
        (outcome.eax = 0 ∧ ¬ call.fn.OneWay ∧ ∃ size k',
          stubReceiveSize call.fn call.env = .ok size ∧
          Ipc.step w.kernel (.call (.msgrecv ackPort size false)) = .ok k' ∧
          w' = { w.goto w.pid (.receiving call) with kernel := k' })) := by
  unfold proceedCall at h
  split at h
  · rename_i ackPort call hprog
    simp only [bind_eq_ok] at h
    obtain ⟨outcome, hout, h⟩ := h
    refine ⟨ackPort, call, outcome, hprog, World.outcome_eq_ok hout, ?_⟩
    split at h
    · cases h
      exact .inl ⟨‹_›, rfl⟩
    rename_i heax
    split at h
    · cases h
      exact .inr (.inl ⟨not_not.mp heax, ‹_›, rfl⟩)
    · simp only [bind_eq_ok, World.act_eq_ok, pure_inj] at h
      obtain ⟨size, hsize, -, ⟨k', hstep, rfl⟩, rfl⟩ := h
      exact .inr (.inr ⟨not_not.mp heax, ‹_›, size, k', hsize, hstep, rfl⟩)
  · cases h

/-- **The request has been taken.** A `oneway` call returns; another one waits for its reply. -/
theorem Inv.proceedCall (h : Inv cfg w) (hs : proceedCall w = .ok w') : Inv cfg w' := by
  obtain ⟨ackPort, call, outcome, hprog, hctx, hcases⟩ := proceedCall_eq_ok hs
  have hphase : w.phase = .sending call := by rw [World.phase, hprog]
  have hphase' : (w.prog w.pid).phase = .sending call := hphase
  have hack : (w.prog w.pid).ackPort = some ackPort := by rw [hprog]
  have hhand : w.phase.serverHand w.kernel.sched.current.context = [] := by
    rw [hphase]
    rfl
  obtain ⟨port, hkept⟩ := h.current_kept hack
  have hvalid := hkept.valid call (.inl hphase)
  have heax : outcome.eax = 0 := by
    have hstands := h.current_stands
    rw [hphase, hctx] at hstands
    rcases hstands with heq | ⟨_, _, heq⟩ | heq <;> cases heq
    rfl
  have he : ∀ phase, Entered cfg w (w.goto w.pid phase) phase := fun phase =>
    entered_goto (by rw [hack]; exact nofun) (fun _ _ => rfl) (fun _ _ => rfl) hhand
  rcases hcases with ⟨hne, -⟩ | ⟨-, hone, rfl⟩ | ⟨-, htwo, size, k', hsize, hstep, rfl⟩
  · exact absurd heax hne
  · -- a `oneway` call is not on record
    have hsame : w.finishCall call (.ok [] []) = w.goto w.pid .idle := by
      rw [World.finishCall, if_pos hone]
      rfl
    rw [hsame]
    refine (he .idle).inv_of_kernel h rfl (by rw [hctx]; trivial) fun ackPort' hack' => ?_
    rw [World.goto_prog, hack] at hack'
    cases hack'
    refine ⟨port, hkept.outside id ?_ ?_ ?_⟩
    · rw [hphase', hctx]
      rfl
    · rw [hphase']
      rfl
    · rw [hphase']
      exact if_pos hone
  · have hk : Advances w.kernel k' := .of_step h.orderly (by nofun) (by nofun) hstep
    obtain ⟨-, hne, hrefused | ⟨p, port', hfind, -, -, hloop⟩⟩ := step_msgrecv h.sane hstep
    · obtain ⟨-, -, -, hrefused⟩ := hrefused
      exact absurd hkept.owner (hrefused port hkept.inbox)
    · have hkept' : Kept cfg (w.goto w.pid (.receiving call)) w.pid ackPort
          (.recv p ackPort size false) port := by
        refine hkept.goto ?_ ?_ ?_ ?_ ?_
        · rintro _ (hcall | hcall) <;> cases hcall
          exact hvalid
        · rintro _ ⟨⟩
          exact htwo
        · rw [hphase', hctx]
          rfl
        · rw [hphase']
          rfl
        · rw [hphase']
          rfl
      exact h.receive (he (.receiving call)) (by rw [World.goto_prog, hack]) hkept' hfind hsize hk
        hne hloop

theorem endCall_eq_ok (h : endCall w = .ok w') :
    ∃ call outcome, w.phase = .receiving call ∧ w.kernel.sched.current.context = .user outcome ∧
      ((outcome.eax ≠ 0 ∧ w' = w.finishCall call .failRecv) ∨
        (outcome.eax = 0 ∧ ∃ results,
          w' = w.finishCall call (.ok (outcome.buffer.getD .zero).data results))) := by
  unfold endCall at h
  split at h
  · rename_i call hphase
    simp only [bind_eq_ok] at h
    obtain ⟨outcome, hout, -, -, h⟩ := h
    refine ⟨call, outcome, hphase, World.outcome_eq_ok hout, ?_⟩
    split at h
    · cases h
      exact .inl ⟨‹_›, rfl⟩
    · rename_i heax
      simp only [bind_eq_ok, pure_inj] at h
      obtain ⟨size, -, results, -, rfl⟩ := h
      exact .inr ⟨not_not.mp heax, results, rfl⟩
  · cases h

/-- **A call returns** with the reply in its hands. -/
theorem Inv.endCall (h : Inv cfg w) (hs : endCall w = .ok w') : Inv cfg w' := by
  obtain ⟨call, outcome, hphase, hctx, hcases⟩ := endCall_eq_ok hs
  obtain ⟨m, rfl⟩ : ∃ m, outcome = ⟨0, none, some m⟩ := by
    have hstands := h.current_stands
    rw [hphase, hctx] at hstands
    obtain ⟨_, _, _, heq, -⟩ | ⟨m, heq⟩ := hstands <;> cases heq
    exact ⟨m, rfl⟩
  rcases hcases with ⟨hne, -⟩ | ⟨-, results, rfl⟩
  · exact absurd rfl hne
  have hphase' : (w.prog w.pid).phase = .receiving call := hphase
  obtain ⟨ackPort, hack⟩ :=
    Option.ne_none_iff_exists'.mp (h.current_ackPort (by rw [hphase]; nofun))
  obtain ⟨port, hkept⟩ := h.current_kept hack
  have htwo := hkept.twoWay call hphase
  have he : Entered cfg w (w.finishCall call (.ok m.data results)) .idle := by
    refine entered_goto (by rw [hack]; exact nofun) (fun _ _ => rfl) (fun pid hpid => ?_) ?_
    · rw [if_neg htwo]
      simp [List.filter_append, hpid.symm]
    · rw [hphase]
      rfl
  show Inv cfg (w.finishCall call (.ok m.data results))
  refine he.inv_of_kernel h rfl (by rw [hctx]; trivial) fun ackPort' hack' => ?_
  have hprog : (w.finishCall call (.ok m.data results)).prog w.pid = ⟨some ackPort, .idle⟩ := by
    rw [← hack]
    exact World.goto_prog .idle
  rw [hprog] at hack'
  cases hack'
  refine ⟨port, ⟨hkept.inbox, hkept.owner, hkept.apart, ?_, ?_, ?_⟩⟩
  · rw [hprog]
    rintro call (hcall | hcall) <;> cases hcall
  · rw [hprog]
    rintro call hcall
    cases hcall
  · have hbal := hkept.balanced
    have hout : (w.books cfg w.pid w.kernel.sched.current.context).outstanding = [call] := by
      simp only [World.books, hphase', Phase.outstanding, if_neg htwo]
    have hhand : (w.books cfg w.pid w.kernel.sched.current.context).hand = [m] := by
      simp only [World.books, hphase', hctx, Phase.hand, Option.toList_some]
    have hreturns := hbal.returns (f := ⟨w.pid, call, .ok m.data results⟩) hout hhand rfl rfl
    have hfinished : (w.finishCall call (.ok m.data results)).finished =
        w.finished ++ [⟨w.pid, call, .ok m.data results⟩] := if_neg htwo
    simp only [World.books, hphase', hctx, Phase.unsent] at hreturns
    simp only [World.books, hprog, hctx, hfinished, Phase.unsent, Phase.hand, Phase.outstanding,
      List.filter_append, List.filter_cons_of_pos, decide_true, List.filter_nil]
    exact hreturns

end Rastapopoulos.Rpc
