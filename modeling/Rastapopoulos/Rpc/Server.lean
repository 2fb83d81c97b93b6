import Rastapopoulos.Rpc.Clients

/-!
# The steps of the server

`rpc_dispatch` is entered, receives a request, hands it to the marshaller and sends the reply. Each
step keeps the invariant. The one that matters is `Inv.handleRequest`: a reply is sent while the
client that asked for it is in the very call that the request belongs to, with nothing else under
way, so the reply is the next thing on the client's port.
-/

namespace Rastapopoulos.Rpc

open Ipc

variable {cfg : Config} {w w' : World} {pid ackPort : Word} {cont : Cont} {port : Port} {call : Call}
  {m : Message}

/-! ## The loop of `rpc_dispatch` -/

variable {phase : Phase} {t : Scheduler.Task Cont}

/-- The client's side of a step from one phase outside of stubs to another. -/
theorem Kept.dispatch {cont' : Cont} (h : Kept cfg w pid ackPort cont port)
    (hold : ¬ (w.prog pid).phase.InStub) (hphase : ¬ phase.InStub) :
    Kept cfg (w.goto pid phase) pid ackPort cont' port := by
  obtain ⟨hunsent, hhand, hout⟩ := Phase.outside hold cont
  exact h.outside hphase hunsent hhand hout

/-- A step of the program outside of stubs, which leaves the kernel alone. -/
theorem Inv.program {served : List Served} (h : Inv cfg w)
    (haff : ∀ pid, Unaffected cfg w { w with served := served } pid)
    (hack : (w.prog w.pid).ackPort ≠ none) (hold : ¬ w.phase.InStub) (hphase : ¬ phase.InStub)
    (hstands : phase.Stands cfg w.kernel.table (w.prog w.pid).ackPort
      w.kernel.sched.current.context)
    (hserver : ServerSide cfg (World.goto { w with served := served } w.pid phase)) :
    Inv cfg (World.goto { w with served := served } w.pid phase) := by
  refine h.alone (.refl h.orderly) (fun pid hpid => ?_) (fun _ _ _ _ _ => rfl)
    (by rw [World.goto_prog]; exact hack) (fun t ht hpid => ?_) hserver
  · exact ⟨Function.update_of_ne hpid _ _, rfl, rfl, (haff pid).answered, rfl⟩
  · rw [h.standsAt t ht hpid, World.goto_prog]
    refine ⟨hstands, fun ackPort hack => ?_⟩
    obtain ⟨port, hkept⟩ := h.current_kept hack
    exact ⟨port, ((haff w.pid).kept rfl hkept).dispatch hold hphase⟩

/-- The same where nothing is served. -/
theorem Inv.dispatch (h : Inv cfg w) (hack : (w.prog w.pid).ackPort ≠ none)
    (hold : ¬ w.phase.InStub) (hphase : ¬ phase.InStub)
    (hstands : phase.Stands cfg w.kernel.table (w.prog w.pid).ackPort
      w.kernel.sched.current.context)
    (hhand : phase.serverHand w.kernel.sched.current.context =
      w.phase.serverHand w.kernel.sched.current.context) : Inv cfg (w.goto w.pid phase) := by
  refine h.program (fun pid => .refl pid) hack hold hphase hstands ?_
  refine h.serverSide (.refl h.orderly) rfl (fun pid hne => Function.update_of_ne hne _ _)
    (.of_lookup rfl) fun t ht hpid => ?_
  rw [h.standsAt t ht hpid, World.goto_prog]
  exact hhand

/-- **A task enters `rpc_dispatch`.** -/
theorem Inv.serve (h : Inv cfg w) (hs : serve w = .ok w') : Inv cfg w' := by
  unfold Rpc.serve at hs
  split at hs
  · rename_i ackPort hprog
    cases hs
    have hstands := h.current_stands
    rw [World.phase, hprog] at hstands
    refine h.dispatch ?_ ?_ id ?_ ?_
    · rw [hprog]
      simp
    · rw [World.phase, hprog]
      exact id
    · rw [hprog]
      exact hstands
    · rw [World.phase, hprog]
      rfl
  · cases hs

/-- **`rpc_dispatch` asks for a request.** -/
theorem Inv.receiveRequest (h : Inv cfg w) (hs : receiveRequest cfg w = .ok w') : Inv cfg w' := by
  unfold Rpc.receiveRequest at hs
  split at hs
  · rename_i hphase
    simp only [bind_eq_ok, World.act_eq_ok, pure_inj] at hs
    obtain ⟨-, ⟨k', hstep, rfl⟩, rfl⟩ := hs
    have hk : Advances w.kernel k' := .of_step h.orderly (by nofun) (by nofun) hstep
    have hphase' : (w.prog w.pid).phase = .ready := hphase
    have hack := h.ackPort_ne_none (by rw [hphase']; nofun)
    have he : Entered cfg w (w.goto w.pid .awaiting) .awaiting :=
      entered_goto hack (fun _ _ => rfl) (fun _ _ => rfl) (by rw [hphase]; rfl)
    have hkept : ∀ ackPort, ((w.goto w.pid .awaiting).prog w.pid).ackPort = some ackPort →
        ∃ port, ∀ cont, Kept cfg (w.goto w.pid .awaiting) w.pid ackPort cont port := by
      intro ackPort hack
      rw [World.goto_prog] at hack
      obtain ⟨port, hkept⟩ := h.current_kept hack
      exact ⟨port, fun cont => hkept.dispatch (by rw [hphase']; exact id) id⟩
    obtain ⟨-, hne, ⟨eax, heax, rfl, -⟩ | ⟨p, port, hfind, hp, hrecv, hloop⟩⟩ :=
      step_msgrecv h.sane hstep
    · have hat : StandsAt (ret w.kernel (.value eax)).sched w.pid (.user (.value eax)) :=
        ret_at h.sane.accounted.distinct hne _
      refine he.inv_of_table h hk rfl hat rfl (.inr ⟨_, rfl, .inl ⟨heax, rfl⟩⟩) fun ackPort hack => ?_
      exact (hkept ackPort hack).imp fun _ hall => hall _
    · exact h.await he hkept hfind hp hrecv hk hne hloop
  · cases hs

/-- **`rpc_dispatch` has a request.** -/
theorem Inv.acceptRequest (h : Inv cfg w) (hs : acceptRequest w = .ok w') : Inv cfg w' := by
  unfold Rpc.acceptRequest at hs
  split at hs
  · rename_i hphase
    simp only [bind_eq_ok, check_eq_ok, pure_inj] at hs
    obtain ⟨outcome, hout, -, -, -, heax, rfl⟩ := hs
    have hctx := World.outcome_eq_ok hout
    obtain ⟨m, hm, hsize⟩ : ∃ m, outcome.buffer = some m ∧ m.size ≤ dispatchBufferSize := by
      have hstands := h.current_stands
      rw [hphase, hctx] at hstands
      obtain ⟨_, heq, -⟩ | ⟨_, heq, hcases⟩ := hstands <;> cases heq
      exact hcases.resolve_left fun hrefused => hrefused.1 heax
    rw [hm, Option.getD_some]
    refine h.dispatch (h.current_ackPort (by rw [hphase]; nofun)) (by rw [hphase]; exact id) id ?_ ?_
    · rw [hctx]
      exact ⟨trivial, hsize⟩
    · rw [hphase, hctx, Phase.serverHand, Phase.serverHand, hm]
      rfl
  · cases hs

/-- **The reply has been taken**, and `rpc_dispatch` goes on. -/
theorem Inv.replySent (h : Inv cfg w) (hs : replySent w = .ok w') : Inv cfg w' := by
  unfold Rpc.replySent at hs
  split at hs
  · rename_i hphase
    simp only [bind_eq_ok, check_eq_ok, pure_inj] at hs
    obtain ⟨outcome, hout, -, -, rfl⟩ := hs
    refine h.dispatch (h.current_ackPort (by rw [hphase]; nofun)) (by rw [hphase]; exact id) id ?_ ?_
    · rw [World.outcome_eq_ok hout]
      trivial
    · rw [hphase]
      rfl
  · cases hs

/-! ## Replies -/

theorem handleRequest_eq_ok {env : Env} {resbuf : List Byte}
    (h : handleRequest cfg w env resbuf = .ok w') :
    ∃ m fn log reply, w.phase = .handling m ∧ caseFor m.code 0 cfg.interface = some fn ∧
      marshallArgs fn m = .ok log ∧ marshallReply fn env resbuf = .ok reply ∧
      ((reply = none ∧
          w' = ({ w with served := w.served ++ [⟨m, none⟩] } : World).goto w.pid .ready) ∨
        ∃ data sndBuf k', reply = some data ∧
          newMessage Scheduler.invalidPort 0 data = .ok sndBuf ∧
          Ipc.step w.kernel (.call (.msgsend m.replyPort (libMsgsend sndBuf))) = .ok k' ∧
          w' = World.goto ⟨k', w.prog, w.begun, w.served ++ [⟨m, some data⟩], w.finished⟩ w.pid
            .replying) := by
  unfold handleRequest at h
  split at h
  · rename_i m hphase
    split at h
    · cases h
    · rename_i fn hcase
      simp only [bind_eq_ok] at h
      obtain ⟨log, hargs, reply, hreply, h⟩ := h
      refine ⟨m, fn, log, reply, hphase, hcase, hargs, hreply, ?_⟩
      cases reply with
      | none =>
        cases h
        exact .inl ⟨rfl, rfl⟩
      | some data =>
        simp only [bind_eq_ok, World.act_eq_ok, pure_inj] at h
        obtain ⟨sndBuf, hsnd, -, ⟨k', hstep, rfl⟩, rfl⟩ := h
        exact .inr ⟨data, sndBuf, k', rfl, hsnd, hstep, rfl⟩
  · cases h

/-- A task in a handler has opened the server's port, and its request was taken last. -/
theorem Inv.handling (h : Inv cfg w) (hphase : w.phase = .handling m) :
    ∃ port, w.kernel.table.lookup cfg.rpcPort = some port ∧ port.receiver = w.pid ∧
      port.taken.map Taken.message = w.served.map Served.request ++ [m] := by
  have hhand : w.phase.serverHand w.kernel.sched.current.context = [m] := by
    rw [hphase]
    rfl
  cases hl : w.kernel.table.lookup cfg.rpcPort with
  | none =>
    have hnil : w.phase.serverHand w.kernel.sched.current.context = [] :=
      (h.server.closed hl).2 _ Inv.current_mem
    exact absurd (hhand.symm.trans hnil) (List.cons_ne_nil _ _)
  | some port =>
    obtain ⟨-, hand, heq, hall⟩ := h.server.opened port hl
    have hown : w.phase.serverHand w.kernel.sched.current.context =
      if w.pid = port.receiver then hand else [] := hall _ Inv.current_mem
    rw [hhand] at hown
    split at hown
    · rename_i hrecv
      exact ⟨port, rfl, hrecv.symm, hown ▸ heq⟩
    · cases hown

/-- The server's side once the request in hand is served. -/
theorem Inv.serverSide_handled {reply : Option (List Byte)} (h : Inv cfg w)
    (hphase : w.phase = .handling m) (hk : Advances w.kernel w'.kernel)
    (hserved : w'.served = w.served ++ [⟨m, reply⟩])
    (hprog : ∀ pid ≠ w.pid, w'.prog pid = w.prog pid)
    (hlookup : w'.kernel.table.lookup cfg.rpcPort = w.kernel.table.lookup cfg.rpcPort)
    (hself : ∀ t' ∈ w'.kernel.sched.all, t'.pid = w.pid →
      (w'.prog w.pid).phase.serverHand t'.context = []) : ServerSide cfg w' := by
  obtain ⟨port, hl, hrecv, htaken⟩ := h.handling hphase
  obtain ⟨hcr, hand, -, hall⟩ := h.server.opened port hl
  refine ⟨fun port' hl' => ?_, fun hnone => nomatch hl.symm.trans (hlookup.symm.trans hnone)⟩
  cases (hlookup.trans hl).symm.trans hl'
  refine ⟨hk.created _ hcr, [], ?_, fun t' ht' => ?_⟩
  · rw [htaken, hserved, List.map_append, List.append_nil]
    rfl
  · rw [ite_self]
    by_cases hpid : t'.pid = w.pid
    · rw [hpid]
      exact hself t' ht' hpid
    rcases h.serverHand_others hk hprog ht' hpid with ⟨t, ht, htpid, hsame⟩ | ⟨-, hnil⟩
    · rw [hsame, hall t ht, if_neg fun heq => hpid (htpid.symm.trans (heq.trans hrecv))]
    · exact hnil

/-- A request that is not the client's, or is not to be answered, is not in its books. -/
theorem unaffected_served {s : Served} (hwants : cfg.wants pid s.request = false) :
    Unaffected cfg w { w with served := w.served ++ [s] } pid := by
  refine ⟨rfl, rfl, rfl, ?_, rfl⟩
  simp [List.filter_append, hwants]

/-- **The handler of a `oneway` function returns.** -/
theorem Inv.handled_oneWay (h : Inv cfg w) (hphase : w.phase = .handling m)
    (hone : cfg.twoWay m.code = false) :
    Inv cfg (({ w with served := w.served ++ [⟨m, none⟩] } : World).goto w.pid .ready) := by
  have hstands := h.current_stands
  rw [hphase] at hstands
  refine h.program (fun pid => ?_) (h.current_ackPort (by rw [hphase]; nofun))
    (by rw [hphase]; exact id) id hstands.1 ?_
  · exact unaffected_served (by rw [Config.wants, hone, Bool.and_false])
  · refine h.serverSide_handled hphase (.refl h.orderly) rfl
      (fun pid hne => Function.update_of_ne hne _ _) rfl fun t ht hpid => ?_
    rw [World.goto_prog]
    rfl

/-- A call is outstanding only while its task is in the stub. -/
theorem Phase.mem_outstanding (h : call ∈ phase.outstanding) :
    (phase = .sending call ∨ phase = .receiving call) ∧ ¬ call.fn.OneWay := by
  cases phase with
  | sending call' | receiving call' =>
    simp only [Phase.outstanding] at h
    split at h
    · cases h
    · rename_i htwo
      cases List.mem_singleton.mp h
      exact ⟨by simp, htwo⟩
  | idle | ready | awaiting | handling | replying => cases h

/-- The client that waits for the answer to a request. -/
structure Asker (cfg : Config) (w : World) (m : Message) (t : Scheduler.Task Cont) (ackPort : Word)
    (port : Port) (call : Call) : Prop where
  mem : t ∈ w.kernel.sched.all
  other : t.pid ≠ w.pid
  sender : m.sender = t.pid
  replyPort : (w.prog t.pid).ackPort = some ackPort
  kept : Kept cfg w t.pid ackPort t.context port
  outstanding : (w.books cfg t.pid t.context).outstanding = [call]
  twoWay : ¬ call.fn.OneWay
  valid : call.Valid cfg ackPort
  request : m = call.request.stamp t.pid
  hand : (w.books cfg t.pid t.context).hand = []
  queue : port.queue = []

/-- **The client that asked** is in the call that the request belongs to, and nothing else of it is
under way. -/
theorem Inv.asker (h : Inv cfg w) (hphase : w.phase = .handling m)
    (htwo : cfg.twoWay m.code = true) : ∃ t ackPort port call, Asker cfg w m t ackPort port call := by
  obtain ⟨sport, hl, -, htaken⟩ := h.handling hphase
  have hwants : cfg.wants m.sender m = true := by simp [Config.wants, htwo]
  -- the requests answered and this one are the first that the client has queued
  have hprefix : (w.served.filter fun s => cfg.wants m.sender s.request).map Served.request ++ [m] <+:
      (sentTo w.kernel.table cfg.rpcPort).filter (cfg.wants m.sender) := by
    have hmap : (w.served.filter fun s => cfg.wants m.sender s.request).map Served.request ++ [m] =
        (w.served.map Served.request ++ [m]).filter (cfg.wants m.sender) := by
      rw [List.filter_append, List.filter_map, List.filter_cons_of_pos hwants]
      rfl
    rw [hmap, sentTo, hl]
    refine List.IsPrefix.filter _ ?_
    simp only [← (h.orderly.faithful hl).fifo, htaken]
    exact List.prefix_append _ _
  have hasked : (sentTo w.kernel.table cfg.rpcPort).filter (cfg.wants m.sender) ≠ [] := by
    intro hnil
    rw [hnil] at hprefix
    exact absurd hprefix.length_le (by simp)
  have hack : (w.prog m.sender).ackPort ≠ none := fun hnone => hasked (h.blank _ hnone).asked
  have hcreated : w.kernel.sched.Created m.sender := by
    by_contra hnot
    exact hack (h.created _ hnot)
  obtain ⟨t, ht, hpid⟩ := h.sane.accounted.exists_task h.orderly.allThere hcreated
  rw [← hpid] at hack hprefix
  obtain ⟨ackPort, hack⟩ := Option.ne_none_iff_exists'.mp hack
  obtain ⟨port, hkept⟩ := h.kept t ht ackPort hack
  obtain ⟨call, hout, hm, -, hhand, hqueue⟩ :=
    hkept.balanced.asked_eq (h.orderly.faithful hkept.inbox) hprefix
  have hmem : call ∈ (w.prog t.pid).phase.outstanding := by
    show call ∈ (w.books cfg t.pid t.context).outstanding
    rw [hout]
    exact List.mem_singleton_self call
  obtain ⟨hcall, htwo'⟩ := Phase.mem_outstanding hmem
  refine ⟨t, ackPort, port, call, ht, fun heq => ?_, hpid.symm, hack, hkept, hout, htwo',
    hkept.valid call hcall, hm, hhand, hqueue⟩
  -- the server itself is not in a stub
  have hserver : (w.prog t.pid).phase = .handling m := by
    rw [heq]
    exact hphase
  rw [hserver] at hcall
  rcases hcall with hcall | hcall <;> cases hcall

/-- The books of the client once its reply is queued. -/
theorem Asker.answered {data : List Byte} {sent : Sent} {k' : Kernel}
    (h : Asker cfg w m t ackPort port call) (htwo : cfg.twoWay m.code = true)
    (hdata : sent.copy.data = data) (hacc : Accepts call.fn call.env data)
    (hprog : w'.prog t.pid = w.prog t.pid) (hbegun : w'.begun = w.begun)
    (hfinished : w'.finished = w.finished) (hkernel : w'.kernel = k')
    (hserved : w'.served = w.served ++ [⟨m, some data⟩])
    (hl : k'.table.lookup ackPort = some (port.push sent))
    (hrpc : k'.table.lookup cfg.rpcPort = w.kernel.table.lookup cfg.rpcPort) :
    Kept cfg w' t.pid ackPort t.context (port.push sent) where
  inbox := hkernel ▸ hl
  owner := h.kept.owner
  apart := h.kept.apart
  valid := hprog ▸ h.kept.valid
  twoWay := hprog ▸ h.kept.twoWay
  balanced := by
    have hwants : cfg.wants t.pid m = true := by
      rw [Config.wants, htwo, h.sender, decide_eq_true rfl, Bool.and_true]
    have hbal := h.kept.balanced.answer (s := ⟨m, some data⟩) (hdata ▸ rfl) h.outstanding
      ⟨h.hand, h.queue⟩ (hdata.symm ▸ hacc)
    simpa only [World.books, hprog, hbegun, hfinished, hserved, hkernel, sentTo_of_lookup hrpc,
      List.filter_append, List.filter_cons, hwants, if_true, List.filter_nil] using hbal

/-- **The reply is sent** to the client that waits for it. -/
theorem Inv.handled_twoWay {data : List Byte} {sndBuf : Message}
    {k' : Kernel} (h : Inv cfg w) (hphase : w.phase = .handling m)
    (htwo : cfg.twoWay m.code = true) (hasker : Asker cfg w m t ackPort port call)
    (hacc : Accepts call.fn call.env data) (hdata : sndBuf.data = data)
    (hstep : Ipc.step w.kernel (.call (.msgsend m.replyPort (libMsgsend sndBuf))) = .ok k') :
    Inv cfg (World.goto ⟨k', w.prog, w.begun, w.served ++ [⟨m, some data⟩], w.finished⟩ w.pid
      .replying) := by
  have hk : Advances w.kernel k' := .of_step h.orderly (by nofun) (by nofun) hstep
  obtain ⟨-, hne, hloop⟩ := step_msgsend hstep
  have hinbox := hasker.kept.inbox
  have hreply : m.replyPort = ackPort := by
    rw [hasker.request]
    exact hasker.valid.replyPort
  rw [hreply] at hloop
  rcases sendLoop_effect h.sane hne hloop with ⟨hnone, -⟩ | ⟨p, port', hl, hl', hother, hat⟩
  · exact nomatch hinbox.symm.trans hnone
  cases hinbox.symm.trans hl
  have hphase' : (w.prog w.pid).phase = .handling m := hphase
  have hrpc := hother cfg.rpcPort hasker.kept.apart.symm
  -- all other tasks, the server's own calls among them
  let w₀ : World := ⟨k', w.prog, w.begun, w.served ++ [⟨m, some data⟩], w.finished⟩
  have haff : ∀ pid ≠ t.pid, Unaffected cfg w w₀ pid := by
    intro pid hpid
    have hserved : Unaffected cfg w { w with served := w.served ++ [⟨m, some data⟩] } pid :=
      unaffected_served (by
        rw [Config.wants, hasker.sender, decide_eq_false hpid.symm, Bool.false_and])
    exact ⟨rfl, rfl, by rw [sentTo_of_lookup hrpc], hserved.answered, rfl⟩
  have hsame : ∀ {pid n port'}, pid ≠ t.pid → w.kernel.table.lookup n = some port' →
      port'.receiver = pid → k'.table.lookup n = w.kernel.table.lookup n := by
    intro pid n port' hpid hn hrecv
    refine hother n ?_
    rintro rfl
    cases hn.symm.trans hl
    exact hpid (hrecv.symm.trans hasker.kept.owner)
  have hprog : ∀ pid ≠ w.pid, (w₀.goto w.pid .replying).prog pid = w.prog pid := fun pid hne =>
    Function.update_of_ne hne _ _
  refine h.next hk hprog (fun pid hnone => ?_) ?_ (fun t' ht' hpid => ?_) ?_
  · have hpid : pid ≠ w.pid := by
      rintro rfl
      rw [World.goto_prog] at hnone
      exact h.ackPort_ne_none (by rw [hphase']; nofun) hnone
    rw [hprog pid hpid] at hnone
    have hpid' : pid ≠ t.pid := by
      rintro rfl
      exact nomatch hasker.replyPort.symm.trans hnone
    have hblank := (haff pid hpid').blank (h.blank pid hnone)
    exact ⟨(hprog pid hpid).symm ▸ hblank.phase, hblank.calls, hblank.returned, hblank.asked⟩
  · intro t' ht' hpid ackPort' port' hack hkept
    by_cases hclient : t'.pid = t.pid
    · cases h.sane.accounted.eq_of_pid ht' hasker.mem hclient
      cases hasker.replyPort.symm.trans hack
      exact ⟨_, hasker.answered htwo (by exact hdata) hacc (hprog _ hpid) rfl rfl rfl rfl hl' hrpc⟩
    · have hkept' := (haff t'.pid hclient).kept (hsame hclient hkept.inbox hkept.owner) hkept
      have hgoto : Unaffected cfg w₀ (w₀.goto w.pid .replying) t'.pid :=
        ⟨hprog _ hpid, rfl, rfl, rfl, rfl⟩
      exact ⟨port', hgoto.kept rfl hkept'⟩
  · have hcont : t'.context = .sendTaken p port.sent.length := hat t' ht' hpid
    rw [hcont, World.goto_prog]
    refine ⟨.inl ⟨_, _, rfl⟩, fun ackPort' hack' => ?_⟩
    obtain ⟨port', hkept⟩ := h.current_kept hack'
    have hself := hasker.other.symm
    have hkept' := (haff w.pid hself).kept (hsame hself hkept.inbox hkept.owner) hkept
    exact ⟨port', hkept'.dispatch (by rw [hphase']; exact id) id⟩
  · refine h.serverSide_handled hphase hk rfl hprog hrpc fun t' ht' hpid => ?_
    rw [World.goto_prog]
    rfl

/-- **The handler returns.** -/
theorem Inv.handleRequest {env : Env} {resbuf : List Byte} (hcfg : cfg.Sound) (h : Inv cfg w)
    (hbuf : resbuf.length = replyRoom)
    (hset : ∀ request fn log, w.phase = .handling request →
      caseFor request.code 0 cfg.interface = some fn → marshallArgs fn request = .ok log →
      HandlerSet fn log env)
    (hs : handleRequest cfg w env resbuf = .ok w') : Inv cfg w' := by
  obtain ⟨m, fn, log, reply, hphase, hcase, hargs, hreply, hcases⟩ := handleRequest_eq_ok hs
  have hsize : m.size ≤ dispatchBufferSize := by
    have hstands := h.current_stands
    rw [hphase] at hstands
    exact hstands.2
  have hfn : fn ∈ cfg.interface := caseFor_mem hcase
  have hcode : cfg.twoWay m.code = !decide fn.OneWay := by rw [Config.twoWay, hcase]
  by_cases hone : fn.OneWay
  · rw [decide_eq_true hone] at hcode
    obtain rfl := marshallReply_oneWay (hcfg.functions fn hfn) hone hreply
    rcases hcases with ⟨-, rfl⟩ | ⟨_, _, _, hnone, -⟩
    · exact h.handled_oneWay hphase hcode
    · cases hnone
  · rw [decide_eq_false hone] at hcode
    obtain ⟨t, ackPort, port, call, hasker⟩ := h.asker hphase hcode
    -- the function is the one that was called
    have hcall : caseFor (messageCode (0 + call.index)) 0 cfg.interface = some call.fn :=
      caseFor_messageCode hasker.valid.fn (by have := hcfg.codes; omega)
    have hcodeEq : m.code = messageCode (0 + call.index) := by
      rw [hasker.request, Nat.zero_add, ← hasker.valid.code]
      rfl
    rw [hcodeEq, hcall, Option.some.injEq] at hcase
    subst hcase
    have hdata : m.data = requestBytes call.env call.fn := by
      rw [hasker.request, ← hasker.valid.data]
      rfl
    obtain ⟨data, rfl, hacc⟩ := marshallReply_accepted (hcfg.functions _ hfn) hone
      hasker.valid.set hdata hsize hargs (hset m _ log hphase (hcodeEq ▸ hcall) hargs) hbuf hreply
    rcases hcases with ⟨hnone, -⟩ | ⟨data', sndBuf, k', heq, hsnd, hstep, rfl⟩
    · cases hnone
    · cases heq
      exact h.handled_twoWay hphase hcode hasker hacc (newMessage_eq_ok hsnd).2.2 hstep

end Rastapopoulos.Rpc
