import Rastapopoulos.Rpc.Server

/-!
# Replies reach the calls they belong to

`replies_match_of_reach`: in every run of clients and servers, the calls of a client that have
returned got, in order, the replies that the handler produced for the requests of these calls, and
what the handler has produced besides is on the client's own port or in its hands.
-/

namespace Rastapopoulos.Rpc

open Ipc

variable {cfg : Config} {w w' : World}

/-! ## Every step keeps the invariant -/

theorem Inv.step {act : Act} (hcfg : cfg.Sound) (h : Inv cfg w) (hq : Allowed cfg w act)
    (hs : step cfg w act = .ok w') : Inv cfg w' := by
  cases act with
  | tick =>
    obtain ⟨k', hstep, rfl⟩ := World.act_eq_ok.mp hs
    exact h.quiet .tick (.inl rfl) nofun hstep
  | resume => exact h.resume hcfg hs
  | other syscall =>
    simp only [Rpc.step, bind_eq_ok, check_eq_ok, World.act_eq_ok] at hs
    obtain ⟨-, ⟨hfree, hord⟩, k', hstep, rfl⟩ := hs
    refine h.quiet (.call hord) (.inr hfree) ?_ hstep
    rintro n ⟨⟩
    exact hq
  | openAckPort => exact h.openAckPort hq.1 hq.2 hs
  | beginCall index env => exact h.beginCall hcfg hq hs
  | proceedCall => exact h.proceedCall hs
  | endCall => exact h.endCall hs
  | serve => exact h.serve hs
  | receiveRequest => exact h.receiveRequest hs
  | acceptRequest => exact h.acceptRequest hs
  | handleRequest env resbuf => exact h.handleRequest hcfg hq.1 hq.2 hs
  | replySent => exact h.replySent hs

theorem lookup_boot (number : Word) : boot.kernel.table.lookup number = none := by
  apply PortTable.lookup_of_find_none
  simp [boot, Ipc.boot, ipcInit, PortTable.find]

theorem inv_boot : Inv cfg boot where
  orderly := orderly_boot
  created := fun _ _ => rfl
  blank := fun _ _ => ⟨rfl, rfl, rfl, by rw [sentTo, lookup_boot]; rfl⟩
  stands := by
    intro t ht
    have hctx : t.context = .user (.value 0) := by
      rcases List.mem_cons.mp ht with rfl | ht
      · rfl
      rcases List.mem_cons.mp ht with rfl | ht
      · rfl
      · cases ht
    show Phase.idle.Stands _ _ _ _
    rw [hctx]
    trivial
  kept := fun _ _ _ hack => nomatch hack
  server :=
    { opened := fun port hl => nomatch (lookup_boot cfg.rpcPort).symm.trans hl
      closed := fun _ => ⟨rfl, fun _ _ => rfl⟩ }

theorem inv_of_reach (hcfg : cfg.Sound) (h : Reach (step cfg) (Allowed cfg) boot w) : Inv cfg w :=
  h.invariant inv_boot fun _ _ _ hinv hq hs => hinv.step hcfg hq hs

/-! ## The result -/

namespace World

/-- The calls that the client has begun and that are not `oneway`. -/
def callsOf (w : World) (client : Word) : List Call :=
  (w.begun.filter (·.1 = client)).map Prod.snd

/-- Those that have returned. -/
def returnedTo (w : World) (client : Word) : List Finished :=
  w.finished.filter (·.client = client)

/-- The requests of the client, to functions that are not `oneway`, for which the handler has
returned, with the replies. -/
def answeredTo (cfg : Config) (w : World) (client : Word) : List Served :=
  w.served.filter fun s => cfg.wants client s.request

/-- The replies on the client's port. -/
def onPort (w : World) (client : Word) : List Message :=
  match (w.prog client).ackPort with
  | some ackPort => match w.kernel.table.lookup ackPort with
    | some port => port.queue
    | none => []
  | none => []

/-- The reply that the client's `msgrecv` has returned and its stub has not. -/
def inHand (w : World) (client : Word) : List Message :=
  match w.kernel.sched.all.find? (·.pid = client) with
  | some t => (w.prog client).phase.hand t.context
  | none => []

end World

/-- The calls of a client and the replies to its requests match. -/
structure Matched (cfg : Config) (w : World) (client : Word) : Prop where
  /-- The calls that have returned got the replies that were produced for their requests. -/
  returned : (w.returnedTo client).map (fun f => (f.call.request.stamp client, f.reply)) <+:
    (w.answeredTo cfg client).map fun s => (s.request, s.reply)
  /-- They have returned `RPC_OK`. -/
  ok : ∀ f ∈ w.returnedTo client, ∃ reply results, f.result = .ok reply results
  /-- What was produced and has not returned is on the client's port or in its hands. -/
  replies : (w.answeredTo cfg client).map Served.reply = (w.returnedTo client).map Finished.reply ++
    (w.inHand client ++ w.onPort client).map fun m => some m.data
  /-- Handlers get the requests in the order of the calls, each once. -/
  requests : (w.answeredTo cfg client).map Served.request <+:
    (w.callsOf client).map (·.request.stamp client)
  /-- Calls return in order, one at a time. -/
  calls : ∃ outstanding : List Call, outstanding.length ≤ 1 ∧
    w.callsOf client = (w.returnedTo client).map Finished.call ++ outstanding ∧
    ∀ call ∈ outstanding, ∀ m ∈ w.inHand client ++ w.onPort client, Accepts call.fn call.env m.data

theorem Inv.inHand_eq (h : Inv cfg w) {t : Scheduler.Task Cont} (ht : t ∈ w.kernel.sched.all) :
    w.inHand t.pid = (w.prog t.pid).phase.hand t.context := by
  unfold World.inHand
  cases hfind : w.kernel.sched.all.find? (·.pid = t.pid) with
  | none => exact absurd (List.find?_eq_none.mp hfind t ht) (by simp)
  | some t' =>
    have hpid : t'.pid = t.pid := by simpa using List.find?_some hfind
    rw [h.sane.accounted.eq_of_pid (List.mem_of_find?_eq_some hfind) ht hpid]

/-- Books that balance say that calls and replies match. -/
theorem Kept.matched {t : Scheduler.Task Cont} {ackPort : Word} {port : Port} (h : Inv cfg w)
    (ht : t ∈ w.kernel.sched.all) (hack : (w.prog t.pid).ackPort = some ackPort)
    (hkept : Kept cfg w t.pid ackPort t.context port) : Matched cfg w t.pid := by
  have hbal := hkept.balanced
  have hport := h.orderly.faithful hkept.inbox
  have hprefix := h.server.answered_prefix h.orderly t.pid
  have honPort : w.onPort t.pid = port.queue := by simp only [World.onPort, hack, hkept.inbox]
  have hreplies : (w.answeredTo cfg t.pid).map Served.reply =
      (w.returnedTo t.pid).map Finished.reply ++
        (w.inHand t.pid ++ w.onPort t.pid).map fun m => some m.data := by
    have hfifo := congrArg (List.map fun m : Message => some m.data) hport.fifo
    simp only [List.map_append, List.map_map] at hfifo
    rw [h.inHand_eq ht, honPort, List.map_append, ← List.append_assoc]
    calc (w.answeredTo cfg t.pid).map Served.reply
        = port.sent.map fun s => some s.copy.data := hbal.answers
      _ = (port.taken.map fun t => some t.message.data) ++ port.queue.map fun m => some m.data :=
          hfifo.symm
      _ = _ := by rw [← hbal.takes]; rfl
  refine ⟨hbal.returned_prefix hport hprefix, fun f hf => ?_, hreplies,
    hprefix.trans (hbal.sends ▸ List.prefix_append _ _), _, hbal.single, hbal.calls, ?_⟩
  · -- what the stub has returned was taken from the port
    have hmem : f.reply ∈ (port.taken.map fun t => some t.message.data) := by
      rw [← hbal.takes]
      exact List.mem_append_left _ (List.mem_map_of_mem hf)
    obtain ⟨taken, -, heq⟩ := List.mem_map.mp hmem
    cases hr : f.result with
    | ok reply results => exact ⟨reply, results, rfl⟩
    | failSend | failRecv =>
      rw [Finished.reply, hr] at heq
      cases heq
  · rw [h.inHand_eq ht, honPort]
    exact hbal.accepted

/-- A task that has not opened its reply port has called nothing. -/
theorem Blank.matched (h : Inv cfg w) {client : Word} (hnone : (w.prog client).ackPort = none) :
    Matched cfg w client := by
  have hblank := h.blank client hnone
  have hanswered : w.answeredTo cfg client = [] := by
    have hprefix := h.server.answered_prefix h.orderly client
    rw [hblank.asked, List.prefix_nil, List.map_eq_nil_iff] at hprefix
    exact hprefix
  have hreturned : w.returnedTo client = [] := hblank.returned
  have hcalls : w.callsOf client = [] := by rw [World.callsOf, hblank.calls]; rfl
  have hhand : w.inHand client = [] := by
    rw [World.inHand, hblank.phase]
    split <;> rfl
  have hport : w.onPort client = [] := by rw [World.onPort, hnone]
  exact ⟨by simp [hreturned], by simp [hreturned], by simp [hanswered, hreturned, hhand, hport],
    by simp [hanswered], [], by simp, by simp [hcalls, hreturned], by simp⟩

/-- **Replies match requests.** For any number of clients, each with its own reply port and calling
one stub at a time, and whatever the tasks and the timer do in between: every call that has returned
got the reply that the handler produced for its request, and no reply is lost, returned twice, or
returned to another client or to a later call. -/
theorem replies_match_of_reach (hcfg : cfg.Sound) (h : Reach (step cfg) (Allowed cfg) boot w)
    (client : Word) : Matched cfg w client := by
  have hinv := inv_of_reach hcfg h
  cases hack : (w.prog client).ackPort with
  | none => exact Blank.matched hinv hack
  | some ackPort =>
    have hcreated : w.kernel.sched.Created client := by
      by_contra hnot
      exact nomatch hack.symm.trans (hinv.created client hnot)
    obtain ⟨t, ht, rfl⟩ := hinv.sane.accounted.exists_task hinv.orderly.allThere hcreated
    obtain ⟨port, hkept⟩ := hinv.kept t ht ackPort hack
    exact hkept.matched hinv ht hack

/-- An interface with one function, `int ping()`. -/
def pingConfig : Config := ⟨[⟨"ping", ⟨.int, .null⟩, []⟩], 5⟩

theorem pingConfig_sound : pingConfig.Sound := by
  refine ⟨fun fn hfn => ?_, by decide⟩
  cases List.mem_singleton.mp hfn
  exact ⟨.inr (.inl rfl), nofun, by decide, nofun⟩

/-- The test for `Allowed`, in a run in which the server returns 7. -/
def pingAllowed (w : World) : Act → Bool
  | .other (.portopen number) => decide (InRange w.kernel.table ⟨w.pid, number⟩)
  | .openAckPort => decide (InRange w.kernel.table ⟨w.pid, Scheduler.invalidPort⟩) &&
      decide (w.kernel.table.nextPortValue ≠ 5)
  | .handleRequest env resbuf =>
      decide (resbuf.length = replyRoom) && decide (env.value "fn_result" = .int 7)
  | _ => true

theorem allowed_of_pingAllowed {act : Act} (h : pingAllowed w act = true) :
    Allowed pingConfig w act := by
  cases act with
  | other syscall =>
    cases syscall with
    | portopen number =>
      have hrange : InRange w.kernel.table ⟨w.pid, number⟩ := of_decide_eq_true h
      exact hrange
    | msgsend | msgrecv | msgwait | msgpeek | yield | fork | exit | sleep => trivial
  | openAckPort =>
    obtain ⟨hrange, hne⟩ := Bool.and_eq_true_iff.mp h
    exact ⟨of_decide_eq_true hrange, of_decide_eq_true hne⟩
  | beginCall index env =>
    intro fn hfn
    cases List.mem_singleton.mp (List.mem_of_getElem? hfn)
    exact ⟨nofun, Nat.zero_le _⟩
  | handleRequest env resbuf =>
    obtain ⟨hlen, hresult⟩ := Bool.and_eq_true_iff.mp h
    refine ⟨of_decide_eq_true hlen, fun request fn log _ hcase _ => ?_⟩
    cases List.mem_singleton.mp (caseFor_mem hcase)
    exact ⟨⟨7, of_decide_eq_true hresult⟩, nofun⟩
  | tick | resume | proceedCall | endCall | serve | receiveRequest | acceptRequest | replySent =>
    trivial

/-- A run in which a child calls `int ping()` and its parent serves the call. -/
theorem replies_match_ping : ∃ cfg w client, cfg.Sound ∧ Reach (step cfg) (Allowed cfg) boot w ∧
    (w.returnedTo client).map Finished.reply = [some [73, 7, 0, 0, 0]] ∧ Matched cfg w client := by
  let env : Env := ⟨fun _ => .int 7, fun _ => 0⟩
  obtain ⟨w, hreach, hw⟩ := Reach.exists_of_run (step pingConfig)
    (fun w act => pingAllowed w act = true) boot
    [.other .fork, .openAckPort, .other (.portopen 5), .serve, .receiveRequest,
      .openAckPort, .beginCall 0 env, .resume, .acceptRequest,
      .handleRequest env (List.replicate replyRoom 0), .resume, .proceedCall, .endCall]
    (fun w => (w.returnedTo w.pid).map Finished.reply = [some [73, 7, 0, 0, 0]]) (by decide +kernel)
  have hallowed := hreach.mono fun w act => allowed_of_pingAllowed
  exact ⟨pingConfig, w, w.pid, pingConfig_sound, hallowed, hw,
    replies_match_of_reach pingConfig_sound hallowed w.pid⟩

end Rastapopoulos.Rpc
