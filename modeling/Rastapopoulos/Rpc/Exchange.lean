import Rastapopoulos.Rpc.Invariant

/-!
# Requests and replies

What the steps that send and receive do to the invariant: a stub queues its request and takes its
reply, and `rpc_dispatch` takes a request. A step of this kind is made by a call or by the
continuation of a call that was asleep. Both are told by the world `w₁` just before the loop of the
system call: the program and the records are those of the step, the kernel is still the old one.
-/

namespace Rastapopoulos.Rpc

open Ipc

variable {cfg : Config} {w w₁ : World} {pid ackPort : Word} {port : Port} {call : Call} {k' : Kernel}

/-- What the program has done before the loop of its system call. -/
structure Entered (cfg : Config) (w w₁ : World) (phase : Phase) : Prop where
  kernel : w₁.kernel = w.kernel
  served : w₁.served = w.served
  others : ∀ pid ≠ w.pid, Unaffected cfg w w₁ pid
  phase : (w₁.prog w.pid).phase = phase
  ackPort : (w₁.prog w.pid).ackPort ≠ none
  hand : w.phase.serverHand w.kernel.sched.current.context = []

theorem Unaffected.with_kernel (h : Unaffected cfg w w₁ pid)
    (hasked : (sentTo k'.table cfg.rpcPort).filter (cfg.wants pid) =
      (sentTo w.kernel.table cfg.rpcPort).filter (cfg.wants pid)) :
    Unaffected cfg w { w₁ with kernel := k' } pid :=
  ⟨h.prog, h.calls, hasked, h.answered, h.returned⟩

variable {phase : Phase} {cont : Cont} {p : ℕ}

/-- The server's side, when nothing is taken from its port. -/
theorem Entered.serverSide (h : Inv cfg w) (he : Entered cfg w w₁ phase) (hk : Advances w.kernel k')
    (hport : Untaken cfg w { w₁ with kernel := k' }) (hat : StandsAt k'.sched w.pid cont)
    (hhand : phase.serverHand cont = []) : ServerSide cfg { w₁ with kernel := k' } := by
  refine h.serverSide hk he.served (fun pid hne => (he.others pid hne).prog) hport
    fun t ht hpid => ?_
  rw [hat t ht hpid, he.hand]
  show (w₁.prog w.pid).phase.serverHand _ = _
  rw [he.phase]
  exact hhand

/-- The ports of other clients stay as they are, and no other client has asked for more. -/
theorem Entered.inv (h : Inv cfg w) (he : Entered cfg w w₁ phase)
    (hk : Advances w.kernel k') (hserver : ServerSide cfg { w₁ with kernel := k' })
    (hasked : ∀ pid ≠ w.pid, (sentTo k'.table cfg.rpcPort).filter (cfg.wants pid) =
      (sentTo w.kernel.table cfg.rpcPort).filter (cfg.wants pid))
    (hlookup : ∀ n port, w.kernel.table.lookup n = some port → n ≠ cfg.rpcPort →
      port.receiver ≠ w.pid → k'.table.lookup n = w.kernel.table.lookup n)
    (hat : StandsAt k'.sched w.pid cont)
    (hstands : phase.Stands cfg k'.table (w₁.prog w.pid).ackPort cont)
    (hkept : ∀ ackPort, (w₁.prog w.pid).ackPort = some ackPort →
      ∃ port, Kept cfg { w₁ with kernel := k' } w.pid ackPort cont port) :
    Inv cfg { w₁ with kernel := k' } := by
  refine h.alone hk (fun pid hne => (he.others pid hne).with_kernel (hasked pid hne)) hlookup
    he.ackPort (fun t ht hpid => ?_) hserver
  rw [hat t ht hpid]
  show (w₁.prog w.pid).phase.Stands _ _ _ _ ∧ _
  rw [he.phase]
  exact ⟨hstands, hkept⟩

/-- Nothing happens to the ports. -/
theorem Entered.inv_of_table (h : Inv cfg w)
    (he : Entered cfg w w₁ phase) (hk : Advances w.kernel k')
    (htable : k'.table = w.kernel.table) (hat : StandsAt k'.sched w.pid cont)
    (hhand : phase.serverHand cont = [])
    (hstands : phase.Stands cfg w.kernel.table (w₁.prog w.pid).ackPort cont)
    (hkept : ∀ ackPort, (w₁.prog w.pid).ackPort = some ackPort →
      ∃ port, Kept cfg w₁ w.pid ackPort cont port) : Inv cfg { w₁ with kernel := k' } := by
  have hserver := he.serverSide h hk (.of_lookup (by rw [htable])) hat hhand
  refine he.inv h hk hserver (fun pid _ => by rw [htable]) (fun n _ _ _ _ => by rw [htable]) hat
    (htable ▸ hstands) fun ackPort hack => ?_
  obtain ⟨port, hkept⟩ := hkept ackPort hack
  have hsame : w₁.kernel.table = k'.table := by rw [he.kernel, htable]
  refine ⟨port, { hkept with inbox := hsame ▸ hkept.inbox, balanced := ?_ }⟩
  have hbal := hkept.balanced
  simp only [World.books, hsame] at hbal
  exact hbal

/-! ## Requests -/

theorem Call.Valid.twoWay_code (hcfg : cfg.Sound) (h : call.Valid cfg ackPort) :
    cfg.twoWay call.request.code = !decide call.fn.OneWay := by
  have hcase : caseFor (messageCode (0 + call.index)) 0 cfg.interface = some call.fn :=
    caseFor_messageCode h.fn (by have := hcfg.codes; omega)
  rw [Nat.zero_add, ← h.code] at hcase
  rw [Config.twoWay, hcase]

/-- The request of a call is wanted by the caller, unless it is `oneway`. -/
theorem Call.Valid.wants (hcfg : cfg.Sound) (h : call.Valid cfg ackPort) (sender : Word) :
    cfg.wants pid (call.request.stamp sender) =
      (decide (sender = pid) && !decide call.fn.OneWay) := by
  rw [← h.twoWay_code hcfg]
  rfl

theorem sentTo_push {table table' : PortTable} {number : Word} {sent : Sent}
    (hl : table.lookup number = some port) (hl' : table'.lookup number = some (port.push sent)) :
    sentTo table' number = sentTo table number ++ [sent.copy] := by
  simp only [sentTo, hl, hl', Port.push, List.map_append, List.map_cons, List.map_nil]

/-- The books once the request is queued. -/
theorem books_sent {i : ℕ} (hphase : (w₁.prog pid).phase = .sending call)
    (hasked : (sentTo k'.table cfg.rpcPort).filter (cfg.wants pid) =
      (sentTo w₁.kernel.table cfg.rpcPort).filter (cfg.wants pid) ++
        if call.fn.OneWay then [] else [call.request.stamp pid])
    (hkept : Balanced pid port
      (w₁.books cfg pid (.sendOpen cfg.rpcPort (libMsgsend call.request)))) :
    Balanced pid port ((World.mk k' w₁.prog w₁.begun w₁.served w₁.finished).books cfg pid
      (.sendTaken p i)) := by
  by_cases hone : call.fn.OneWay
  · rw [if_pos hone, List.append_nil] at hasked
    simpa only [World.books, hphase, Phase.unsent, Phase.hand, if_pos hone, hasked] using hkept
  · rw [if_neg hone] at hasked
    have hunsent : (w₁.books cfg pid (.sendOpen cfg.rpcPort (libMsgsend call.request))).unsent =
        [call] := by
      simp only [World.books, hphase, Phase.unsent, if_neg hone]
    simpa only [World.books, hphase, Phase.unsent, Phase.hand, hasked] using hkept.queued hunsent

/-- **A stub queues its request**, or goes on waiting for the server's port. -/
theorem Inv.send (hcfg : cfg.Sound) (h : Inv cfg w) (he : Entered cfg w w₁ (.sending call))
    (hkept : ∀ ackPort, (w₁.prog w.pid).ackPort = some ackPort → ∃ port,
      Kept cfg w₁ w.pid ackPort (.sendOpen cfg.rpcPort (libMsgsend call.request)) port)
    (hk : Advances w.kernel k') (hne : w.pid ≠ w.kernel.sched.idle.pid)
    (hs : sendLoop w.kernel cfg.rpcPort (libMsgsend call.request) = .ok k') :
    Inv cfg { w₁ with kernel := k' } := by
  rcases sendLoop_effect h.sane hne hs with ⟨hnone, htable, hat⟩ | ⟨p, sport, hl, hl', hother, hat⟩
  · exact he.inv_of_table h hk htable hat rfl (.inl rfl) hkept
  · -- the request of the caller is one more on the server's port
    obtain ⟨ackPort, hack⟩ := Option.ne_none_iff_exists'.mp he.ackPort
    obtain ⟨port, hkept⟩ := hkept ackPort hack
    have hwants : ∀ pid, cfg.wants pid (call.request.stamp w.pid) = _ :=
      fun pid => (hkept.valid call (.inl he.phase)).wants hcfg w.pid
    have hsent : sentTo k'.table cfg.rpcPort =
        sentTo w.kernel.table cfg.rpcPort ++ [call.request.stamp w.pid] := sentTo_push hl hl'
    have hserver := he.serverSide h hk (.inl ⟨sport, _, hl, hl', rfl, rfl⟩) hat rfl
    refine he.inv h hk hserver (fun pid hpid => ?_) (fun n _ _ hn _ => hother n hn) hat
      (.inr (.inl ⟨_, _, rfl⟩)) fun ackPort' hack' => ?_
    · rw [hsent, List.filter_append, List.filter_cons, hwants, decide_eq_false (Ne.symm hpid)]
      simp
    · cases hack.symm.trans hack'
      refine ⟨port, { hkept with inbox := ?_, balanced := books_sent he.phase ?_ hkept.balanced }⟩
      · have hinbox := hkept.inbox
        rw [he.kernel] at hinbox
        exact (hother ackPort hkept.apart).trans hinbox
      · rw [he.kernel, hsent, List.filter_append, List.filter_cons, hwants]
        by_cases hone : call.fn.OneWay <;> simp [hone]

/-! ## Replies -/

/-- **A stub takes its reply**, or goes on waiting for it. The buffer is large enough, since what is
on the port answers the call. -/
theorem Inv.receive {size : ℕ} (h : Inv cfg w) (he : Entered cfg w w₁ (.receiving call))
    (hack : (w₁.prog w.pid).ackPort = some ackPort)
    (hkept : Kept cfg w₁ w.pid ackPort (.recv p ackPort size false) port)
    (hfind : w.kernel.table.find ackPort = some p)
    (hsize : stubReceiveSize call.fn call.env = .ok size)
    (hk : Advances w.kernel k') (hne : w.pid ≠ w.kernel.sched.idle.pid)
    (hs : recvLoop w.kernel p ackPort size false = .ok k') : Inv cfg { w₁ with kernel := k' } := by
  have hinbox := hkept.inbox
  rw [he.kernel] at hinbox
  obtain ⟨p', hfind', hp⟩ := PortTable.lookup_eq_some hinbox
  cases hfind.symm.trans hfind'
  rcases recvLoop_effect h.orderly.honest hne hfind hp hs with ⟨-, htable, hat⟩ |
    ⟨m, rest, hq, -, hl', hother, hat⟩ | ⟨m, rest, hq, hsmall, -, -⟩
  · refine he.inv_of_table h hk htable hat rfl (.inl ⟨p, ackPort, size, rfl, hack, hfind, hsize⟩) ?_
    intro ackPort' hack'
    cases hack.symm.trans hack'
    exact ⟨port, hkept⟩
  · have hserved := hother cfg.rpcPort hkept.apart.symm
    have hserver := he.serverSide h hk (.of_lookup hserved) hat rfl
    refine he.inv h hk hserver (fun pid _ => by rw [sentTo_of_lookup hserved])
      (fun n nport hl _ hrecv => ?_) hat (.inr ⟨m, rfl⟩) fun ackPort' hack' => ?_
    · refine hother n fun heq => hrecv ?_
      rw [heq] at hl
      cases hinbox.symm.trans hl
      exact hkept.owner
    · cases hack.symm.trans hack'
      refine ⟨_, { hkept with inbox := hl', owner := hkept.owner, balanced := ?_ }⟩
      have hnil : (w₁.books cfg w.pid (.recv p ackPort size false)).hand = [] := by
        simp only [World.books, he.phase, Phase.hand]
      have htake : Balanced w.pid (port.pop ⟨w.kernel.sched.current.pid, m⟩) _ :=
        hkept.balanced.take hnil hq
      simpa only [World.books, he.phase, he.kernel, sentTo_of_lookup hserved, Phase.hand,
        Phase.unsent, Option.toList_some] using htake
  · -- what is queued is accepted by the call that is outstanding
    have hout : (w₁.books cfg w.pid (.recv p ackPort size false)).outstanding = [call] := by
      simp only [World.books, he.phase, Phase.outstanding, if_neg (hkept.twoWay call he.phase)]
    obtain ⟨size', hsize', hfits, -⟩ := hkept.balanced.accepted call (hout ▸ List.mem_singleton_self _)
      m (List.mem_append_right _ (hq ▸ .head _))
    cases hsize.symm.trans hsize'
    exact absurd hfits (Nat.not_le.mpr hsmall)

/-! ## Requests taken by the server -/

/-- **`rpc_dispatch` takes a request**, or goes on waiting for one. -/
theorem Inv.await (h : Inv cfg w) (he : Entered cfg w w₁ .awaiting)
    (hkept : ∀ ackPort, (w₁.prog w.pid).ackPort = some ackPort →
      ∃ port, ∀ cont, Kept cfg w₁ w.pid ackPort cont port)
    (hfind : w.kernel.table.find cfg.rpcPort = some p) (hp : w.kernel.table.ports[p]? = some port)
    (hrecv : port.receiver = w.pid) (hk : Advances w.kernel k')
    (hne : w.pid ≠ w.kernel.sched.idle.pid)
    (hs : recvLoop w.kernel p cfg.rpcPort dispatchBufferSize true = .ok k') :
    Inv cfg { w₁ with kernel := k' } := by
  have hkept' : ∀ cont ackPort, (w₁.prog w.pid).ackPort = some ackPort →
      ∃ port, Kept cfg w₁ w.pid ackPort cont port := fun cont ackPort hack =>
    (hkept ackPort hack).imp fun _ hall => hall cont
  have hl := PortTable.lookup_of_find hfind hp
  rcases recvLoop_effect h.orderly.honest hne hfind hp hs with ⟨-, htable, hat⟩ |
    ⟨m, rest, hq, hsize, hl', hother, hat⟩ | ⟨m, rest, hq, -, htable, hat⟩
  · exact he.inv_of_table h hk htable hat rfl (.inl ⟨p, rfl, hfind⟩) (hkept' _)
  · have hsent : sentTo k'.table cfg.rpcPort = sentTo w.kernel.table cfg.rpcPort := by
      simp only [sentTo, hl, hl', Port.pop]
    have hserver : ServerSide cfg { w₁ with kernel := k' } := by
      obtain ⟨hcr, hand, heq, hall⟩ := h.server.opened port hl
      have hnil : hand = [] := by
        have hown : w.phase.serverHand w.kernel.sched.current.context =
          if w.pid = port.receiver then hand else [] := hall _ Inv.current_mem
        rw [if_pos hrecv.symm] at hown
        exact hown.symm.trans he.hand
      refine ⟨fun port' hport' => ?_, fun hnone => by cases hl'.symm.trans hnone⟩
      cases hl'.symm.trans hport'
      refine ⟨hk.created _ hcr, [m], ?_, fun t' ht' => ?_⟩
      · rw [he.served]
        simp only [Port.pop, List.map_append, heq, hnil, List.append_nil, List.map_cons, List.map_nil]
      · show (w₁.prog t'.pid).phase.serverHand _ = if t'.pid = port.receiver then [m] else []
        by_cases hpid : t'.pid = w.pid
        · rw [if_pos (hpid.trans hrecv.symm), hat t' ht' hpid, hpid]
          rw [he.phase]
          rfl
        · rw [if_neg fun heq => hpid (heq.trans hrecv)]
          rcases @Inv.serverHand_others _ w { w₁ with kernel := k' } h hk
            (fun pid hne => (he.others pid hne).prog) _ ht' hpid with ⟨t, ht, htpid, hsame⟩ | ⟨-, hnil'⟩
          · rw [hsame, hall t ht, hnil, ite_self]
          · exact hnil'
    refine he.inv h hk hserver (fun pid _ => by rw [hsent]) (fun n _ _ hn _ => hother n hn) hat
      (.inr ⟨_, rfl, .inr ⟨m, rfl, hsize⟩⟩) fun ackPort hack => ?_
    obtain ⟨cport, hkept⟩ := hkept' (.user ⟨0, reportedSize true m, some m⟩) ackPort hack
    refine ⟨cport, { hkept with inbox := ?_, balanced := ?_ }⟩
    · have hinbox := hkept.inbox
      rw [he.kernel] at hinbox
      exact (hother ackPort hkept.apart).trans hinbox
    · have hbal := hkept.balanced
      simp only [World.books, he.kernel, ← hsent] at hbal
      exact hbal
  · exact he.inv_of_table h hk htable hat rfl
      (.inr ⟨_, rfl, .inl ⟨(by decide : (3 : Word) ≠ 0), rfl⟩⟩) (hkept' _)

end Rastapopoulos.Rpc
