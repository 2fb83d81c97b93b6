import Rastapopoulos.Rpc.System

/-!
# The books of a client

For each task there are seven lists: the calls it has begun and those that have returned, its
requests queued at the server's port and those answered, and what is under way at the moment. As
long as they balance (`Balanced`) each list is at most one entry ahead of the next, which is what
ties a reply to the call that is waiting for it. This module has the lists, and what happens to the
balance when a call begins, a request is queued, a reply is queued, a reply is taken, and a call
returns.
-/

namespace Rastapopoulos.Rpc

open Ipc

/-! ## Lists -/

/-- The code is that of a function that is not `oneway`. -/
def Config.twoWay (cfg : Config) (code : Word) : Bool :=
  match caseFor code 0 cfg.interface with
  | some fn => !decide fn.OneWay
  | none => false

/-- A request of the client that is to be answered. -/
def Config.wants (cfg : Config) (client : Word) (m : Message) : Bool :=
  decide (m.sender = client) && cfg.twoWay m.code

/-- The messages queued so far on the port with this number. -/
def sentTo (table : PortTable) (number : Word) : List Message :=
  match table.lookup number with
  | some port => port.sent.map Sent.copy
  | none => []

/-- The reply that the call has returned. -/
def Finished.reply (f : Finished) : Option (List Byte) :=
  match f.result with
  | .ok reply _ => some reply
  | .failSend | .failRecv => none

/-- The books of a client. -/
structure Books where
  /-- The calls it has begun. -/
  calls : List Call
  /-- The calls of which the request is not queued yet. -/
  unsent : List Call
  /-- The requests queued at the server's port. -/
  asked : List Message
  /-- The requests for which the handler has returned. -/
  answered : List Served
  /-- The replies that its `msgrecv` has returned and its stub has not. -/
  hand : List Message
  /-- The calls that have returned. -/
  returned : List Finished
  /-- The calls that have not. -/
  outstanding : List Call

/-- The call that a task is in, if it is not `oneway`. -/
def Phase.outstanding : Phase → List Call
  | .sending call | .receiving call => if call.fn.OneWay then [] else [call]
  | .idle | .ready | .awaiting | .handling _ | .replying => []

/-- That call, while its request waits for the port to be open. -/
def Phase.unsent : Phase → Cont → List Call
  | .sending call, .sendOpen _ _ => if call.fn.OneWay then [] else [call]
  | _, _ => []

/-- The reply that the task has received and not looked at. -/
def Phase.hand : Phase → Cont → List Message
  | .receiving _, .user outcome => outcome.buffer.toList
  | _, _ => []

/-- The request that a task in `rpc_dispatch` has received and not answered. -/
def Phase.serverHand : Phase → Cont → List Message
  | .awaiting, .user outcome => outcome.buffer.toList
  | .handling request, _ => [request]
  | _, _ => []

/-- The books of the task, when it stands at `cont`. -/
def World.books (cfg : Config) (w : World) (pid : Word) (cont : Cont) : Books where
  calls := (w.begun.filter (·.1 = pid)).map Prod.snd
  unsent := (w.prog pid).phase.unsent cont
  asked := (sentTo w.kernel.table cfg.rpcPort).filter (cfg.wants pid)
  answered := w.served.filter fun s => cfg.wants pid s.request
  hand := (w.prog pid).phase.hand cont
  returned := w.finished.filter (·.client = pid)
  outstanding := (w.prog pid).phase.outstanding

/-- The call is one of the interface, with arguments set, and its request is the stub's. -/
structure Call.Valid (cfg : Config) (ackPort : Word) (call : Call) : Prop where
  fn : cfg.interface[call.index]? = some call.fn
  set : CallSet call.fn call.env
  replyPort : call.request.replyPort = ackPort
  code : call.request.code = messageCode call.index
  data : call.request.data = requestBytes call.env call.fn

/-! ## Balance -/

/-- The books of a client balance with its reply port. -/
structure Balanced (pid : Word) (port : Port) (b : Books) : Prop where
  sends : b.asked ++ b.unsent.map (·.request.stamp pid) = b.calls.map (·.request.stamp pid)
  answers : b.answered.map Served.reply = port.sent.map fun s => some s.copy.data
  takes : b.returned.map Finished.reply ++ b.hand.map (fun m => some m.data) =
    port.taken.map fun t => some t.message.data
  calls : b.calls = b.returned.map Finished.call ++ b.outstanding
  single : b.outstanding.length ≤ 1
  accepted : ∀ call ∈ b.outstanding, ∀ m ∈ b.hand ++ port.queue,
    Accepts call.fn call.env m.data

/-- Pairs are in order when both halves are. -/
theorem map_pair_prefix {α β γ δ : Type} {l : List α} {l' : List β} {f : α → γ} {f' : β → γ}
    {g : α → δ} {g' : β → δ} (hf : l.map f <+: l'.map f') (hg : l.map g <+: l'.map g') :
    l.map (fun a => (f a, g a)) <+: l'.map fun b => (f' b, g' b) := by
  induction l generalizing l' with
  | nil => exact List.nil_prefix
  | cons a l ih =>
    cases l' with
    | nil => exact absurd hf (by simp)
    | cons b l' =>
      simp only [List.map_cons, List.cons_prefix_cons] at hf hg ⊢
      exact ⟨by rw [hf.1, hg.1], ih hf.2 hg.2⟩

section Balanced

variable {pid : Word} {port : Port} {b : Books} {call : Call}

/-- A call begins. -/
theorem Balanced.begin (h : Balanced pid port b) (hout : b.outstanding = []) (hunsent : b.unsent = [])
    (hempty : b.hand = [] ∧ port.queue = []) :
    Balanced pid port
      { b with calls := b.calls ++ [call], unsent := [call], outstanding := [call] } where
  sends := by
    have := h.sends
    rw [hunsent, List.map_nil, List.append_nil] at this
    simp [this]
  answers := h.answers
  takes := h.takes
  calls := by
    have := h.calls
    rw [hout, List.append_nil] at this
    simp [this]
  single := le_refl _
  accepted := by simp [hempty.1, hempty.2]

/-- The request is queued. -/
theorem Balanced.queued (h : Balanced pid port b) (hunsent : b.unsent = [call]) :
    Balanced pid port { b with asked := b.asked ++ [call.request.stamp pid], unsent := [] } where
  sends := by
    have := h.sends
    rw [hunsent] at this
    simpa using this
  answers := h.answers
  takes := h.takes
  calls := h.calls
  single := h.single
  accepted := h.accepted

/-- Between calls nothing is under way. -/
theorem Balanced.settled (h : Balanced pid port b) (hport : port.Faithful)
    (hle : b.answered.map Served.request <+: b.asked) (hout : b.outstanding = []) :
    b.unsent = [] ∧ b.hand = [] ∧ port.queue = [] := by
  have hsends := congrArg List.length h.sends
  have hanswers := congrArg List.length h.answers
  have htakes := congrArg List.length h.takes
  have hcalls := congrArg List.length h.calls
  have hfifo := congrArg List.length hport.fifo
  have hle := hle.length_le
  simp only [List.length_append, List.length_map, hout, List.length_nil] at *
  refine ⟨?_, ?_, ?_⟩ <;> exact List.length_eq_zero_iff.mp (by omega)

/-- Something the client has asked for and not been answered yet is the request of its outstanding
call, and nothing else is under way. -/
theorem Balanced.asked_eq (h : Balanced pid port b) (hport : port.Faithful) {m : Message}
    (hm : b.answered.map Served.request ++ [m] <+: b.asked) :
    ∃ call, b.outstanding = [call] ∧ m = call.request.stamp pid ∧ b.unsent = [] ∧ b.hand = [] ∧
      port.queue = [] := by
  have hsends := congrArg List.length h.sends
  have hanswers := congrArg List.length h.answers
  have htakes := congrArg List.length h.takes
  have hcalls := congrArg List.length h.calls
  have hfifo := congrArg List.length hport.fifo
  have hle := hm.length_le
  have hsingle := h.single
  simp only [List.length_append, List.length_map, List.length_singleton] at *
  have hone : b.outstanding.length = 1 := by omega
  obtain ⟨call, hcall⟩ := List.length_eq_one_iff.mp hone
  have hunsent : b.unsent = [] := List.length_eq_zero_iff.mp (by omega)
  have heq : b.answered.map Served.request ++ [m] = b.asked := hm.eq_of_length (by simp; omega)
  have hasked := h.sends
  rw [hunsent, List.map_nil, List.append_nil, h.calls, hcall, List.map_append, ← heq] at hasked
  refine ⟨call, hcall, ?_, hunsent, List.length_eq_zero_iff.mp (by omega),
    List.length_eq_zero_iff.mp (by omega)⟩
  have := (List.append_inj' hasked rfl).2
  simpa using this

/-- The reply is queued. -/
theorem Balanced.answer (h : Balanced pid port b) {s : Served} {sent : Sent}
    (hreply : s.reply = some sent.copy.data) (hout : b.outstanding = [call])
    (hempty : b.hand = [] ∧ port.queue = []) (hacc : Accepts call.fn call.env sent.copy.data) :
    Balanced pid (port.push sent) { b with answered := b.answered ++ [s] } where
  sends := h.sends
  answers := by
    rw [List.map_append, h.answers, Port.push, List.map_append]
    simp [hreply]
  takes := h.takes
  calls := h.calls
  single := h.single
  accepted := by
    intro call' hcall' m hm
    rw [hout, List.mem_singleton] at hcall'
    subst hcall'
    simp only [hempty.1, Port.push, hempty.2, List.nil_append, List.mem_singleton] at hm
    rw [hm]
    exact hacc

/-- The reply is taken. -/
theorem Balanced.take (h : Balanced pid port b) {m : Message} {rest : List Message} {taker : Word}
    (hhand : b.hand = []) (hq : port.queue = m :: rest) :
    Balanced pid (port.pop ⟨taker, m⟩) { b with hand := [m] } where
  sends := h.sends
  answers := h.answers
  takes := by
    have := h.takes
    rw [hhand, List.map_nil, List.append_nil] at this
    simp [this, Port.pop]
  calls := h.calls
  single := h.single
  accepted := by
    intro call hcall m' hm'
    refine h.accepted call hcall m' ?_
    rw [hhand, hq]
    simpa [Port.pop, hq] using hm'

/-- The call returns. -/
theorem Balanced.returns {m : Message} {f : Finished} (h : Balanced pid port b)
    (hout : b.outstanding = [call]) (hhand : b.hand = [m]) (hcall : f.call = call)
    (hreply : f.reply = some m.data) :
    Balanced pid port
      { b with returned := b.returned ++ [f], hand := [], outstanding := [] } where
  sends := h.sends
  answers := h.answers
  takes := by
    have := h.takes
    rw [hhand] at this
    simpa [hreply] using this
  calls := by
    have := h.calls
    rw [hout] at this
    simpa [hcall] using this
  single := Nat.zero_le _
  accepted := fun call hcall => nomatch hcall

/-- What has returned, in order, is what was answered first: each call with the reply to its own
request. -/
theorem Balanced.returned_prefix (h : Balanced pid port b) (hport : port.Faithful)
    (hle : b.answered.map Served.request <+: b.asked) :
    b.returned.map (fun f => (f.call.request.stamp pid, f.reply)) <+:
      b.answered.map fun s => (s.request, s.reply) := by
  have hcalls : b.returned.map (fun f => f.call.request.stamp pid) <+:
      b.calls.map (·.request.stamp pid) := by
    rw [h.calls, List.map_append, List.map_map]
    exact List.prefix_append _ _
  have hasked : b.answered.map Served.request <+: b.calls.map (·.request.stamp pid) :=
    hle.trans (h.sends ▸ List.prefix_append _ _)
  have htaken : port.taken.map (fun t => some t.message.data) <+:
      port.sent.map fun s => some s.copy.data := by
    have := congrArg (List.map fun m : Message => some m.data) hport.fifo
    rw [List.map_append, List.map_map, List.map_map] at this
    exact this ▸ List.prefix_append _ _
  have hreplies : b.returned.map Finished.reply <+: b.answered.map Served.reply := by
    rw [h.answers]
    exact (List.prefix_append _ _).trans (h.takes ▸ htaken)
  have hlen := hreplies.length_le
  rw [List.length_map, List.length_map] at hlen
  exact map_pair_prefix (List.prefix_of_prefix_length_le hcalls hasked (by simpa using hlen)) hreplies

end Balanced

end Rastapopoulos.Rpc
