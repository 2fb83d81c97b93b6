import Rastapopoulos.Ipc.Fifo
import Rastapopoulos.Ipc.Unique

/-!
# The ports by number, and what the calls do to them

Programs know ports by their numbers. `PortTable.lookup` is the port that `port_get` finds for a
number, and the effect of each kind of step is stated on it: `msgsend` appends to the port it names
or leaves the ports alone (`sendLoop_effect`), `msgrecv` takes from it or leaves them alone
(`recvLoop_effect`), `portopen` adds a port under a number that had none (`portopen_lookup`), and
nothing else touches a port (`step_table`). With each effect goes the place where the calling task
stands after it (`StandsAt`).
-/

namespace Rastapopoulos.Ipc

open Scheduler

variable {k k' : Kernel} {action : Action} {table table' : PortTable} {port port' : Port} {p : ℕ}
  {number : Word}

/-! ## Looking up a port -/

/-- The port that `port_get` finds. -/
def PortTable.lookup (table : PortTable) (number : Word) : Option Port :=
  (table.find number).bind (table.ports[·]?)

theorem PortTable.lookup_of_find (hf : table.find number = some p)
    (hp : table.ports[p]? = some port) : table.lookup number = some port := by
  rw [PortTable.lookup, hf]
  exact hp

theorem PortTable.lookup_eq_some (h : table.lookup number = some port) :
    ∃ p, table.find number = some p ∧ table.ports[p]? = some port :=
  Option.bind_eq_some_iff.mp h

theorem PortTable.lookup_eq_none (h : table.lookup number = none) : table.find number = none := by
  cases hf : table.find number with
  | none => rfl
  | some p =>
    obtain ⟨port, hp, -⟩ := PortTable.find_eq_some hf
    exact nomatch h.symm.trans (PortTable.lookup_of_find hf hp)

theorem PortTable.lookup_of_find_none (h : table.find number = none) :
    table.lookup number = none := by
  rw [PortTable.lookup, h]
  rfl

/-- The number of a port that was looked up. -/
theorem PortTable.lookup_number (h : table.lookup number = some port) :
    port.number = number ∧ 0 ≤ number.toInt := by
  obtain ⟨p, hf, hp⟩ := PortTable.lookup_eq_some h
  obtain ⟨port', hp', hnum, hpos⟩ := PortTable.find_eq_some hf
  cases hp.symm.trans hp'
  exact ⟨hnum, hpos⟩

/-! ## Changed ports and new ports -/

theorem PortTable.map_number_set (hp : table.ports[p]? = some port)
    (hnum : port'.number = port.number) :
    (table.set p port').ports.map Port.number = table.ports.map Port.number := by
  obtain ⟨hlt, rfl⟩ := List.getElem?_eq_some_iff.mp hp
  rw [PortTable.set, List.map_set, hnum]
  refine List.ext_getElem? fun i => ?_
  rw [List.getElem?_set]
  split
  · rename_i heq
    subst heq
    simp [hlt]
  · rfl

/-- Which port is found depends only on the numbers. -/
theorem PortTable.find_congr (h : table'.ports.map Port.number = table.ports.map Port.number)
    (number : Word) : table'.find number = table.find number := by
  have hfind : ∀ ports : List Port, ports.findIdx? (·.number = number) =
      (ports.map Port.number).findIdx? (· = number) := by
    intro ports
    rw [List.findIdx?_map]
    rfl
  simp only [PortTable.find, hfind, h]

theorem PortTable.lookup_set_self (hf : table.find number = some p)
    (hp : table.ports[p]? = some port) (hnum : port'.number = port.number) :
    (table.set p port').lookup number = some port' :=
  PortTable.lookup_of_find ((PortTable.find_congr (PortTable.map_number_set hp hnum) _).trans hf)
    (PortTable.getElem?_set_self hp port')

theorem PortTable.lookup_set_ne (hf : table.find number = some p)
    (hp : table.ports[p]? = some port) (hnum : port'.number = port.number) {other : Word}
    (hne : other ≠ number) : (table.set p port').lookup other = table.lookup other := by
  rw [PortTable.lookup, PortTable.lookup,
    PortTable.find_congr (PortTable.map_number_set hp hnum)]
  cases hq : table.find other with
  | none => rfl
  | some q =>
    obtain ⟨port₁, hp₁, hnum₁, -⟩ := PortTable.find_eq_some hf
    obtain ⟨port₂, hp₂, hnum₂, -⟩ := PortTable.find_eq_some hq
    have hqp : p ≠ q := by
      rintro rfl
      cases hp₁.symm.trans hp₂
      exact hne (hnum₂.symm.trans hnum₁)
    show (table.ports.set p port')[q]? = table.ports[q]?
    rw [List.getElem?_set_ne hqp]

/-- A port at the end is found if none before it has the number. -/
theorem PortTable.find_append (h : table'.ports = table.ports ++ [port]) (number : Word) :
    table'.find number = (table.find number).or
      (if 0 ≤ number.toInt ∧ port.number = number then some table.ports.length else none) := by
  unfold PortTable.find
  rw [h]
  split
  · rename_i hpos
    by_cases hnum : port.number = number <;> simp [hpos]
  · rename_i hpos
    simp [hpos]

theorem PortTable.lookup_append_of_some (h : table'.ports = table.ports ++ [port])
    (hl : table.lookup number = some port') : table'.lookup number = some port' := by
  obtain ⟨q, hf, hq⟩ := PortTable.lookup_eq_some hl
  refine PortTable.lookup_of_find (p := q) ?_ ?_
  · rw [PortTable.find_append h, hf]
    rfl
  · rw [h, List.getElem?_append_left (List.getElem?_eq_some_iff.mp hq).1, hq]

theorem PortTable.lookup_append_of_none (h : table'.ports = table.ports ++ [port])
    (hl : table.lookup number = none) :
    table'.lookup number = if 0 ≤ number.toInt ∧ port.number = number then some port else none := by
  rw [PortTable.lookup, PortTable.find_append h, PortTable.lookup_eq_none hl]
  split
  · rw [h]
    simp
  · rfl

/-- **`portopen`** leaves what was found before, and adds at most the port it returns. -/
theorem portopen_lookup {receiver result : Word} (hl : table.lock = false)
    (h : syscallPortopenHandler table receiver number = .ok (table', result)) (n : Word) :
    table'.lookup n = table.lookup n ∨
      (table.lookup n = none ∧ n = result ∧ table'.lookup n = some (newPort n receiver)) := by
  have happend : table'.ports = table.ports ++ [newPort result receiver] →
      table'.lookup n = table.lookup n ∨
        (table.lookup n = none ∧ n = result ∧ table'.lookup n = some (newPort n receiver)) := by
    intro hports
    cases hn : table.lookup n with
    | some port => exact .inl (PortTable.lookup_append_of_some hports hn)
    | none =>
      rw [PortTable.lookup_append_of_none hports hn]
      split
      · rename_i hcond
        obtain rfl : result = n := hcond.2
        exact .inr ⟨rfl, rfl, rfl⟩
      · exact .inl rfl
  rcases syscallPortopenHandler_cases hl h with ⟨-, -, rfl, rfl⟩ | ⟨-, -, rfl, rfl⟩ |
    ⟨-, ⟨-, rfl⟩ | ⟨-, -, rfl⟩⟩
  · exact happend rfl
  · exact happend rfl
  · exact .inl rfl
  · exact .inl rfl

/-- **A dynamic port** has a number that no port had, as long as the counter is in range. -/
theorem portopen_dynamic {receiver result : Word} (hsep : Separated table)
    (hpos : 0 ≤ table.nextPortValue.toInt)
    (h : syscallPortopenHandler table receiver invalidPort = .ok (table', result)) :
    result = table.nextPortValue ∧ table.lookup result = none ∧
      table'.lookup result = some (newPort result receiver) := by
  have hnat := toInt_of_nonneg hpos
  have hnone : table.lookup table.nextPortValue = none := by
    cases hl : table.lookup table.nextPortValue with
    | none => rfl
    | some port =>
      obtain ⟨p, -, hp⟩ := PortTable.lookup_eq_some hl
      have hnum := (PortTable.lookup_number hl).1
      have hge := hsep.next_ge
      have := hsep.dynamic port (List.mem_of_getElem? hp) (by rw [hnum]; omega)
      rw [hnum] at this
      omega
  rcases syscallPortopenHandler_cases hsep.lock_free h with ⟨-, -, rfl, rfl⟩ | ⟨hne, -⟩ |
    ⟨-, ⟨hne, -⟩ | ⟨-, hnext, -⟩⟩
  · refine ⟨rfl, hnone, (PortTable.lookup_append_of_none rfl hnone).trans ?_⟩
    rw [if_pos ⟨hpos, rfl⟩]
  · exact absurd rfl hne
  · exact absurd rfl hne
  · rw [hnext] at hpos
    exact absurd hpos (by decide)

/-! ## Where the calling task stands -/

/-- The task stands at `cont`. -/
def StandsAt (s : Sched Cont) (pid : Word) (cont : Cont) : Prop :=
  ∀ t ∈ s.all, t.pid = pid → t.context = cont

variable {t : Scheduler.Task Cont} {msg : Message} {bufferSize : ℕ} {outsize : Bool}

theorem ne_current_of_mem {s : Sched Cont} (hd : s.Distinct)
    (hne : s.current.pid ≠ s.idle.pid) (ht : t ∈ s.idle :: s.queued) :
    t.pid ≠ s.current.pid := by
  rcases List.mem_cons.mp ht with rfl | ht
  · exact hne.symm
  · exact hd.ne_current ht

theorem ret_at (hd : k.sched.Distinct) (hne : k.sched.current.pid ≠ k.sched.idle.pid)
    (outcome : Outcome) : StandsAt (ret k outcome).sched k.sched.current.pid (.user outcome) := by
  intro t ht hpid
  rcases List.mem_cons.mp ht with rfl | ht
  · rfl
  · exact absurd hpid (ne_current_of_mem hd hne ht)

theorem block_at {s s' : Sched Cont} (hd : s.Distinct) (hne : s.current.pid ≠ s.idle.pid)
    {canrecvPort cansendPort timeout : Word} {cont : Cont}
    (h : taskBlock s canrecvPort cansendPort timeout cont = .ok s') :
    StandsAt s' s.current.pid cont := by
  intro t ht hpid
  have hmem := (taskSwitchNext_all h).2.2 t ht
  simp only [Sched.queued, List.mem_cons, List.mem_append, List.not_mem_nil, or_false] at hmem
  have hold : t ∈ s.idle :: s.queued → t.context = cont :=
    fun ht => absurd hpid (ne_current_of_mem hd hne ht)
  simp only [Sched.queued, List.mem_cons, List.mem_append] at hold
  rcases hmem with rfl | (hmem | hmem | rfl) | hmem
  · exact hold (.inl rfl)
  · exact hold (.inr (.inl (.inl hmem)))
  · exact hold (.inr (.inl (.inr hmem)))
  · rfl
  · exact hold (.inr (.inr hmem))

/-! ## Sending and receiving -/

section Effects

variable {msg : Message} {bufferSize : ℕ} {outsize : Bool}

theorem step_portopen (h : step k (.call (.portopen number)) = .ok k') :
    k.sched.current.context.IsUser ∧ k.sched.current.pid ≠ k.sched.idle.pid ∧ ∃ table result,
      syscallPortopenHandler k.table k.sched.current.pid number = .ok (table, result) ∧
      k' = ret { k with table := table } (.value result) := by
  simp only [step, handle, bind_eq_ok, check_eq_ok, pure_inj] at h
  obtain ⟨-, huser, -, hne, ⟨table, result⟩, h, rfl⟩ := h
  exact ⟨huser, hne, table, result, h, rfl⟩

theorem step_msgsend (h : step k (.call (.msgsend number msg)) = .ok k') :
    k.sched.current.context.IsUser ∧ k.sched.current.pid ≠ k.sched.idle.pid ∧
      sendLoop k number msg = .ok k' := by
  simp only [step, handle, syscallMsgsendHandler, bind_eq_ok, check_eq_ok] at h
  obtain ⟨-, huser, -, hne, -, -, h⟩ := h
  exact ⟨huser, hne, h⟩

theorem step_msgrecv (hk : Sane k)
    (h : step k (.call (.msgrecv number bufferSize outsize)) = .ok k') :
    k.sched.current.context.IsUser ∧ k.sched.current.pid ≠ k.sched.idle.pid ∧
      ((∃ eax, eax ≠ 0 ∧ k' = ret k (.value eax) ∧
          ∀ port, k.table.lookup number = some port → port.receiver ≠ k.sched.current.pid) ∨
        ∃ p port, k.table.find number = some p ∧ k.table.ports[p]? = some port ∧
          port.receiver = k.sched.current.pid ∧
          recvLoop k p number bufferSize outsize = .ok k') := by
  simp only [step, bind_eq_ok, check_eq_ok] at h
  obtain ⟨-, huser, -, hne, h⟩ := h
  refine ⟨huser, hne, ?_⟩
  simp only [handle, syscallMsgrecvHandler, portGet_eq hk.unlocked.table_free, ok_bind] at h
  cases hfind : k.table.find number with
  | none =>
    simp only [hfind, pure_inj] at h
    refine .inl ⟨1, by decide, h.symm, fun port hport => ?_⟩
    cases (PortTable.lookup_of_find_none hfind).symm.trans hport
  | some p =>
    obtain ⟨port, hp, -, -⟩ := PortTable.find_eq_some hfind
    simp only [hfind, PortTable.get_eq hp, ok_bind] at h
    split at h
    · rename_i hrecv
      cases h
      refine .inl ⟨2, by decide, rfl, fun port' hport' => ?_⟩
      cases (PortTable.lookup_of_find hfind hp).symm.trans hport'
      exact Ne.symm hrecv
    · rename_i hrecv
      exact .inr ⟨p, port, rfl, hp, (not_not.mp hrecv).symm, h⟩

/-- **Sending**: without a port of that number the task waits for it; otherwise the message is
queued and the task waits for it to be taken. -/
theorem sendLoop_effect (hk : Sane k) (hne : k.sched.current.pid ≠ k.sched.idle.pid)
    (h : sendLoop k number msg = .ok k') :
    (k.table.lookup number = none ∧ k'.table = k.table ∧
        StandsAt k'.sched k.sched.current.pid (.sendOpen number msg)) ∨
      ∃ p port, k.table.lookup number = some port ∧
        k'.table.lookup number =
          some (port.push ⟨k.sched.current.pid, msg, msg.stamp k.sched.current.pid⟩) ∧
        (∀ other ≠ number, k'.table.lookup other = k.table.lookup other) ∧
        StandsAt k'.sched k.sched.current.pid (.sendTaken p port.sent.length) := by
  have hd := hk.accounted.distinct
  rw [sendLoop_eq hk.unlocked] at h
  cases hfind : k.table.find number with
  | none =>
    rw [hfind] at h
    obtain ⟨sched, hb, rfl⟩ := block_eq_ok h
    exact .inl ⟨PortTable.lookup_of_find_none hfind, rfl, block_at hd hne hb⟩
  | some p =>
    rw [hfind] at h
    obtain ⟨port, hp, -, -⟩ := PortTable.find_eq_some hfind
    have hint : msg.Intact := by
      simp only [deliver, bind_eq_ok, check_eq_ok] at h
      obtain ⟨-, hint, -⟩ := h
      exact hint
    simp only [deliver_eq hk.unlocked hp hint, bind_eq_ok, lift_eq_ok] at h
    obtain ⟨sched₁, hw, h⟩ := h
    obtain ⟨sched₂, hb, rfl⟩ := block_eq_ok h
    obtain ⟨hidle, hcur, -⟩ := taskWake_all hd hw
    have hat := block_at (hk.accounted.wake hw).distinct (by rw [hidle, hcur]; exact hne) hb
    rw [hcur] at hat
    exact .inr ⟨p, port, PortTable.lookup_of_find hfind hp,
      PortTable.lookup_set_self hfind hp rfl, fun _ => PortTable.lookup_set_ne hfind hp (by rfl), hat⟩

/-- **Receiving**: from an empty queue the task waits; otherwise the first message is taken if it
fits in the buffer. -/
theorem recvLoop_effect (hk : Honest k) (hne : k.sched.current.pid ≠ k.sched.idle.pid)
    (hfind : k.table.find number = some p) (hp : k.table.ports[p]? = some port)
    (h : recvLoop k p number bufferSize outsize = .ok k') :
    (port.queue = [] ∧ k'.table = k.table ∧
        StandsAt k'.sched k.sched.current.pid (.recv p number bufferSize outsize)) ∨
      (∃ m rest, port.queue = m :: rest ∧ m.size ≤ bufferSize ∧
        k'.table.lookup number = some (port.pop ⟨k.sched.current.pid, m⟩) ∧
        (∀ other ≠ number, k'.table.lookup other = k.table.lookup other) ∧
        StandsAt k'.sched k.sched.current.pid (.user ⟨0, reportedSize outsize m, some m⟩)) ∨
      ∃ m rest, port.queue = m :: rest ∧ bufferSize < m.size ∧ k'.table = k.table ∧
        StandsAt k'.sched k.sched.current.pid (.user ⟨3, reportedSize outsize m, none⟩) := by
  have hu := hk.sane.unlocked
  have hd := hk.sane.accounted.distinct
  cases hq : port.queue with
  | nil =>
    simp only [recvLoop_eq_of_empty hu hp hq, bind_eq_ok, lift_eq_ok] at h
    obtain ⟨sched₁, hw, h⟩ := h
    obtain ⟨sched₂, hb, rfl⟩ := block_eq_ok h
    obtain ⟨hidle, hcur, -⟩ := wakeTasksWaitingForPort_all hd hw
    have hat := block_at (hk.sane.accounted.wakeWaiting hw).distinct
      (by rw [hidle, hcur]; exact hne) hb
    rw [hcur] at hat
    exact .inl ⟨rfl, rfl, hat⟩
  | cons m rest =>
    have hm : m.Intact :=
      (hk.ports port (List.mem_of_getElem? hp)).queue_intact (hq ▸ .head _)
    rw [recvLoop_eq_of_cons hu hp hq hm] at h
    split at h
    · rename_i hsize
      simp only [bind_eq_ok, lift_eq_ok, pure_inj] at h
      obtain ⟨sched, hw, rfl⟩ := h
      obtain ⟨hidle, hcur, -⟩ := taskWake_all hd hw
      have hat := ret_at (k := ⟨sched, k.table.set p (port.pop ⟨k.sched.current.pid, m⟩)⟩)
        (hk.sane.accounted.wake hw).distinct (by simp only [hidle, hcur]; exact hne)
        ⟨0, reportedSize outsize m, some m⟩
      simp only [hcur] at hat
      exact .inr (.inl ⟨m, rest, rfl, hsize, PortTable.lookup_set_self hfind hp rfl,
        fun _ => PortTable.lookup_set_ne hfind hp (by rfl), hat⟩)
    · cases h
      exact .inr (.inr ⟨m, rest, rfl, by omega, rfl, ret_at hd hne _⟩)

end Effects

/-! ## All other steps -/

/-- Not in `msgsend` or `msgrecv`. -/
def Cont.IsFree : Cont → Prop
  | .user _ | .wait _ _ | .sleep => True
  | .sendOpen _ _ | .sendTaken _ _ | .recv _ _ _ _ => False

/-- A system call that neither sends nor receives, and returns. -/
def Syscall.Ordinary : Syscall → Prop
  | .portopen _ | .msgwait _ | .msgpeek _ | .yield | .fork | .sleep _ => True
  | .msgsend _ _ | .msgrecv _ _ _ | .exit => False

instance : DecidablePred Syscall.Ordinary
  | .portopen _ | .msgwait _ | .msgpeek _ | .yield | .fork | .sleep _ => .isTrue trivial
  | .msgsend _ _ | .msgrecv _ _ _ | .exit => .isFalse id

/-- A tick, an ordinary call, or the continuation of one. -/
inductive Quiet (k : Kernel) : Action → Prop
  | tick : Quiet k .tick
  | call {syscall : Syscall} : syscall.Ordinary → Quiet k (.call syscall)
  | resume : k.sched.current.context.IsFree → Quiet k .resume

theorem Quiet.not_send (h : Quiet k action) :
    ¬ k.From action (.msgsend number msg) (.sendOpen number msg) := by
  rintro (⟨rfl, -⟩ | ⟨rfl, hctx⟩)
  · cases h with
    | call hord => exact hord
  · cases h with
    | resume hfree =>
      rw [hctx] at hfree
      exact hfree

theorem Quiet.not_recv (h : Quiet k action) :
    ¬ k.MayRecv action p port number (.msgrecv number bufferSize outsize)
      (.recv p number bufferSize outsize) := by
  rintro (⟨rfl, -⟩ | ⟨rfl, hctx⟩)
  · cases h with
    | call hord => exact hord
  · cases h with
    | resume hfree =>
      rw [hctx] at hfree
      exact hfree

/-- **The other steps** leave the ports alone, or add one. -/
theorem quiet_lookup (hk : Sane k) (hq : Quiet k action) (hs : step k action = .ok k')
    (number : Word) : k'.table.lookup number = k.table.lookup number ∨
      (k.table.lookup number = none ∧
        k'.table.lookup number = some (newPort number k.sched.current.pid)) := by
  rcases step_cases hk hs with ⟨-, -, sched, -, rfl⟩ | ⟨-, hm⟩
  · exact .inl rfl
  cases hm with
  | portopen _ hopen =>
    exact (portopen_lookup hk.unlocked.table_free hopen number).imp id fun h => ⟨h.1, h.2.2⟩
  | send hfrom => exact absurd hfrom hq.not_send
  | recvTake hmay => exact absurd hmay hq.not_recv
  | yield | exit | fork | sleep | sendBlock | recvBlock | recvSmall | recvRefused | waitBlock
    | waitReturn | peek | sendReturn | sleepReturn => exact .inl rfl

theorem quiet_task (hk : Sane k) (hq : Quiet k action) (hs : step k action = .ok k')
    (ht : t ∈ k'.sched.all) :
    t ∈ k.sched.all ∨ t = childTask k.sched (.user (.value 0)) ∨
      (action ≠ .tick ∧ t.pid = k.sched.current.pid ∧ t.context.IsFree) := by
  rcases step_cases hk hs with ⟨-, -, sched, hirq, rfl⟩ | ⟨-, hm⟩
  · exact .inl ((irqHandler_all hirq).2.2 t ht)
  have htick : action ≠ .tick := by
    rintro rfl
    cases hm with
    | sendBlock h | send h | waitReturn h => exact h.elim (fun h => nomatch h.1) fun h => nomatch h.1
    | recvBlock h | recvTake h | recvSmall h | waitBlock h =>
      exact h.elim (fun h => nomatch h.1) fun h => nomatch h.1
  cases hm.task hk ht with
  | keep hold => exact .inl hold
  | child hchild => exact .inr (.inl hchild)
  | moved hpid hmove =>
    refine .inr (.inr ⟨htick, hpid, ?_⟩)
    generalize t.context = cont at hmove
    cases hmove with
    | value | small | took | wait | sleep => trivial
    | sendOpen hfrom => exact absurd hfrom hq.not_send
    | sendTaken _ hfrom => exact absurd hfrom hq.not_send
    | recv _ hmay => exact absurd hmay hq.not_recv

/-- Tasks other than the current one stay where they are; a new task may appear. -/
theorem step_task_ne (hk : Sane k) (hs : step k action = .ok k')
    (ht : t ∈ k'.sched.all) (hne : t.pid ≠ k.sched.current.pid) :
    t ∈ k.sched.all ∨ t = childTask k.sched (.user (.value 0)) := by
  cases step_task hk hs ht with
  | keep hold => exact .inl hold
  | child hchild => exact .inr hchild
  | moved hpid => exact absurd hpid hne

/-- No task exits but by `exit`. -/
theorem step_allThere (hk : Sane k) (h : k.sched.AllThere) (hexit : action ≠ .call .exit)
    (hs : step k action = .ok k') : k'.sched.AllThere := by
  have hd := hk.accounted.distinct
  rcases step_cases hk hs with ⟨-, -, sched, hirq, rfl⟩ | ⟨-, hm⟩
  · exact h.tick hirq
  clear hs
  cases hm with
  | exit => exact absurd rfl hexit
  | yield _ hs => exact h.yield hs
  | sleep _ hs | sendBlock _ _ _ hs | waitBlock _ _ _ hs => exact h.block hs
  | fork _ hs =>
    obtain ⟨-, rfl⟩ := syscallForkHandler_eq_ok hs
    exact h
  | send _ _ _ _ hw hb => exact (h.wake hd hw).block hb
  | recvBlock _ _ _ hw hb => exact (h.wakeWaiting hd hw).block hb
  | recvTake _ _ _ _ _ hw =>
    have hthere := h.wake hd hw
    exact hthere
  | portopen | recvSmall | recvRefused | waitReturn | peek | sendReturn | sleepReturn => exact h

/-! ## What every step leaves of the table -/

theorem Move.numbers (hm : Move k action k')
    (hopen : ∀ n, action ≠ .call (.portopen n)) :
    k'.table.ports.map Port.number = k.table.ports.map Port.number ∧
      k'.table.lock = k.table.lock ∧ k'.table.reservedPorts = k.table.reservedPorts ∧
      k'.table.nextPortValue = k.table.nextPortValue := by
  cases hm with
  | portopen => exact absurd rfl (hopen _)
  | send _ _ _ hp => exact ⟨PortTable.map_number_set hp rfl, rfl, rfl, rfl⟩
  | recvTake _ hp => exact ⟨PortTable.map_number_set hp rfl, rfl, rfl, rfl⟩
  | yield | exit | fork | sleep | sendBlock | recvBlock | recvSmall | recvRefused | waitBlock
    | waitReturn | peek | sendReturn | sleepReturn => exact ⟨rfl, rfl, rfl, rfl⟩

theorem Separated.of_numbers (h : Separated table)
    (hnum : table'.ports.map Port.number = table.ports.map Port.number)
    (hlock : table'.lock = table.lock) (hres : table'.reservedPorts = table.reservedPorts)
    (hnext : table'.nextPortValue = table.nextPortValue) : Separated table' := by
  have hmem : ∀ port' ∈ table'.ports, ∃ port ∈ table.ports, port.number = port'.number := by
    intro port' hport'
    have : port'.number ∈ table.ports.map Port.number := hnum ▸ List.mem_map_of_mem hport'
    exact List.mem_map.mp this
  refine ⟨hlock ▸ h.lock_free, hnum ▸ h.nodup, fun port' hport' hlt => ?_, fun port' hport' hge => ?_,
    hnext ▸ h.next_ge, hnext ▸ h.next_le⟩
  · obtain ⟨port, hport, heq⟩ := hmem port' hport'
    rw [hres, ← heq]
    exact h.reserved port hport (heq ▸ hlt)
  · obtain ⟨port, hport, heq⟩ := hmem port' hport'
    rw [hnext, ← heq]
    exact h.dynamic port hport (heq ▸ hge)

/-- **Port numbers stay apart** under every step whose `portopen` calls are in range. -/
theorem step_separated (hk : Sane k) (h : Separated k.table)
    (hq : ∀ n, action = .call (.portopen n) → InRange k.table ⟨k.sched.current.pid, n⟩)
    (hs : step k action = .ok k') : Separated k'.table := by
  by_cases hopen : ∃ n, action = .call (.portopen n)
  · obtain ⟨n, rfl⟩ := hopen
    obtain ⟨-, -, table, result, hcall, rfl⟩ := step_portopen hs
    exact h.step (hq n rfl) (by rw [openStep, hcall]; rfl)
  · rcases step_cases hk hs with ⟨-, -, sched, -, rfl⟩ | ⟨-, hm⟩
    · exact h
    · obtain ⟨hnum, hlock, hres, hnext⟩ := hm.numbers fun n hn => hopen ⟨n, hn⟩
      exact h.of_numbers hnum hlock hres hnext

/-- A port that is found stays found. -/
theorem step_find (hk : Sane k) (hs : step k action = .ok k')
    (hf : k.table.find number = some p) : k'.table.find number = some p := by
  by_cases hopen : ∃ n, action = .call (.portopen n)
  · obtain ⟨n, rfl⟩ := hopen
    obtain ⟨-, -, table, result, hcall, rfl⟩ := step_portopen hs
    rcases syscallPortopenHandler_cases hk.unlocked.table_free hcall with ⟨-, -, -, rfl⟩ |
      ⟨-, -, -, rfl⟩ | ⟨-, ⟨-, rfl⟩ | ⟨-, -, rfl⟩⟩
    · exact (PortTable.find_append (by rfl) number).trans (by rw [hf]; rfl)
    · exact (PortTable.find_append (by rfl) number).trans (by rw [hf]; rfl)
    · exact hf
    · exact hf
  · rcases step_cases hk hs with ⟨-, -, sched, -, rfl⟩ | ⟨-, hm⟩
    · exact hf
    · obtain ⟨hnum, -⟩ := hm.numbers fun n hn => hopen ⟨n, hn⟩
      rw [PortTable.find_congr hnum, hf]

/-- What holds in runs in which no task exits and requests for ports are in range. -/
structure Orderly (k : Kernel) : Prop where
  honest : Honest k
  separated : Separated k.table
  allThere : k.sched.AllThere

theorem Orderly.step (h : Orderly k) (hexit : action ≠ .call .exit)
    (hrange : ∀ n, action = .call (.portopen n) → InRange k.table ⟨k.sched.current.pid, n⟩)
    (hs : step k action = .ok k') : Orderly k' :=
  ⟨h.honest.step hs, step_separated h.honest.sane h.separated hrange hs,
    step_allThere h.honest.sane h.allThere hexit hs⟩

theorem orderly_boot : Orderly boot := ⟨honest_boot, separated_ipcInit, rfl, rfl⟩

/-- The port that is found for a number keeps its histories in order. -/
theorem Orderly.faithful (h : Orderly k) (hl : k.table.lookup number = some port) :
    port.Faithful := by
  obtain ⟨p, -, hp⟩ := PortTable.lookup_eq_some hl
  exact h.honest.ports port (List.mem_of_getElem? hp)

theorem Sane.context_eq (h : Sane k) (ht : t ∈ k.sched.all)
    (hpid : t.pid = k.sched.current.pid) : t.context = k.sched.current.context := by
  rw [h.accounted.eq_of_pid ht (.head _) hpid]

end Rastapopoulos.Ipc
