import Rastapopoulos.Foundations.Word
import Rastapopoulos.Ipc.Steps

/-!
# Port numbers

Whether the numbers of the open ports are pairwise distinct, for runs of `portopen` calls of any
tasks with any arguments. Requested numbers go through the mask, where equal numbers have equal bits
and the second request is refused; dynamic numbers go through the counter. The two meet when a task
requests a number above 31: `portopen(32)` and the first dynamic port are both number 32. As long as
requests are below 32, as the comment of the handler asks for, and the counter has not left the
positive range of `int`, they do not (`ports_unique_of_reach`).
-/

namespace Rastapopoulos.Ipc

open Scheduler

variable {table table' : PortTable} {receiver number : Word}

/-! ## The mask -/

theorem and_portBit_eq_zero {r n : Word} :
    r &&& portBit n = 0 ↔ r.getLsbD (n.toNat % 32) = false := by
  have hbit : portBit n = BitVec.twoPow 32 (n.toNat % 32) := rfl
  have hne : BitVec.twoPow 32 (n.toNat % 32) ≠ 0#32 := by
    intro h
    have := congrArg (fun x => BitVec.getLsbD x (n.toNat % 32)) h
    simp [BitVec.getLsbD_twoPow] at this
    omega
  rw [hbit, BitVec.and_twoPow]
  cases r.getLsbD (n.toNat % 32)
  · simp
  · simpa using hne

theorem or_portBit_ne_zero {r n m : Word} (h : r &&& portBit m ≠ 0) :
    (r ||| portBit n) &&& portBit m ≠ 0 := by
  rw [ne_eq, and_portBit_eq_zero] at h ⊢
  rw [BitVec.getLsbD_or]
  simp_all

theorem or_portBit_self_ne_zero {r n : Word} : (r ||| portBit n) &&& portBit n ≠ 0 := by
  have hbit : portBit n = BitVec.twoPow 32 (n.toNat % 32) := rfl
  rw [ne_eq, and_portBit_eq_zero, BitVec.getLsbD_or, hbit, BitVec.getLsbD_twoPow]
  have : n.toNat % 32 < 32 := Nat.mod_lt _ (by decide)
  simp [this]

/-! ## Runs -/

/-- A `portopen` call: the calling task and its argument. -/
structure PortOpen where
  receiver : Word
  number : Word

/-- The effect of a call on the table. -/
def openStep (table : PortTable) (call : PortOpen) : Except Fault PortTable := do
  let (table, _) ← syscallPortopenHandler table call.receiver call.number
  return table

/-- Requests are below 32, and the dynamic counter is not negative when it is used. -/
def InRange (table : PortTable) (call : PortOpen) : Prop :=
  if call.number = invalidPort then 0 ≤ table.nextPortValue.toInt else call.number.toInt < 32

instance (table : PortTable) (call : PortOpen) : Decidable (InRange table call) := by
  unfold InRange
  infer_instance

/-- The invariant of the two ways to a number. -/
structure Separated (table : PortTable) : Prop where
  lock_free : table.lock = false
  nodup : (table.ports.map Port.number).Nodup
  reserved : ∀ port ∈ table.ports, port.number.toInt < 32 →
    table.reservedPorts &&& portBit port.number ≠ 0
  dynamic : ∀ port ∈ table.ports, 32 ≤ port.number.toInt →
    port.number.toNat < table.nextPortValue.toNat
  next_ge : 32 ≤ table.nextPortValue.toNat
  next_le : table.nextPortValue.toNat ≤ 2 ^ 31

theorem separated_ipcInit : Separated ipcInit :=
  ⟨rfl, by simp [ipcInit], by simp [ipcInit], by simp [ipcInit], by decide, by decide⟩

/-- Appending a port with a new number. -/
theorem Separated.append {reserved next : Word} (h : Separated table)
    (hfresh : ∀ port ∈ table.ports, port.number ≠ number)
    (hmask : ∀ n, table.reservedPorts &&& portBit n ≠ 0 → reserved &&& portBit n ≠ 0)
    (hreserved : number.toInt < 32 → reserved &&& portBit number ≠ 0)
    (hdynamic : 32 ≤ number.toInt → number.toNat < next.toNat)
    (hnext : table.nextPortValue.toNat ≤ next.toNat) (hle : next.toNat ≤ 2 ^ 31) :
    Separated { table with
      reservedPorts := reserved
      nextPortValue := next
      ports := table.ports ++ [newPort number receiver] } where
  lock_free := h.lock_free
  nodup := by
    rw [List.map_append, List.nodup_append]
    refine ⟨h.nodup, by simp, ?_⟩
    intro a ha b hb
    obtain ⟨port, hport, rfl⟩ := List.mem_map.mp ha
    obtain rfl : b = number := by simpa [newPort] using hb
    exact hfresh port hport
  reserved := by
    intro port hport hlt
    rcases List.mem_append.mp hport with hport | hport
    · exact hmask _ (h.reserved port hport hlt)
    · obtain rfl := List.mem_singleton.mp hport
      exact hreserved hlt
  dynamic := by
    intro port hport hge
    rcases List.mem_append.mp hport with hport | hport
    · exact (h.dynamic port hport hge).trans_le hnext
    · obtain rfl := List.mem_singleton.mp hport
      exact hdynamic hge
  next_ge := h.next_ge.trans hnext
  next_le := hle

/-- **One call** in range keeps the two ways apart. -/
theorem Separated.step {call : PortOpen} (h : Separated table) (hq : InRange table call)
    (hs : openStep table call = .ok table') : Separated table' := by
  simp only [openStep, bind_eq_ok, pure_inj] at hs
  obtain ⟨⟨t, r⟩, hs, rfl⟩ := hs
  have hge := h.next_ge
  have hle := h.next_le
  have hint := (toInt_nonneg_iff table.nextPortValue).mp
  rcases syscallPortopenHandler_cases h.lock_free hs with
    ⟨hn, -, -, rfl⟩ | ⟨hn, hbit, -, rfl⟩ | ⟨-, ⟨-, rfl⟩ | ⟨hn, hnext, -⟩⟩
  · -- a dynamic number: at least 32, and above all dynamic numbers before
    rw [InRange, if_pos hn] at hq
    have hlt := hint hq
    have hnat : table.nextPortValue.toInt = table.nextPortValue.toNat :=
      BitVec.toInt_eq_toNat_of_lt (by omega)
    have hsucc : (table.nextPortValue + 1).toNat = table.nextPortValue.toNat + 1 := by
      rw [BitVec.toNat_add]
      show (table.nextPortValue.toNat + 1) % 2 ^ 32 = _
      omega
    refine h.append ?_ (fun _ => id) ?_ ?_ ?_ ?_
    · intro port hport hnum
      have := h.dynamic port hport (by rw [hnum, hnat]; omega)
      rw [hnum] at this
      omega
    all_goals omega
  · -- a requested number below 32: an open port with that number would have its bit set
    rw [InRange, if_neg hn] at hq
    refine h.append ?_ (fun _ => or_portBit_ne_zero) (fun _ => or_portBit_self_ne_zero) ?_ le_rfl hle
    · rintro port hport hnum
      exact absurd hbit (hnum ▸ h.reserved port hport (hnum ▸ hq))
    · omega
  · exact h
  · -- the counter has run into `INVALID_PORT`, which is negative
    rw [InRange, if_pos hn, hnext] at hq
    exact absurd hq (by decide)

/-- The numbers of the open ports are pairwise distinct, and the port that `port_get` finds for a
number is the only one with that number. -/
structure UniqueNumbers (table : PortTable) : Prop where
  nodup : (table.ports.map Port.number).Nodup
  find_eq : ∀ number p q port, table.find number = some p → table.ports[q]? = some port →
    port.number = number → p = q

theorem Separated.unique (h : Separated table) : UniqueNumbers table where
  nodup := h.nodup
  find_eq := by
    intro number p q port hp hq hnum
    obtain ⟨port₁, hport₁, hnum₁, -⟩ := PortTable.find_eq_some hp
    have hlt : p < (table.ports.map Port.number).length := by
      simpa using (List.getElem?_eq_some_iff.mp hport₁).1
    refine (List.getElem?_inj hlt h.nodup).mp ?_
    rw [List.getElem?_map, List.getElem?_map, hport₁, hq]
    simp [hnum, hnum₁]

/-- A call never changes or removes an open port. -/
theorem openStep_keeps {call : PortOpen} (hl : table.lock = false)
    (hs : openStep table call = .ok table') {p : ℕ} {port : Port}
    (hp : table.ports[p]? = some port) : table'.ports[p]? = some port := by
  simp only [openStep, bind_eq_ok, pure_inj] at hs
  obtain ⟨⟨t, r⟩, hs, rfl⟩ := hs
  rcases syscallPortopenHandler_cases hl hs with ⟨-, -, -, rfl⟩ | ⟨-, -, -, rfl⟩ |
    ⟨-, ⟨-, rfl⟩ | ⟨-, -, rfl⟩⟩
  · exact List.getElem?_append_left (List.getElem?_eq_some_iff.mp hp).1 ▸ hp
  · exact List.getElem?_append_left (List.getElem?_eq_some_iff.mp hp).1 ▸ hp
  · exact hp
  · exact hp

theorem separated_of_reach (h : Reach openStep InRange ipcInit table) : Separated table :=
  h.invariant separated_ipcInit fun _ _ _ hsep hq hs => hsep.step hq hs

/-- **Port numbers are unique** in every run of `portopen` calls that are in range, and a port once
opened keeps its number and its receiver for the rest of the run. -/
theorem ports_unique_of_reach (h : Reach openStep InRange ipcInit table)
    (h' : Reach openStep InRange table table') :
    UniqueNumbers table' ∧ ∀ (p : ℕ) (port : Port), table.ports[p]? = some port →
      table'.ports[p]? = some port := by
  refine ⟨(separated_of_reach (h.trans h')).unique, fun p port hp => ?_⟩
  have hinv : Separated table' ∧ table'.ports[p]? = some port := by
    refine h'.invariant (P := fun t => Separated t ∧ t.ports[p]? = some port)
      ⟨separated_of_reach h, hp⟩ ?_
    rintro t call t' ⟨hsep, hport⟩ hq hs
    exact ⟨hsep.step hq hs, openStep_keeps hsep.lock_free hs hport⟩
  exact hinv.2

/-- The logger's port and a dynamic one. -/
theorem ports_unique_logger_dynamic : ∃ t t', Reach openStep InRange ipcInit t ∧
    Reach openStep InRange t t' ∧ t'.ports.map Port.number = [1, 32] ∧ UniqueNumbers t' := by
  have hrun : (do
      let t ← openStep ipcInit ⟨3, 1⟩
      let t' ← openStep t ⟨4, invalidPort⟩
      return (t, t') : Except Fault (PortTable × PortTable))
      = .ok (⟨[newPort 1 3], false, 2, 32⟩, ⟨[newPort 1 3, newPort 32 4], false, 2, 33⟩) := by
    decide
  simp only [bind_eq_ok, pure_inj, Prod.mk.injEq] at hrun
  obtain ⟨t, h₁, t', h₂, rfl, rfl⟩ := hrun
  have hr₁ := Reach.tail (Q := InRange) .refl (by decide) h₁
  have hr₂ := Reach.tail (Q := InRange) .refl (by decide) h₂
  exact ⟨_, _, hr₁, hr₂, rfl, (ports_unique_of_reach hr₁ hr₂).1⟩

/-- A task that requests port 32 and a task that is given the first dynamic port have ports with the
same number. -/
theorem ports_not_unique : ¬ ∀ table, Reach openStep (fun _ _ => True) ipcInit table →
    (table.ports.map Port.number).Nodup := by
  intro hall
  have hrun : (do
      let t ← openStep ipcInit ⟨2, 32⟩
      let t' ← openStep t ⟨3, invalidPort⟩
      return t'.ports.map Port.number : Except Fault (List Word)) = .ok [32, 32] := by decide
  simp only [bind_eq_ok, pure_inj] at hrun
  obtain ⟨t, h₁, t', h₂, hnums⟩ := hrun
  have := hall t' (.tail (.tail .refl trivial h₁) trivial h₂)
  rw [hnums] at this
  exact absurd this (by decide)

end Rastapopoulos.Ipc
