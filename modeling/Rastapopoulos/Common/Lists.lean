import Mathlib.Data.List.Nodup
import Mathlib.Logic.Function.Basic
import Rastapopoulos.Foundations.Fallible

/-!
# Intrusive lists

The macros of `common/list.h`. A list is a pair of pointers, to its first and to its last node; the
links are fields of the nodes, and the same fields serve any number of lists. `list_append` to an
empty list does not write to the node, so it relies on the links of a node that is on no list.

`lists_refine`: the pointers represent the sequences that the operations stand for, and a loop whose
body takes the visited node off the list visits the nodes that were there. `list_init` does not look
at the list, so the nodes of a list that is initialised again keep their links
(`not_null_after_init`).
-/

namespace Rastapopoulos.Lists

/-- `list_declare_node`; `none` is `NULL`. -/
structure Node (ν : Type) where
  next : Option ν
  prev : Option ν
  deriving DecidableEq

/-- `list_declare` -/
structure Header (ν : Type) where
  head : Option ν
  tail : Option ν

structure Memory (ι ν : Type) where
  list : ι → Header ν
  node : ν → Node ν

inductive Fault
  | nullDereference
  /-- The loop is not over after the given number of turns. -/
  | running
  deriving DecidableEq, Repr

variable {ι ν : Type}

/-- The links of a node that is on no list. -/
def Node.null : Node ν := ⟨none, none⟩

/-! ## The macros -/

section Macros

variable [DecidableEq ι] [DecidableEq ν] (m : Memory ι ν) (lst : ι) (elem : ν)

def Memory.setHead (p : Option ν) : Memory ι ν :=
  { m with list := Function.update m.list lst { m.list lst with head := p } }

def Memory.setTail (p : Option ν) : Memory ι ν :=
  { m with list := Function.update m.list lst { m.list lst with tail := p } }

def Memory.setNext (p : Option ν) : Memory ι ν :=
  { m with node := Function.update m.node elem { m.node elem with next := p } }

def Memory.setPrev (p : Option ν) : Memory ι ν :=
  { m with node := Function.update m.node elem { m.node elem with prev := p } }

def listInit : Memory ι ν := (m.setHead lst none).setTail lst none

def listAppend : Except Fault (Memory ι ν) :=
  if (m.list lst).head = none then
    .ok ((m.setHead lst (some elem)).setTail lst (some elem))
  else
    match (m.list lst).tail with
    | none => .error .nullDereference
    | some last => .ok ((((m.setNext last (some elem)).setPrev elem (some last)).setNext elem
        none).setTail lst (some elem))

/-- The first `if` of `list_remove`: the node in front. -/
def bypassPrev : Memory ι ν :=
  match (m.node elem).prev with
  | some prev => m.setNext prev (m.node elem).next
  | none => m

/-- The second one: the node behind. -/
def bypassNext : Memory ι ν :=
  match (m.node elem).next with
  | some next => m.setPrev next (m.node elem).prev
  | none => m

/-- The third one. -/
def moveHead : Memory ι ν :=
  if (m.list lst).head = some elem then m.setHead lst (m.node elem).next else m

/-- The last one. -/
def moveTail : Memory ι ν :=
  if (m.list lst).tail = some elem then m.setTail lst (m.node elem).prev else m

def listRemove : Memory ι ν :=
  let m := bypassPrev m elem
  let m := bypassNext m elem
  let m := moveHead m lst elem
  let m := moveTail m lst elem
  (m.setPrev elem none).setNext elem none

/-- The loop of `list_foreach`, for at most `n` turns, with the nodes it visits. The successor of
the next node is read when the body is done. -/
def foreachLoop (body : Memory ι ν → ν → Except Fault (Memory ι ν)) :
    ℕ → Memory ι ν → Option ν → Option ν → Except Fault (List ν × Memory ι ν)
  | _, m, none, _ => .ok ([], m)
  | 0, _, some _, _ => .error .running
  | n + 1, m, some it, next => do
    let m ← body m it
    let r ← foreachLoop body n m next (next.bind fun x => (m.node x).next)
    return (it :: r.1, r.2)

def listForeach (body : Memory ι ν → ν → Except Fault (Memory ι ν)) (n : ℕ) :
    Except Fault (List ν × Memory ι ν) :=
  foreachLoop body n m (m.list lst).head ((m.list lst).head.bind fun x => (m.node x).next)

end Macros

/-! ## What a list represents -/

/-- The list's pointers and the links of its nodes are those of the sequence `l`. -/
structure Represents (m : Memory ι ν) (lst : ι) (l : List ν) : Prop where
  head : (m.list lst).head = l.head?
  tail : (m.list lst).tail = l.getLast?
  node : ∀ pre x post, l = pre ++ x :: post → m.node x = ⟨post.head?, pre.getLast?⟩

section Operations

variable {m m' : Memory ι ν} {lst lst' : ι} {l : List ν} {x y : ν}

/-- What `list_foreach` reads as the successor of the node it comes to. -/
theorem Represents.next_head (pre : List ν) (h : Represents m lst (pre ++ l)) :
    (l.head?.bind fun y => (m.node y).next) = l.tail.head? := by
  cases l with
  | nil => rfl
  | cons y l =>
    rw [List.head?_cons, Option.bind_some, h.node pre y l rfl]
    rfl

section Bypass

variable [DecidableEq ν]

theorem bypassPrev_node : (bypassPrev m x).node y =
    ⟨if (m.node x).prev = some y then (m.node x).next else (m.node y).next, (m.node y).prev⟩ := by
  unfold bypassPrev
  split
  · rename_i p hp
    by_cases hpy : p = y
    · subst hpy
      simp [Memory.setNext, hp]
    · simp [Memory.setNext, hp, hpy, Ne.symm hpy]
  · rename_i hp
    simp [hp]

theorem bypassNext_node : (bypassNext m x).node y =
    ⟨(m.node y).next, if (m.node x).next = some y then (m.node x).prev else (m.node y).prev⟩ := by
  unfold bypassNext
  split
  · rename_i n hn
    by_cases hny : n = y
    · subst hny
      simp [Memory.setPrev, hn]
    · simp [Memory.setPrev, hn, hny, Ne.symm hny]
  · rename_i hn
    simp [hn]

theorem bypass_list : (bypassNext (bypassPrev m x) x).list = m.list := by
  unfold bypassNext
  split <;> unfold bypassPrev <;> split <;> rfl

end Bypass

variable [DecidableEq ι]

theorem represents_init : Represents (listInit m lst) lst [] := by
  constructor <;> simp [listInit, Memory.setHead, Memory.setTail]

variable [DecidableEq ν]

/-- **Appending** a node whose links are null. -/
theorem Represents.append (h : Represents m lst l) (hl : l.Nodup) (hx : x ∉ l)
    (hnull : m.node x = .null) :
    ∃ m', listAppend m lst x = .ok m' ∧ Represents m' lst (l ++ [x]) ∧
      (∀ lst', lst' ≠ lst → m'.list lst' = m.list lst') ∧
      ∀ y, y ∉ l ++ [x] → m'.node y = m.node y := by
  rw [listAppend, h.head, h.tail]
  rcases List.eq_nil_or_concat l with rfl | ⟨l, last, rfl⟩
  · refine ⟨_, if_pos rfl, ⟨?_, ?_, fun pre y post heq => ?_⟩, fun lst' hne => ?_, fun y _ => rfl⟩
    · simp [Memory.setHead, Memory.setTail]
    · simp [Memory.setTail]
    · obtain ⟨rfl, rfl, rfl⟩ : pre = [] ∧ y = x ∧ post = [] := by
        simpa [List.cons_eq_append_iff] using heq
      exact hnull
    · simp [Memory.setHead, Memory.setTail, hne]
  · rw [List.concat_eq_append] at *
    rw [if_neg (by simp), List.getLast?_concat]
    refine ⟨_, rfl, ⟨?_, ?_, fun pre y post heq => ?_⟩, fun lst' hne => ?_, fun y hy => ?_⟩
    · simp [Memory.setTail, Memory.setNext, Memory.setPrev, h.head]
    · simp [Memory.setTail]
    · rcases List.eq_nil_or_concat post with rfl | ⟨post, z, rfl⟩
      · obtain ⟨rfl, hy⟩ := List.append_inj' heq rfl
        simp_all [Memory.setTail, Memory.setNext, Memory.setPrev]
      · rw [List.concat_eq_append, ← List.cons_append, ← List.append_assoc] at heq
        obtain ⟨heq, hz⟩ := List.append_inj' heq rfl
        have hy := h.node pre y post heq
        have hyx : y ≠ x := fun hyx => hx (by simp [heq, hyx])
        rcases List.eq_nil_or_concat post with rfl | ⟨post, w, rfl⟩
        · simp_all [Memory.setTail, Memory.setNext, Memory.setPrev]
        · rw [List.concat_eq_append, ← List.cons_append, ← List.append_assoc] at heq
          obtain ⟨rfl, hlast⟩ := List.append_inj' heq rfl
          have hne : y ≠ last := fun hyl => List.disjoint_of_nodup_append hl
            (List.mem_append_right _ (.head _)) (by simp [hyl])
          simp_all [Memory.setTail, Memory.setNext, Memory.setPrev]
    · simp [Memory.setTail, Memory.setNext, Memory.setPrev, hne]
    · simp only [List.mem_append, List.mem_singleton, not_or] at hy
      simp [Memory.setTail, Memory.setNext, Memory.setPrev, hy.1.2, hy.2]

theorem move_node : (moveTail (moveHead m lst x) lst x).node = m.node := by
  unfold moveTail
  split <;> unfold moveHead <;> split <;> rfl

theorem move_list : (moveTail (moveHead m lst x) lst x).list lst' = if lst' = lst then
    ⟨if (m.list lst).head = some x then (m.node x).next else (m.list lst).head,
      if (m.list lst).tail = some x then (m.node x).prev else (m.list lst).tail⟩
    else m.list lst' := by
  by_cases hlst : lst' = lst
  · unfold moveTail moveHead
    split <;> split <;> simp_all [Memory.setHead, Memory.setTail]
  · unfold moveTail moveHead
    split <;> split <;> simp [Memory.setHead, Memory.setTail, hlst]

theorem listRemove_node (hprev : (m.node x).prev ≠ some x) :
    (listRemove m lst x).node y = if y = x then .null else
      ⟨if (m.node x).prev = some y then (m.node x).next else (m.node y).next,
        if (m.node x).next = some y then (m.node x).prev else (m.node y).prev⟩ := by
  by_cases hy : y = x
  · simp [listRemove, Memory.setPrev, Memory.setNext, hy, Node.null]
  · simp [listRemove, Memory.setPrev, Memory.setNext, hy, move_node, bypassNext_node,
      bypassPrev_node, hprev]

theorem listRemove_list (hprev : (m.node x).prev ≠ some x) (hnext : (m.node x).next ≠ some x) :
    (listRemove m lst x).list lst' = if lst' = lst then
      ⟨if (m.list lst).head = some x then (m.node x).next else (m.list lst).head,
        if (m.list lst).tail = some x then (m.node x).prev else (m.list lst).tail⟩
      else m.list lst' := by
  have hlist : (listRemove m lst x).list =
      (moveTail (moveHead (bypassNext (bypassPrev m x) x) lst x) lst x).list := rfl
  simp [hlist, move_list, bypass_list, bypassNext_node, bypassPrev_node]

/-- **Removing** a node of the list. -/
theorem Represents.remove {pre post : List ν} (h : Represents m lst (pre ++ x :: post))
    (hl : (pre ++ x :: post).Nodup) :
    Represents (listRemove m lst x) lst (pre ++ post) ∧ (listRemove m lst x).node x = .null ∧
      (∀ lst', lst' ≠ lst → (listRemove m lst x).list lst' = m.list lst') ∧
      ∀ y, y ∉ pre ++ x :: post → (listRemove m lst x).node y = m.node y := by
  have hx := h.node pre x post rfl
  have hlast : ∀ {y}, y ∉ pre → pre.getLast? ≠ some y :=
    fun hy heq => hy (List.mem_of_getLast? heq)
  have hfirst : ∀ {y}, y ∉ post → post.head? ≠ some y :=
    fun hy heq => hy (List.mem_of_head? heq)
  have hxs : x ∉ pre ∧ x ∉ post := by grind
  have hnode : ∀ y, (listRemove m lst x).node y = if y = x then .null else
      ⟨if pre.getLast? = some y then post.head? else (m.node y).next,
        if post.head? = some y then pre.getLast? else (m.node y).prev⟩ := by
    intro y
    rw [listRemove_node (by rw [hx]; exact hlast hxs.1), hx]
  have hlist : ∀ lst', (listRemove m lst x).list lst' = _ := fun lst' =>
    listRemove_list (by rw [hx]; exact hlast hxs.1) (by rw [hx]; exact hfirst hxs.2)
  rw [h.head, h.tail, hx] at hlist
  refine ⟨⟨?_, ?_, fun pre' y post' heq => ?_⟩, by rw [hnode, if_pos rfl], fun lst' hne => ?_,
    fun y hy => ?_⟩
  · rw [hlist]
    cases pre with
    | nil => simp
    | cons y pre =>
      have hne : y ≠ x := by grind
      simp [hne]
  · rw [hlist, if_pos rfl]
    rcases List.eq_nil_or_concat post with rfl | ⟨post, y, rfl⟩
    · simp
    · have hne : y ≠ x := by grind
      simp [List.getLast?_cons, hne]
  · have hne : y ≠ x := by grind
    rw [hnode, if_neg hne]
    rcases List.append_eq_append_iff.mp heq with ⟨mid, rfl, rfl⟩ | ⟨mid, rfl, hmid⟩
    · have hy := h.node (pre ++ x :: mid) y post' (by simp)
      have hpre : pre.getLast? ≠ some y := hlast (by grind)
      cases mid with
      | nil => simp [hy, hpre]
      | cons z mid =>
        have hz : z ≠ y := by grind
        simp [hy, hpre, hz]
    · rcases List.cons_eq_append_iff.mp hmid with ⟨rfl, rfl⟩ | ⟨mid, rfl, rfl⟩
      · have hy := h.node (pre' ++ [x]) y post' (by simp)
        have hpre : pre'.getLast? ≠ some y := by simpa using hlast (y := y) (by grind)
        simp [hy, hpre]
      · have hy := h.node pre' y (mid ++ x :: post) (by simp)
        have hpost : post.head? ≠ some y := hfirst (by grind)
        rcases List.eq_nil_or_concat mid with rfl | ⟨mid, z, rfl⟩
        · simp [hy, hpost]
        · have hz : z ≠ y := by grind
          simp [hy, hpost, hz, List.getLast?_cons]
  · rw [hlist, if_neg hne]
  · simp only [List.mem_append, List.mem_cons, not_or] at hy
    rw [hnode, if_neg hy.2.1, if_neg (hlast hy.1), if_neg (hfirst hy.2.2)]

end Operations

/-! ## Any number of lists -/

inductive Op (ι ν : Type)
  | init (lst : ι)
  | append (lst : ι) (elem : ν)
  | remove (lst : ι) (elem : ν)

/-- The sequences that the lists stand for, once they are initialised. Nodes that were on a list
when it was initialised are `dropped` until they are appended again. -/
structure Contents (ι ν : Type) where
  seq : ι → Option (List ν)
  dropped : List ν

namespace Contents

def empty : Contents ι ν := ⟨fun _ => none, []⟩

/-- The nodes on a list. -/
def on (c : Contents ι ν) (lst : ι) : List ν := (c.seq lst).getD []

theorem on_of_seq {c : Contents ι ν} {lst : ι} {l : List ν} (h : c.seq lst = some l) :
    c.on lst = l := by
  rw [on, h, Option.getD_some]

/-- The node is on no list. -/
def Detached (c : Contents ι ν) (x : ν) : Prop := ∀ lst, x ∉ c.on lst

variable [DecidableEq ι] [DecidableEq ν]

def apply (c : Contents ι ν) : Op ι ν → Contents ι ν
  | .init lst => ⟨Function.update c.seq lst (some []), c.on lst ++ c.dropped⟩
  | .append lst x =>
    ⟨Function.update c.seq lst (some (c.on lst ++ [x])), c.dropped.filter (· ≠ x)⟩
  | .remove lst x => ⟨Function.update c.seq lst (some ((c.on lst).erase x)), c.dropped⟩

/-- A list that is initialised stays so. -/
theorem isSome_foldl {lst : ι} (ops : List (Op ι ν)) : ∀ {c : Contents ι ν},
    (c.seq lst).isSome → ((ops.foldl apply c).seq lst).isSome := by
  induction ops with
  | nil => exact id
  | cons op ops ih =>
    intro c h
    refine ih ?_
    cases op <;> simp only [apply, Function.update_apply] <;> split <;> simp [h]

/-- The lists that are used are initialised; a node that is appended is on no list and has null
links, and one that is removed is on the list. -/
def Allows (c : Contents ι ν) (m : Memory ι ν) : Op ι ν → Prop
  | .init _ => True
  | .append lst x => (c.seq lst).isSome ∧ c.Detached x ∧ m.node x = .null
  | .remove lst x => (c.seq lst).isSome ∧ x ∈ c.on lst

end Contents

section Runs

variable [DecidableEq ι] [DecidableEq ν]

def step (m : Memory ι ν) : Op ι ν → Except Fault (Memory ι ν)
  | .init lst => .ok (listInit m lst)
  | .append lst x => listAppend m lst x
  | .remove lst x => .ok (listRemove m lst x)

/-- Each operation is allowed when its turn comes. -/
def Legal : Contents ι ν → Memory ι ν → List (Op ι ν) → Prop
  | _, _, [] => True
  | c, m, op :: ops => c.Allows m op ∧ ∀ m', step m op = .ok m' → Legal (c.apply op) m' ops

/-- The memory represents the contents, and links of nodes that are on no list are null. -/
structure Refines (m : Memory ι ν) (c : Contents ι ν) : Prop where
  represents : ∀ lst l, c.seq lst = some l → Represents m lst l
  nodup : ∀ lst, (c.on lst).Nodup
  apart : ∀ lst lst' x, x ∈ c.on lst → x ∈ c.on lst' → lst = lst'
  null : ∀ x, c.Detached x → x ∉ c.dropped → m.node x = .null

variable {m m' : Memory ι ν} {c : Contents ι ν} {lst : ι} {x : ν}

/-- One list has changed, and its nodes: those of the old and those of the new sequence. -/
theorem Refines.update (h : Refines m c) {l dropped : List ν} (hrep : Represents m' lst l)
    (hl : l.Nodup) (hnew : ∀ y ∈ l, y ∈ c.on lst ∨ c.Detached y)
    (hlist : ∀ lst', lst' ≠ lst → m'.list lst' = m.list lst')
    (hnode : ∀ y, y ∉ c.on lst → y ∉ l → m'.node y = m.node y)
    (hnull : ∀ y ∈ c.on lst, y ∉ l → y ∉ dropped → m'.node y = .null)
    (hdropped : ∀ y ∈ c.dropped, y ∈ dropped ∨ y ∈ l) :
    Refines m' ⟨Function.update c.seq lst (some l), dropped⟩ := by
  have hon : ∀ lst', (Contents.mk (Function.update c.seq lst (some l)) dropped).on lst' =
      if lst' = lst then l else c.on lst' := by
    intro lst'
    unfold Contents.on
    dsimp only
    rw [Function.update_apply]
    split <;> rfl
  -- a node of another list is not touched
  have hother : ∀ lst' y, lst' ≠ lst → y ∈ c.on lst' → y ∉ c.on lst ∧ y ∉ l := by
    intro lst' y hne hy
    have hy' : y ∉ c.on lst := fun hmem => hne (h.apart _ _ y hy hmem)
    exact ⟨hy', fun hmem => (hnew y hmem).elim hy' fun hdet => hdet lst' hy⟩
  refine ⟨fun lst' l' hseq => ?_, fun lst' => ?_, fun lst₁ lst₂ y h₁ h₂ => ?_, fun y hy hd => ?_⟩
  · by_cases hne : lst' = lst
    · subst hne
      dsimp only at hseq
      rw [Function.update_self, Option.some.injEq] at hseq
      exact hseq ▸ hrep
    · dsimp only at hseq
      rw [Function.update_of_ne hne] at hseq
      have hl' := h.represents lst' l' hseq
      refine ⟨?_, ?_, fun pre y post heq => ?_⟩
      · rw [hlist lst' hne, hl'.head]
      · rw [hlist lst' hne, hl'.tail]
      · obtain ⟨hy₁, hy₂⟩ := hother lst' y hne (by simp [Contents.on, hseq, heq])
        rw [hnode y hy₁ hy₂, hl'.node pre y post heq]
  · rw [hon]
    split
    · exact hl
    · exact h.nodup lst'
  · rw [hon] at h₁ h₂
    split at h₁ <;> split at h₂
    · simp_all
    · exact absurd h₁ (hother lst₂ y ‹_› h₂).2
    · exact absurd h₂ (hother lst₁ y ‹_› h₁).2
    · exact h.apart _ _ y h₁ h₂
  · have hyl : y ∉ l := by
      have := hy lst
      rwa [hon, if_pos rfl] at this
    by_cases hmem : y ∈ c.on lst
    · exact hnull y hmem hyl hd
    · rw [hnode y hmem hyl]
      refine h.null y (fun lst' hy' => ?_) fun hc => (hdropped y hc).elim hd hyl
      have := hy lst'
      rw [hon] at this
      split at this
      · rename_i heq
        exact hmem (heq ▸ hy')
      · exact this hy'

omit [DecidableEq ι] in
theorem Refines.erase_on (h : Refines m c) {pre post : List ν} (hl : c.on lst = pre ++ x :: post) :
    (c.on lst).erase x = pre ++ post := by
  have hnodup := h.nodup lst
  rw [hl] at hnodup ⊢
  have hx : x ∉ pre :=
    fun hmem => List.disjoint_of_nodup_append hnodup hmem (.head _)
  rw [List.erase_append_right _ hx, List.erase_cons_head]

/-- **One operation.** -/
theorem Refines.step (h : Refines m c) {op : Op ι ν} (ha : c.Allows m op) :
    ∃ m', Lists.step m op = .ok m' ∧ Refines m' (c.apply op) := by
  cases op with
  | init lst =>
    refine ⟨_, rfl, h.update represents_init List.nodup_nil (by simp) (fun lst' hne => ?_)
      (fun _ _ _ => rfl) (fun y hy _ hd => ?_) fun y hy => ?_⟩
    · simp [listInit, Memory.setHead, Memory.setTail, hne]
    · exact absurd (List.mem_append_left _ hy) hd
    · exact .inl (List.mem_append_right _ hy)
  | append lst x =>
    obtain ⟨hsome, hdet, hnull⟩ := ha
    obtain ⟨l, hseq⟩ := Option.isSome_iff_exists.mp hsome
    have hon := Contents.on_of_seq hseq
    have hx := hdet lst
    have hl := h.nodup lst
    obtain ⟨m', hm', hrep, hlist, hnode⟩ :=
      (h.represents lst l hseq).append (hon ▸ hl) (hon ▸ hx) hnull
    rw [← hon] at hrep hnode
    refine ⟨m', hm', h.update hrep ?_ (fun y hy => ?_) hlist (fun y _ hy => hnode y hy)
      (fun y hy hy' => absurd (List.mem_append_left _ hy) hy') fun y hy => ?_⟩
    · exact List.nodup_append'.mpr ⟨hl, List.nodup_singleton x, by simpa using hx⟩
    · rcases List.mem_append.mp hy with hy | hy
      · exact .inl hy
      · exact .inr (List.mem_singleton.mp hy ▸ hdet)
    · by_cases heq : y = x
      · simp [heq]
      · simp [hy, heq]
  | remove lst x =>
    obtain ⟨hsome, hx⟩ := ha
    obtain ⟨l, hseq⟩ := Option.isSome_iff_exists.mp hsome
    have hon := Contents.on_of_seq hseq
    have hl := h.nodup lst
    obtain ⟨pre, post, hsplit⟩ := List.append_of_mem hx
    have hrep := h.represents lst l hseq
    rw [← hon, hsplit] at hrep
    obtain ⟨hrep', hnull, hlist, hnode⟩ := hrep.remove (hsplit ▸ hl)
    rw [← h.erase_on hsplit] at hrep'
    rw [← hsplit] at hnode
    refine ⟨_, rfl, h.update hrep' (hl.erase x) (fun y hy => .inl (List.mem_of_mem_erase hy)) hlist
      (fun y hy _ => hnode y hy) (fun y hy hy' _ => ?_) fun y hy => .inl hy⟩
    -- the only node that goes is the one that is removed
    obtain rfl : y = x := by
      by_contra hne
      exact hy' ((List.mem_erase_of_ne hne).mpr hy)
    exact hnull

/-- **Any number of them.** -/
theorem Refines.run (h : Refines m c) {ops : List (Op ι ν)} (hops : Legal c m ops) :
    ∃ m', ops.foldlM Lists.step m = .ok m' ∧ Refines m' (ops.foldl Contents.apply c) := by
  induction ops generalizing m c with
  | nil => exact ⟨m, rfl, h⟩
  | cons op ops ih =>
    obtain ⟨ha, hrest⟩ := hops
    obtain ⟨m₁, hm₁, h₁⟩ := h.step ha
    obtain ⟨m', hm', h'⟩ := ih h₁ (hrest m₁ hm₁)
    refine ⟨m', ?_, h'⟩
    rw [List.foldlM_cons, hm₁]
    exact hm'

/-! ## Loops -/

/-- What the body of a loop does with the node it visits. -/
inductive Visit (ι : Type)
  | keep
  | remove
  | move (other : ι)

def Visit.ops (lst : ι) (x : ν) : Visit ι → List (Op ι ν)
  | .keep => []
  | .remove => [.remove lst x]
  | .move other => [.remove lst x, .append other x]

/-- The body of a loop over `lst`. -/
def visitBody (lst : ι) (visit : ν → Visit ι) (m : Memory ι ν) (x : ν) :
    Except Fault (Memory ι ν) :=
  ((visit x).ops lst x).foldlM step m

variable {rest : List ν} {v : Visit ι}

/-- The body is allowed when nodes go to other lists. -/
theorem Refines.legal_visit (h : Refines m c) (hsome : (c.seq lst).isSome) (hx : x ∈ c.on lst)
    (hmove : ∀ other, v = .move other → other ≠ lst ∧ (c.seq other).isSome) :
    Legal c m (v.ops lst x) := by
  cases v with
  | keep => trivial
  | remove => exact ⟨⟨hsome, hx⟩, fun _ _ => trivial⟩
  | move other =>
    obtain ⟨hne, hother⟩ := hmove other rfl
    refine ⟨⟨hsome, hx⟩, fun m' hm' => ⟨⟨?_, fun lst' => ?_, ?_⟩, fun _ _ => trivial⟩⟩
    · simpa [Contents.apply, hne] using hother
    · by_cases heq : lst' = lst
      · subst heq
        simpa [Contents.apply, Contents.on] using (h.nodup lst').not_mem_erase
      · have hx' : x ∉ c.on lst' := fun hmem => heq (h.apart _ _ x hmem hx)
        simpa [Contents.apply, Contents.on, heq] using hx'
    · cases hm'
      simp [listRemove, Memory.setPrev, Memory.setNext, Node.null]

/-- A visit leaves the nodes behind it on the list. -/
theorem Refines.seq_visit {kept : List ν} (h : Refines m c)
    (hseq : c.seq lst = some (kept ++ x :: rest))
    (hmove : ∀ other, v = .move other → other ≠ lst ∧ (c.seq other).isSome) :
    ∃ kept', ((v.ops lst x).foldl Contents.apply c).seq lst = some (kept' ++ rest) := by
  have herase := h.erase_on (Contents.on_of_seq hseq)
  cases v with
  | keep => exact ⟨kept ++ [x], by simp [Visit.ops, hseq]⟩
  | remove => exact ⟨kept, by simp [Visit.ops, Contents.apply, herase]⟩
  | move dest =>
    have hne := (hmove dest rfl).1
    exact ⟨kept, by simp [Visit.ops, Contents.apply, hne.symm, herase]⟩

/-- **The loop** visits the nodes that are left, in order. -/
theorem Refines.foreachLoop (kept : List ν) (h : Refines m c) {visit : ν → Visit ι} {n : ℕ}
    (hseq : c.seq lst = some (kept ++ rest)) (hn : rest.length ≤ n)
    (hmove : ∀ x other, visit x = .move other → other ≠ lst ∧ (c.seq other).isSome) :
    ∃ m', Lists.foreachLoop (visitBody lst visit) n m rest.head? rest.tail.head? = .ok (rest, m') ∧
      Refines m' ((rest.flatMap fun x => (visit x).ops lst x).foldl Contents.apply c) := by
  induction rest generalizing m c kept n with
  | nil => exact ⟨m, by rw [List.head?_nil, Lists.foreachLoop], h⟩
  | cons x rest ih =>
    obtain ⟨n, rfl⟩ : ∃ k, n = k + 1 := ⟨n - 1, by rw [List.length_cons] at hn; omega⟩
    have hx : x ∈ c.on lst := by simp [Contents.on, hseq]
    obtain ⟨m₁, hm₁, h₁⟩ := h.run (h.legal_visit (by simp [hseq]) hx (hmove x))
    obtain ⟨kept₁, hseq₁⟩ := h.seq_visit hseq (hmove x)
    have hnext := (h₁.represents lst _ hseq₁).next_head kept₁
    obtain ⟨m', hm', h'⟩ := ih kept₁ h₁ hseq₁ (by simpa using hn) fun x other hv =>
      ⟨(hmove x other hv).1, Contents.isSome_foldl _ (hmove x other hv).2⟩
    refine ⟨m', ?_, by rwa [List.flatMap_cons, List.foldl_append]⟩
    rw [List.head?_cons, List.tail_cons, Lists.foreachLoop, visitBody, hm₁, ok_bind, hnext, hm']
    rfl

/-- **Lists refine sequences.** After any operations, starting with lists that are not initialised
and null links, each list represents its sequence, and the links of a node that is on no list are
null, unless `list_init` has dropped it. A loop whose body removes nodes it visits, and appends them
to other lists, visits each node that was on the list once, in order. -/
theorem lists_refine (hnull : ∀ x, m.node x = .null) {ops : List (Op ι ν)}
    (hops : Legal .empty m ops) : ∃ m', ops.foldlM step m = .ok m' ∧
      Refines m' (ops.foldl Contents.apply .empty) ∧
      ∀ lst l (visit : ν → Visit ι) n, (ops.foldl Contents.apply .empty).seq lst = some l →
        (∀ x other, visit x = .move other →
          other ≠ lst ∧ ((ops.foldl Contents.apply .empty).seq other).isSome) → l.length ≤ n →
        ∃ m'', listForeach m' lst (visitBody lst visit) n = .ok (l, m'') ∧
          Refines m'' ((l.flatMap fun x => (visit x).ops lst x).foldl Contents.apply
            (ops.foldl Contents.apply .empty)) := by
  have hempty : Refines m .empty :=
    ⟨nofun, fun _ => List.nodup_nil, fun _ _ _ hx => absurd hx List.not_mem_nil,
      fun x _ _ => hnull x⟩
  obtain ⟨m', hm', h'⟩ := hempty.run hops
  refine ⟨m', hm', h', fun lst l visit n hseq hmove hn => ?_⟩
  have hrep := h'.represents lst l hseq
  rw [listForeach, hrep.head, hrep.next_head []]
  exact h'.foreachLoop [] hseq hn hmove

/-- A memory with null links, and pointers of lists that are not initialised. -/
def blank : Memory (Fin 2) (Fin 3) := ⟨fun _ => ⟨some 2, none⟩, fun _ => .null⟩

/-- Two nodes go from one list to the other. -/
theorem lists_refine_move : ∃ m m', [.init 0, .init 1, .append 0 0, .append 0 1].foldlM step blank =
      .ok m ∧ listForeach m 0 (visitBody 0 fun _ => .move 1) 2 = .ok ([0, 1], m') ∧
      Represents m' 0 [] ∧ Represents m' 1 [0, 1] := by
  have hlegal : Legal .empty blank [.init 0, .init 1, .append 0 0, .append 0 1] := by
    refine ⟨trivial, fun _ h₁ => ⟨trivial, fun _ h₂ => ⟨?_, fun _ h₃ => ⟨?_, fun _ _ => trivial⟩⟩⟩⟩
    · cases h₁
      cases h₂
      exact ⟨rfl, by unfold Contents.Detached; decide, by decide⟩
    · cases h₁
      cases h₂
      cases h₃
      exact ⟨rfl, by unfold Contents.Detached; decide, by decide⟩
  obtain ⟨m, hm, -, hloop⟩ := lists_refine (fun _ => rfl) hlegal
  obtain ⟨m', hm', h'⟩ := hloop 0 [0, 1] (fun _ => .move 1) 2 rfl (fun _ _ h => by
    cases h
    exact ⟨by decide, rfl⟩) (Nat.le_refl _)
  exact ⟨m, m', hm, hm', h'.represents 0 [] rfl, h'.represents 1 [0, 1] rfl⟩

/-- After a second `list_init` a node is on no list, and has a successor. -/
theorem not_null_after_init : ∃ (ops : List (Op (Fin 2) (Fin 3))) (m : Memory (Fin 2) (Fin 3)),
    Legal .empty blank ops ∧ ops.foldlM step blank = .ok m ∧
      ¬ ∀ x, (ops.foldl Contents.apply .empty).Detached x → m.node x = .null := by
  refine ⟨[.init 0, .append 0 0, .append 0 1, .init 0], _, ?_, rfl, fun h => ?_⟩
  · refine ⟨trivial, fun _ h₁ => ⟨?_, fun _ h₂ => ⟨?_, fun _ _ => ⟨trivial, fun _ _ => trivial⟩⟩⟩⟩
    · cases h₁
      exact ⟨rfl, by unfold Contents.Detached; decide, by decide⟩
    · cases h₁
      cases h₂
      exact ⟨rfl, by unfold Contents.Detached; decide, by decide⟩
  · exact absurd (h 0 (by unfold Contents.Detached; decide)) (by decide)

end Runs

end Rastapopoulos.Lists
