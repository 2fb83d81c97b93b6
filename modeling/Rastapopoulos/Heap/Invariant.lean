import Rastapopoulos.Heap.Capacity

/-!
# The block list along a run

Runs of `heap_alloc_block_aligned`, with the alignment that `kmalloc` asks for, and of
`heap_free_block`, on the blocks that are allocated at the time. For this alignment the bytes
skipped in front of a moved header are at most 24, so that the test of the source leaves room for
the header, if not for the bytes asked for (`gap_kmalloc_le`). Every operation then returns, and
leaves a list of blocks that tiles the heap and has no two free neighbours (`intact_of_reach`).
-/

namespace Rastapopoulos.KernelHeap

variable {heap heap' : Heap} {bs pre post : List Block} {b c : Block} {size : ℕ}

/-! ## Runs -/

/-- The alignment of `kmalloc`, `sizeof(uint64_t)`. -/
def kmallocAlignment : ℕ := 8

/-- An operation on blocks. -/
inductive BlockOp
  /-- `heap_alloc_block_aligned`, with the answers to its page requests. -/
  | alloc (pages : ℕ → Bool) (size : ℕ)
  /-- `heap_free_block`. -/
  | free (block : ℕ)

/-- The effect of an operation on the heap. -/
def blockStep (heap : Heap) : BlockOp → Except Fault Heap
  | .alloc pages size => do
    let (heap, _) ← heapAllocBlockAligned pages heap size kmallocAlignment
    return heap
  | .free block => heapFreeBlock heap block

/-- The operations of a run. -/
def BlockOp.Allowed (heap : Heap) : BlockOp → Prop
  | .alloc _ size => 1 ≤ size ∧ size ≤ 2 ^ 31
  | .free block => block ∈ blockAddrs heap ∧ (heap.mem block).flags &&& blockAllocated ≠ 0

/-- The list of headers is in order. -/
structure Intact (heap : Heap) : Prop where
  head : (blockAddrs heap).head? = some (heap.addr + heapStructSize)
  next : (blockAddrs heap).IsChain fun a b =>
    (heap.mem a).next = b ∧ b = a + (heap.mem a).size
  last : ∀ a ∈ (blockAddrs heap).getLast?,
    (heap.mem a).next = 0 ∧ a + (heap.mem a).size = heap.addr + heap.size
  min_size : ∀ a ∈ blockAddrs heap, headerSize ≤ (heap.mem a).size
  magic : ∀ a ∈ blockAddrs heap, isValidBlock (heap.mem a) = true
  settled : (blockAddrs heap).IsChain fun a b =>
    (heap.mem a).flags &&& blockAllocated ≠ 0 ∨ (heap.mem b).flags &&& blockAllocated ≠ 0

/-! ## The headers of a list of blocks -/

theorem Repr.flags_ne_zero (hr : Repr heap bs) (hb : b ∈ bs) :
    (heap.mem b.addr).flags &&& blockAllocated ≠ 0 ↔ b.allocated = true := by
  obtain ⟨pre, post, rfl⟩ := List.append_of_mem hb
  rw [hr.mem_eq, Block.header_flags_and]
  cases b.allocated <;> simp

theorem Repr.intact (hr : Repr heap bs) (hs : Settled bs) : Intact heap := by
  have haddrs := hr.blockAddrs_eq
  refine
    { head := ?_
      next := ?_
      last := ?_
      min_size := ?_
      magic := ?_
      settled := ?_ }
  · obtain _ | ⟨b, bs⟩ := bs
    · exact absurd rfl hr.ne_nil
    · rw [haddrs, List.map_cons, List.head?_cons, hr.tiles.1]
  · rw [haddrs, List.isChain_map, List.isChain_iff_forall_rel_of_append_cons_cons]
    intro b c pre post heq
    subst heq
    obtain ⟨_, -, hb, hc, -⟩ := tiles_append.mp hr.tiles
    rw [hr.mem_eq, Block.header_next, Block.header_size, hc, hb]
    exact ⟨hc, rfl⟩
  · obtain ⟨pre, last, rfl⟩ := (List.eq_nil_or_concat bs).resolve_left hr.ne_nil
    rw [List.concat_eq_append] at hr haddrs
    intro a ha
    rw [haddrs, List.map_append, List.map_singleton, List.getLast?_concat] at ha
    cases ha
    rw [hr.mem_eq, Block.header_next, Block.header_size]
    exact ⟨rfl, hr.last_end⟩
  · intro a ha
    rw [haddrs] at ha
    obtain ⟨b, hb, rfl⟩ := List.mem_map.mp ha
    rw [hr.mem_size hb]
    exact hr.min_size b hb
  · intro a ha
    rw [haddrs] at ha
    obtain ⟨b, hb, rfl⟩ := List.mem_map.mp ha
    obtain ⟨pre, post, rfl⟩ := List.append_of_mem hb
    rw [hr.mem_eq, Block.isValidBlock_header]
  · rw [haddrs, List.isChain_map]
    refine hs.imp_of_mem_imp fun b c hb hc h => ?_
    rwa [hr.flags_ne_zero hb, hr.flags_ne_zero hc]

/-! ## Allocating -/

theorem settled_allocBlocks {a size rest : ℕ} : Settled (allocBlocks a size rest) := by
  unfold allocBlocks
  split
  · exact List.isChain_pair.mpr (.inl rfl)
  · exact .singleton _

theorem settled_carveBlocks {alignment : ℕ} : Settled (carveBlocks b size alignment) := by
  unfold carveBlocks
  split
  · exact settled_allocBlocks
  · refine settled_allocBlocks.cons fun y hy => .inr ?_
    unfold allocBlocks at hy
    split at hy
    · cases hy
      rfl
    · cases hy
      rfl

/-- The gap in front of a moved header, for the alignment of `kmalloc`. -/
theorem gap_kmalloc_le {h : ℕ} (hh : h + 3 * pageSize ≤ wordMod) :
    gap h kmallocAlignment ≤ 24 := by
  unfold gap
  split
  · exact Nat.zero_le _
  · obtain ⟨g, hmv, -, hg, -⟩ := movedData_bound (h := h) (show 3 ≤ 12 by decide) hh
    rw [show kmallocAlignment = 2 ^ 3 from rfl, hmv]
    unfold headerSize at *
    omega

/-- **An allocation returns**, with a block or without. -/
theorem heapAllocBlockAligned_returns (pages : ℕ → Bool) (hr : Repr heap bs) (hs : Settled bs)
    (hlock : heap.lock = false) (hpos : 1 ≤ size) (hsize : size ≤ 2 ^ 31) :
    ∃ heap' found bs', heapAllocBlockAligned pages heap size kmallocAlignment = .ok (heap', found) ∧
      Repr heap' bs' ∧ Settled bs' ∧ heap'.lock = false := by
  have hcanary : addW size canarySize = size + canarySize :=
    addW_of_lt (by unfold canarySize wordMod; omega)
  obtain ⟨g, bs', hloc, hg, hs'⟩ := chosen_located pages size hr (show 3 ≤ 12 by decide)
    (show kmallocAlignment = 2 ^ 3 from rfl)
  cases hfind : bs'.find? (Block.accepted (addW size canarySize) kmallocAlignment) with
  | none =>
    rw [hfind] at hloc
    exact ⟨{ g with lock := false }, none, bs',
      heapAllocBlockAligned_of_none hlock hloc hg.lock_eq, hg.repr.lock false, hs' hs, rfl⟩
  | some c =>
    rw [hfind] at hloc
    obtain ⟨hacc, pre, post, rfl, -⟩ := List.find?_eq_some_iff_append.mp hfind
    obtain ⟨hfree, hfit, hmoved⟩ := Block.accepted_iff.mp hacc
    have hgap : gap c.addr kmallocAlignment + headerSize ≤ c.size := by
      have hle := gap_kmalloc_le (h := c.addr) (by
        have := hg.repr.end_le (b := c) (by simp)
        omega)
      rcases hmoved with hd | hlt
      · rw [gap, if_pos hd]
        omega
      · rw [hcanary] at hlt
        unfold canarySize headerSize at *
        omega
    obtain ⟨mem, hcarve, hr'⟩ := carve_spec hg.repr hfree (show 3 ≤ 12 by decide)
      (show kmallocAlignment = 2 ^ 3 from rfl) hfit hgap
    exact ⟨{ g with mem := mem, lock := false }, some (c.addr + gap c.addr kmallocAlignment), _,
      heapAllocBlockAligned_of_some hlock hloc hcarve hg.lock_eq, hr'.lock false,
      (hs' hs).exchange hfree settled_carveBlocks, rfl⟩

/-! ## Freeing -/

theorem Settled.joinNext (hpre : Settled pre) (hlast : ∀ c ∈ pre.getLast?, c.allocated = true)
    (hpost : Settled post) : Settled (pre ++ joinNext b post) := by
  refine List.IsChain.append hpre ?_ fun x hx y _ => .inl (hlast x hx)
  obtain _ | ⟨c, post⟩ := post
  · exact .singleton _
  · obtain ⟨hhead, hpost'⟩ := List.isChain_cons.mp hpost
    rw [KernelHeap.joinNext]
    split
    · rename_i hc
      exact hpost.cons_cons (.inr hc)
    · rename_i hc
      exact hpost'.cons fun y hy => .inr ((hhead y hy).resolve_left hc)

theorem Settled.release (h : Settled (pre ++ b :: post)) : Settled (release pre b post) := by
  obtain ⟨hpre, hbpost, -⟩ := List.isChain_append.mp h
  have hpost := (List.isChain_cons.mp hbpost).2
  unfold KernelHeap.release
  split
  · rename_i c hc
    obtain ⟨pre, rfl⟩ := List.getLast?_eq_some_iff.mp hc
    split
    · rename_i hall
      refine Settled.joinNext hpre ?_ hpost
      rw [hc]
      rintro _ ⟨⟩
      exact hall
    · rename_i hall
      rw [List.dropLast_concat]
      obtain ⟨hpre', -, hlast⟩ := List.isChain_append.mp hpre
      refine Settled.joinNext hpre' (fun x hx => ?_) hpost
      exact (hlast x hx c rfl).resolve_right hall
  · rename_i hnil
    rw [List.getLast?_eq_none_iff] at hnil
    subst hnil
    exact Settled.joinNext (show Settled [] from .nil) (by simp) hpost

/-! ## Whole runs -/

/-- What holds of every heap in a run. -/
def Ordered (heap : Heap) : Prop := ∃ bs, Repr heap bs ∧ Settled bs ∧ heap.lock = false

/-- An allowed operation returns, and leaves the heap in order. -/
theorem Ordered.blockStep {op : BlockOp} (h : Ordered heap) (hop : op.Allowed heap) :
    ∃ heap', blockStep heap op = .ok heap' ∧ Ordered heap' := by
  obtain ⟨bs, hr, hs, hlock⟩ := h
  cases op with
  | alloc pages size =>
    obtain ⟨heap', found, bs', halloc, h'⟩ :=
      heapAllocBlockAligned_returns pages hr hs hlock hop.1 hop.2
    refine ⟨heap', ?_, bs', h'⟩
    rw [KernelHeap.blockStep, halloc]
    rfl
  | free block =>
    obtain ⟨hmem, hflags⟩ := hop
    rw [hr.blockAddrs_eq] at hmem
    obtain ⟨b, hb, rfl⟩ := List.mem_map.mp hmem
    have hall := (hr.flags_ne_zero hb).mp hflags
    obtain ⟨pre, post, rfl⟩ := List.append_of_mem hb
    obtain ⟨mem, hfree, hr'⟩ := heapFreeBlock_spec hr hall hlock
    exact ⟨_, hfree, _, hr', hs.release, hlock⟩

/-- **The block list.** In every run from `heap_init` the list of headers is in order, and no
operation runs into an assertion, a `panic` or an endless loop. -/
theorem intact_of_reach {mem : ℕ → BlockHeader} {address size₀ maxSize : ℕ} {heap₀ : Heap}
    (hp : Placed address size₀ maxSize) (h₀ : heapInit mem address size₀ maxSize = .ok heap₀)
    (hrun : Reach blockStep (fun heap op => op.Allowed heap) heap₀ heap) :
    Intact heap ∧ ∀ op : BlockOp, op.Allowed heap → ∃ heap', blockStep heap op = .ok heap' := by
  have hord : Ordered heap := by
    refine hrun.invariant ?_ ?_
    · obtain ⟨hr, hlock⟩ := heapInit_spec hp h₀
      exact ⟨_, hr, .singleton _, hlock⟩
    · intro heap op heap' h hop hstep
      obtain ⟨heap'', hstep', h'⟩ := h.blockStep hop
      cases hstep.symm.trans hstep'
      exact h'
  obtain ⟨bs, hr, hs, -⟩ := id hord
  refine ⟨hr.intact hs, fun op hop => ?_⟩
  obtain ⟨heap', hstep, -⟩ := hord.blockStep hop
  exact ⟨heap', hstep⟩

/-- One allocation on the heap of `kmalloc_init`. -/
theorem intact_boot : ∃ heap₀ heap, bootHeap = .ok heap₀ ∧
    blockStep heap₀ (.alloc (fun _ => true) 101) = .ok heap ∧
    blockAddrs heap = [0xC0200010, 0xC020008D] ∧ Intact heap := by
  have hrun : (do
      let heap₀ ← bootHeap
      let heap ← blockStep heap₀ (.alloc (fun _ => true) 101)
      return blockAddrs heap : Except Fault (List ℕ)) = .ok [0xC0200010, 0xC020008D] := by
    decide +kernel
  simp only [bind_eq_ok, pure_inj] at hrun
  obtain ⟨heap₀, h₀, heap, hstep, haddrs⟩ := hrun
  have hallowed : BlockOp.Allowed heap₀ (.alloc (fun _ => true) 101) := ⟨by decide, by decide⟩
  exact ⟨heap₀, heap, h₀, hstep, haddrs,
    (intact_of_reach bootHeap_placed (bootHeap_eq ▸ h₀) (.tail .refl hallowed hstep)).1⟩

end Rastapopoulos.KernelHeap
