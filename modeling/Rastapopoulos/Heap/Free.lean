import Rastapopoulos.Heap.Search

/-!
# Freeing a block

`heap_free_block` on an allocated block of the list: the block becomes free and is joined with a
free neighbour on either side (`release`). No assertion of the source fails on the way.
-/

namespace Rastapopoulos.KernelHeap

variable {heap : Heap} {pre post : List Block} {b c : Block}

/-- A free block in front of the list `post`, joined with the first block of `post` if that one is
free too. -/
def joinNext (b : Block) : List Block → List Block
  | [] => [b]
  | c :: post => if c.allocated then b :: c :: post else { b with size := b.size + c.size } :: post

/-- The blocks after the block `b` between `pre` and `post` has been freed. -/
def release (pre : List Block) (b : Block) (post : List Block) : List Block :=
  match pre.getLast? with
  | some c =>
    if c.allocated then pre ++ joinNext { b with allocated := false } post
    else pre.dropLast ++ joinNext { c with size := c.size + b.size } post
  | none => joinNext { b with allocated := false } post

/-- `set_free` on an allocated block. -/
theorem setFree_spec (hr : Listed heap (pre ++ b :: post)) (hb : b.allocated = true) :
    ∃ mem, setFree heap b.addr = .ok { heap with mem := mem } ∧
      Listed { heap with mem := mem } (pre ++ { b with allocated := false } :: post) := by
  have hmem : heap.mem b.addr = allocatedHeader b.size (firstOr post 0) := by
    rw [hr.mem_eq, Block.header_of_allocated hb]
  have hmin := hr.min_size b (by simp)
  refine ⟨_, setFree_of_allocated hmem, ?_⟩
  have hr' : Listed heap (pre ++ [b] ++ post) := by simpa using hr
  have h : Listed (heap.set b.addr (freeHeader b.size (firstOr post 0)))
      (pre ++ [{ b with allocated := false }] ++ post) := hr'.splice (a := b.addr)
    (e := b.addr + b.size) rfl rfl rfl (by simp) (by simp) (by simp) (by simp) (by simpa using hmin) ?_ ⟨?_, trivial⟩
  · rw [List.append_assoc] at h
    exact h
  · intro x hx
    have hne : x ≠ b.addr := by unfold headerSize at hmin; omega
    rw [Heap.mem_set, if_neg hne]
  · rw [Heap.mem_set, if_pos rfl, Block.header_of_free rfl]
    rfl

/-- `merge_blocks` on two free neighbours. -/
theorem mergeBlocks_spec (hr : Listed heap (pre ++ c :: b :: post))
    (hend : heap.addr + heap.size ≤ wordMod) (hc : c.allocated = false)
    (hb : b.allocated = false) :
    ∃ mem, mergeBlocks heap c.addr b.addr = .ok { heap with mem := mem } ∧
      Listed { heap with mem := mem } (pre ++ { c with size := c.size + b.size } :: post) := by
  have hcmem : heap.mem c.addr = freeHeader c.size b.addr := by
    rw [hr.mem_eq, Block.header_of_free hc, firstOr_cons]
  have hr₂ : Listed heap ((pre ++ [c]) ++ b :: post) := by simpa using hr
  have hbmem : heap.mem b.addr = freeHeader b.size (firstOr post 0) := by
    rw [hr₂.mem_eq, Block.header_of_free hb]
  have hr' : Listed heap (pre ++ [c, b] ++ post) := by simpa using hr
  have hadj : b.addr = c.addr + c.size := by
    obtain ⟨m, -, ht⟩ := tiles_append.mp hr.tiles
    simp only [tiles_cons] at ht
    rw [ht.2.1, ht.1]
  have hcmin := hr.min_size c (by simp)
  have hbend := ((hr.tiles.bounds (x := b) (by simp)).2).trans hend
  have hcpos := hr.addr_pos (b := c) (by simp)
  have hlt : c.addr < b.addr := by unfold headerSize at hcmin; omega
  have hsum : addW c.size b.size = c.size + b.size := addW_of_lt (by omega)
  have hmerge : mergeBlocks heap c.addr b.addr
      = .ok (heap.set c.addr (freeHeader (c.size + b.size) (firstOr post 0))) := by
    simp [mergeBlocks, hcmem, hbmem, freeHeader, hlt, hsum, check_of]
  refine ⟨_, hmerge, ?_⟩
  have h : Listed (heap.set c.addr (freeHeader (c.size + b.size) (firstOr post 0)))
      (pre ++ [{ c with size := c.size + b.size }] ++ post) := hr'.splice (a := c.addr)
    (e := c.addr + c.size + b.size) rfl rfl rfl (by simp [hadj]) (by simp) (by simp [Nat.add_assoc]) (by simp) ?_ ?_
    ⟨?_, trivial⟩
  · rw [List.append_assoc] at h
    exact h
  · simp only [List.mem_singleton, forall_eq]
    omega
  · intro x hx
    have hne : x ≠ c.addr := by unfold headerSize at hcmin; omega
    rw [Heap.mem_set, if_neg hne]
  · rw [Heap.mem_set, if_pos rfl, Block.header_of_free (by exact hc)]
    rfl

/-- `mergeNext` joins a free block with a free successor. -/
theorem mergeNext_spec (hr : Listed heap (pre ++ b :: post))
    (hend : heap.addr + heap.size ≤ wordMod) (hb : b.allocated = false) :
    ∃ mem, mergeNext heap b.addr = .ok { heap with mem := mem } ∧
      Listed { heap with mem := mem } (pre ++ joinNext b post) := by
  have hnext : (heap.mem b.addr).next = firstOr post 0 := by rw [hr.mem_eq, Block.header_next]
  rw [mergeNext, hnext]
  obtain _ | ⟨c, post⟩ := post
  · exact ⟨heap.mem, by simp, by simpa [joinNext] using hr⟩
  · have hr₂ : Listed heap ((pre ++ [b]) ++ c :: post) := by simpa using hr
    have hpos : c.addr ≠ 0 := (hr.addr_pos (b := c) (by simp)).ne'
    rw [firstOr_cons, if_pos hpos, heapIsFree_of_header hr₂.mem_eq, ok_bind]
    cases hc : c.allocated with
    | true => exact ⟨heap.mem, by simp, by simpa [joinNext, hc] using hr⟩
    | false =>
      obtain ⟨mem, hm, hr'⟩ := mergeBlocks_spec hr hend hb hc
      exact ⟨mem, by simpa using hm, by simpa [joinNext, hc] using hr'⟩

theorem prevBlock_eq_zero (hr : Listed heap (b :: post)) : prevBlock heap b.addr = .ok 0 := by
  have hmem : heap.mem b.addr = b.header (firstOr post 0) :=
    (show Listed heap ([] ++ b :: post) from hr).mem_eq
  have hhead : b.addr = heap.head := hr.firstOr_eq
  rw [prevBlock, hmem, check_of _ (Block.isValidBlock_header _ _), ok_bind, if_pos hhead]
  rfl

theorem prevBlock_eq (hr : Listed heap (pre ++ c :: b :: post)) :
    prevBlock heap b.addr = .ok c.addr := by
  have hr₂ : Listed heap ((pre ++ [c]) ++ b :: post) := by simpa using hr
  have hlt : ∀ d ∈ pre ++ [c], d.addr < b.addr := by
    intro d hd
    obtain ⟨m, ht, ht'⟩ := tiles_append.mp hr₂.tiles
    have h₁ := (ht.bounds hd).2
    have h₂ := hr₂.min_size d (by simp at hd ⊢; tauto)
    have h₃ : b.addr = m := ht'.1
    unfold headerSize at h₂
    omega
  have hhead : b.addr ≠ heap.head := by
    rw [← hr.firstOr_eq]
    obtain _ | ⟨d, pre⟩ := pre
    · exact (hlt c (by simp)).ne'
    · exact (hlt d (by simp)).ne'
  have hlen : (pre ++ [c]).length ≤ walkFuel heap := by
    have := hr₂.length_lt_walkFuel
    simp only [List.length_append] at *
    omega
  rw [prevBlock, hr₂.mem_eq, check_of _ (Block.isValidBlock_header _ _), ok_bind, if_neg hhead,
    ← hr.firstOr_eq]
  exact prevBlockFrom_eq_of_linked (fun d hd => hr.addr_pos hd) (fun d hd => (hlt d hd).ne)
    hr.linked hlen

/-- `mergePrev` joins a free block with a free predecessor. -/
theorem mergePrev_spec (hr : Listed heap (pre ++ { b with allocated := false } :: post))
    (hend : heap.addr + heap.size ≤ wordMod) :
    ∃ mem pre' c, mergePrev heap b.addr = .ok ({ heap with mem := mem }, c.addr) ∧
      Listed { heap with mem := mem } (pre' ++ c :: post) ∧ c.allocated = false ∧
      release pre b post = pre' ++ joinNext c post := by
  rcases List.eq_nil_or_concat pre with rfl | ⟨pre, c, rfl⟩
  · refine ⟨heap.mem, [], { b with allocated := false }, ?_, hr, rfl, rfl⟩
    rw [mergePrev, prevBlock_eq_zero (b := { b with allocated := false }) hr]
    rfl
  · rw [List.concat_eq_append] at hr ⊢
    have hr₁ : Listed heap (pre ++ c :: { b with allocated := false } :: post) := by simpa using hr
    have hpos : c.addr ≠ 0 := (hr.addr_pos (b := c) (by simp)).ne'
    rw [mergePrev, prevBlock_eq (b := { b with allocated := false }) hr₁, ok_bind, if_pos hpos,
      heapIsFree_of_header hr₁.mem_eq, ok_bind]
    cases hc : c.allocated with
    | true =>
      exact ⟨heap.mem, pre ++ [c], { b with allocated := false }, by simp, hr, rfl,
        by simp [release, hc]⟩
    | false =>
      obtain ⟨mem, hm, hr'⟩ := mergeBlocks_spec hr₁ hend hc rfl
      exact ⟨mem, pre, { c with size := c.size + b.size }, by simp [hm], hr', hc,
        by simp [release, hc]⟩

/-- **Freeing.** An allocated block of the list is freed and joined with its free neighbours. -/
theorem heapFreeBlock_listed (hr : Listed heap (pre ++ b :: post))
    (hend : heap.addr + heap.size ≤ wordMod) (hb : b.allocated = true)
    (hlock : heap.lock = false) :
    ∃ mem, heapFreeBlock heap b.addr = .ok { heap with mem := mem } ∧
      Listed { heap with mem := mem } (release pre b post) := by
  have hmem : heap.mem b.addr = allocatedHeader b.size (firstOr post 0) := by
    rw [hr.mem_eq, Block.header_of_allocated hb]
  have hpos : b.addr ≠ 0 := (hr.addr_pos (b := b) (by simp)).ne'
  obtain ⟨mem₁, h₁, hr₁⟩ := setFree_spec (hr.lock true) hb
  obtain ⟨mem₂, pre', c, h₂, hr₂, hc, hrel⟩ := mergePrev_spec hr₁ hend
  obtain ⟨mem₃, h₃, hr₃⟩ := mergeNext_spec hr₂ hend hc
  have hmagic : magicAllocated ≠ magicFree := by decide
  have hflag : (blockAllocated &&& blockAllocated != 0) = true := by decide
  refine ⟨mem₃, ?_, hrel ▸ { hr₃ with }⟩
  simp only [heapFreeBlock, if_neg hpos, hmem, allocatedHeader, check_of _ hmagic, check_of,
    heapLock, hlock, heapIsAllocated, isValidBlock_allocated, hflag, ok_bind, pure_eq_ok]
  simp only [h₁, h₂, h₃, ok_bind, heapUnlock, check_of _ trivial, pure_eq_ok, ← hlock]

theorem heapFreeBlock_spec (hr : Repr heap (pre ++ b :: post)) (hb : b.allocated = true)
    (hlock : heap.lock = false) :
    ∃ mem, heapFreeBlock heap b.addr = .ok { heap with mem := mem } ∧
      Repr { heap with mem := mem } (release pre b post) := by
  obtain ⟨mem, hfree, hl⟩ := heapFreeBlock_listed hr.toListed hr.heap_end_le hb hlock
  exact ⟨mem, hfree, hr.of_listed rfl rfl rfl hl⟩

end Rastapopoulos.KernelHeap
