import Rastapopoulos.Heap.Invariant

/-!
# Freeing undoes allocating

An allocation that is met without growing the heap exchanges one free block for up to three. As no
neighbour of the free block was free, `heap_free_block` on the block that was handed out joins
exactly these three again (`release_carveBlocks`). So the list of blocks, with all headers, is what
it was before (`heapFreeBlock_undoes`).

The alignment is any number here. What keeps the exchange inside the free block is that the block
handed out lies there and has the room asked for.
-/

namespace Rastapopoulos.KernelHeap

variable {heap heap' : Heap} {bs pre post : List Block} {b : Block} {size alignment : ℕ}

/-! ## The block that is found -/

theorem findFit_lock (heap : Heap) (l : Bool) (size alignment n a : ℕ) :
    findFit { heap with lock := l } size alignment n a = findFit heap size alignment n a := by
  induction n generalizing a with
  | zero => rfl
  | succ n ih =>
    rw [findFit, findFit]
    simp only [ih]
    rfl

/-- What the search returns is a block of the list that has passed the tests of the loop. -/
theorem findFit_listed (hr : Listed heap (pre ++ bs)) {n h : ℕ}
    (hf : findFit heap size alignment n (firstOr bs 0) = .ok (some h)) :
    ∃ pre' b post, pre ++ bs = pre' ++ b :: post ∧ b.addr = h ∧
      accepts heap h size alignment = .ok true := by
  induction n generalizing pre bs with
  | zero => exact nomatch hf
  | succ n ih =>
    obtain _ | ⟨b, post⟩ := bs
    · exact nomatch hf
    have hpos : b.addr ≠ 0 := (hr.addr_pos (b := b) (by simp)).ne'
    rw [firstOr_cons, findFit, if_neg hpos, bind_eq_ok] at hf
    obtain ⟨accepted, hacc, hf⟩ := hf
    cases accepted with
    | true =>
      cases hf
      exact ⟨pre, b, post, rfl, rfl, hacc⟩
    | false =>
      have hnext : (heap.mem b.addr).next = firstOr post 0 := by rw [hr.mem_eq, Block.header_next]
      rw [hnext] at hf
      obtain ⟨pre', c, post', heq, hc⟩ :=
        ih (show Listed heap ((pre ++ [b]) ++ post) by simpa using hr) hf
      exact ⟨pre', c, post', by simpa using heq, hc⟩

/-- The tests of the loop. -/
theorem accepts_eq_true (hr : Listed heap (pre ++ b :: post))
    (hend : heap.addr + heap.size ≤ wordMod)
    (ha : accepts heap b.addr size alignment = .ok true) :
    b.allocated = false ∧ size + headerSize ≤ b.size ∧
      (¬ DataAligned b.addr alignment →
        2 * headerSize ≤ subW (movedData b.addr alignment) b.addr) := by
  have hpos := hr.addr_pos (b := b) (by simp)
  have hle := ((hr.tiles.bounds (x := b) (by simp)).2).trans hend
  have hmin := hr.min_size b (by simp)
  have hsub : subW b.size headerSize = b.size - headerSize := subW_of_le (by omega) hmin
  rw [accepts, heapIsFree_of_header hr.mem_eq, ok_bind, hr.mem_size (by simp), hsub] at ha
  split at ha
  · rename_i hfit
    refine ⟨by simpa using hfit.1, by have := hfit.2; omega, fun hd => ?_⟩
    rw [if_neg (by exact hd), bind_eq_ok] at ha
    obtain ⟨_, hgap, -⟩ := ha
    exact check_eq_ok.mp hgap
  · cases ha

/-- An allocation that finds a block at once carves it. -/
theorem heapAllocBlockAligned_of_findFit {pages : ℕ → Bool} {h a : ℕ}
    (hf : findFit heap (addW size canarySize) alignment (walkFuel heap) heap.head = .ok (some h))
    (halloc : heapAllocBlockAligned pages heap size alignment = .ok (heap', some a)) :
    heap.lock = false ∧ ∃ g, carve { heap with lock := true } h (addW size canarySize) alignment
      = .ok (g, a) ∧ heap' = { g with lock := false } := by
  obtain ⟨hlock, g, c, g', hchosen, hcarve, rfl⟩ := heapAllocBlockAligned_eq_some halloc
  have hloc : chosen pages heap size alignment = .ok ({ heap with lock := true }, some h) := by
    rw [chosen, locateFuel, locate, findFit_lock]
    show (findFit heap _ _ (walkFuel heap) heap.head >>= _) = _
    rw [hf]
    rfl
  cases hchosen.symm.trans hloc
  exact ⟨hlock, g', hcarve, rfl⟩

/-! ## Joining what was cut -/

theorem joinNext_of_allocated (hpost : ∀ c ∈ post.head?, c.allocated = true) (b : Block) :
    joinNext b post = b :: post := by
  obtain _ | ⟨c, post⟩ := post
  · rfl
  · rw [joinNext, if_pos (hpost c rfl)]

/-- Free bytes in front of an allocated stretch grow by the whole stretch when it is freed. -/
theorem joinNext_allocBlocks (hpost : ∀ c ∈ post.head?, c.allocated = true) (a size rest : ℕ) :
    ∃ c tail, allocBlocks a size rest = c :: tail ∧ c.addr = a ∧ c.allocated = true ∧
      ∀ (x : Block) (n : ℕ), joinNext { x with size := n + c.size } (tail ++ post) =
        { x with size := n + rest } :: post := by
  unfold allocBlocks
  split
  · refine ⟨_, _, rfl, rfl, rfl, fun x n => ?_⟩
    rw [List.singleton_append, joinNext, if_neg (by simp)]
    congr 2
    simp only
    omega
  · exact ⟨_, _, rfl, rfl, rfl, fun x n => joinNext_of_allocated hpost _⟩

/-- **Freeing what was carved.** -/
theorem release_carveBlocks (size : ℕ) (hs : Settled (pre ++ b :: post)) (hb : b.allocated = false)
    (hgap : gap b.addr alignment ≤ b.size) :
    ∃ pre' c post', pre ++ carveBlocks b size alignment ++ post = pre' ++ c :: post' ∧
      c.addr = b.addr + gap b.addr alignment ∧ c.allocated = true ∧
      release pre' c post' = pre ++ b :: post := by
  obtain ⟨-, hbpost, hlast⟩ := List.isChain_append.mp hs
  have hpost : ∀ c ∈ post.head?, c.allocated = true := fun c hc =>
    ((List.isChain_cons.mp hbpost).1 c hc).resolve_left (by simp [hb])
  have hpre : ∀ c ∈ pre.getLast?, c.allocated = true := fun c hc =>
    (hlast c hc b rfl).resolve_right (by simp [hb])
  unfold carveBlocks
  by_cases hd : DataAligned b.addr alignment
  · obtain ⟨c, tail, hc, haddr, hall, hjoin⟩ := joinNext_allocBlocks hpost b.addr size b.size
    refine ⟨pre, c, tail ++ post, by simp [if_pos hd, hc], by simp [gap, hd, haddr], hall, ?_⟩
    -- the block in front of the freed one is allocated, or there is none
    have hfreed : joinNext { c with allocated := false } (tail ++ post) = b :: post := by
      have hsame := hjoin b 0
      simp only [Nat.zero_add] at hsame
      rw [← hsame, ← haddr, ← hb]
    unfold release
    split
    · rename_i last hl
      rw [if_pos (hpre last hl), hfreed]
    · rename_i hnil
      rw [hfreed, List.getLast?_eq_none_iff.mp hnil]
      rfl
  · obtain ⟨c, tail, hc, haddr, hall, hjoin⟩ :=
      joinNext_allocBlocks hpost (b.addr + gap b.addr alignment) size
        (b.size - gap b.addr alignment)
    refine ⟨pre ++ [{ b with size := gap b.addr alignment }], c, tail ++ post,
      by simp [if_neg hd, hc], haddr, hall, ?_⟩
    have hwhole : { b with size := gap b.addr alignment + (b.size - gap b.addr alignment) } = b := by
      rw [Nat.add_sub_cancel' hgap]
    unfold release
    simp only [List.getLast?_concat, List.dropLast_concat, hb, Bool.false_eq_true, if_false]
    rw [← hb, hjoin b, hwhole]

/-! ## The round trip -/

/-- The header of a block that is handed out inside the free block `b` stands behind a gap with room
for a header. -/
theorem exists_gap_of_inside {a s : ℕ}
    (hgap : 2 * headerSize ≤ subW (movedData b.addr alignment) b.addr)
    (ha : a = subW (movedData b.addr alignment) headerSize) (hle : b.addr ≤ a)
    (hin : a + s ≤ b.addr + b.size) (hs : headerSize < s) (hend : b.addr + b.size ≤ wordMod) :
    ∃ g, movedData b.addr alignment = b.addr + g + headerSize ∧ headerSize ≤ g ∧
      g + s ≤ b.size := by
  have hlt := movedData_lt b.addr alignment
  generalize movedData b.addr alignment = d at *
  unfold subW headerSize wordMod at *
  refine ⟨d - 16 - b.addr, ?_, ?_, ?_⟩ <;> omega

/-- **Freeing undoes allocating.** If the search finds the free block `h` in the heap as it is, and
the block `a` that is returned lies in `h` and is large enough, then `heap_free_block` on it
returns, and gives back the list of blocks as it was, header by header. -/
theorem heapFreeBlock_undoes {pages : ℕ → Bool} {h a : ℕ} (hl : Listed heap bs) (hs : Settled bs)
    (hend : heap.addr + heap.size ≤ wordMod)
    (hf : findFit heap (addW size canarySize) alignment (walkFuel heap) heap.head = .ok (some h))
    (halloc : heapAllocBlockAligned pages heap size alignment = .ok (heap', some a))
    (hinside : h ≤ a ∧ a + (heap'.mem a).size ≤ h + (heap.mem h).size)
    (hlarge : headerSize + size + canarySize ≤ (heap'.mem a).size) :
    ∃ mem, heapFreeBlock heap' a = .ok { heap with mem := mem } ∧
      Listed { heap with mem := mem } bs ∧ blockAddrs { heap with mem := mem } = blockAddrs heap ∧
      ∀ c ∈ blockAddrs heap, mem c = heap.mem c := by
  obtain ⟨hlock, g, hcarve, rfl⟩ := heapAllocBlockAligned_of_findFit hf halloc
  rw [← hl.firstOr_eq] at hf
  obtain ⟨pre, b, post, hbs, rfl, hacc⟩ := findFit_listed (show Listed heap ([] ++ bs) from hl) hf
  obtain rfl : bs = pre ++ b :: post := hbs
  obtain ⟨hfree, hsize, hgap⟩ := accepts_eq_true hl hend hacc
  have hle := ((hl.tiles.bounds (x := b) (by simp)).2).trans hend
  rw [hl.mem_size (by simp)] at hinside
  obtain ⟨hlow, hhigh⟩ := hinside
  simp only at hhigh hlarge
  have hcanary : addW size canarySize = size + canarySize :=
    addW_of_lt (by unfold headerSize at hlarge; omega)
  have hmoved : ¬ DataAligned b.addr alignment → ∃ g',
      movedData b.addr alignment = b.addr + g' + headerSize ∧ headerSize ≤ g' ∧
        g' + (g.mem a).size ≤ b.size := fun hd => by
    rw [carve, if_neg (by exact hd)] at hcarve
    exact exists_gap_of_inside (hgap hd) (carveMoved_snd hcarve) hlow hhigh
      (by unfold canarySize at hlarge; omega) hle
  have hpos := hl.addr_pos (b := b) (by simp)
  obtain ⟨mem₁, hcarve', hl₁⟩ := carve_listed (hl.lock true) hend hfree hsize fun hd => by
    obtain ⟨g', hmv, hg₀, hg⟩ := hmoved hd
    exact ⟨by omega, g', hmv, hg₀, by omega⟩
  cases hcarve.symm.trans hcarve'
  have hroom : gap b.addr alignment ≤ b.size := by
    omega
  obtain ⟨pre', c, post', hblocks, haddr, hall, hrel⟩ :=
    release_carveBlocks (addW size canarySize) hs hfree hroom
  rw [hblocks] at hl₁
  obtain ⟨mem, hfreed, hl₂⟩ := heapFreeBlock_listed (hl₁.lock false) hend hall rfl
  rw [hrel] at hl₂
  have hl₃ : Listed { heap with mem := mem } (pre ++ b :: post) := { hl₂ with }
  refine ⟨mem, ?_, hl₃, hl₃.blockAddrs_eq.trans hl.blockAddrs_eq.symm, fun d hd => ?_⟩
  · rw [← haddr, hfreed, hlock]
  · rw [hl.blockAddrs_eq] at hd
    obtain ⟨x, hx, rfl⟩ := List.mem_map.mp hd
    obtain ⟨front, back, heq⟩ := List.append_of_mem hx
    rw [heq] at hl hl₃
    rw [hl.mem_eq, ← hl₃.mem_eq]

/-- A page-aligned block of 100 bytes on the heap of `kmalloc_init`: the one free block is cut in
three, and put together again. -/
theorem heapFreeBlock_undoes_boot : ∃ heap heap' mem, bootHeap = .ok heap ∧
    heapAllocBlockAligned (fun _ => false) heap 100 pageSize = .ok (heap', some 0xC0200FF0) ∧
    blockAddrs heap' = [0xC0200010, 0xC0200FF0, 0xC020106C] ∧
    heapFreeBlock heap' 0xC0200FF0 = .ok { heap with mem := mem } ∧
    blockAddrs { heap with mem := mem } = [0xC0200010] := by
  have hrun : (do
      let heap ← bootHeap
      let found ← findFit heap (addW 100 canarySize) pageSize (walkFuel heap) heap.head
      let result ← heapAllocBlockAligned (fun _ => false) heap 100 pageSize
      return ([found, result.2], [blockAddrs heap, blockAddrs result.1,
        [heap.addr + heap.size, (heap.mem 0xC0200010).size, (result.1.mem 0xC0200FF0).size]]) :
        Except Fault (List (Option ℕ) × List (List ℕ))) =
      .ok ([some 0xC0200010, some 0xC0200FF0], [[0xC0200010],
        [0xC0200010, 0xC0200FF0, 0xC020106C], [0xC0240000, 0x3FFF0, 124]]) := by
    decide +kernel
  simp only [bind_eq_ok, pure_inj, Prod.exists, Prod.mk.injEq, List.cons.injEq,
    and_true] at hrun
  obtain ⟨heap, h₀, found, hf, heap', a, halloc, ⟨rfl, rfl⟩, haddrs, haddrs', hend, hsize, hsize'⟩ :=
    hrun
  obtain ⟨hr, -⟩ := heapInit_spec bootHeap_placed (bootHeap_eq ▸ h₀)
  obtain ⟨mem, hfree, -, hback, -⟩ := heapFreeBlock_undoes hr.toListed (.singleton _)
    (by rw [hend]; decide) hf halloc (by rw [hsize, hsize']; decide) (by rw [hsize']; decide)
  exact ⟨heap, heap', mem, h₀, halloc, haddrs', hfree, hback.trans haddrs⟩

end Rastapopoulos.KernelHeap
