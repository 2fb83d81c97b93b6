import Rastapopoulos.Heap.Free

/-!
# What an allocated block holds

A run of the heap is a sequence of `heap_alloc_aligned` and `heap_free` calls. The question is
whether the block that an allocation returns is large enough: inside the free block it is carved
from, aligned, with room for its header, the requested bytes and the canary, and apart from every
other header (`Holds`).

When the data start of the chosen block is moved, the source compares the size of the whole block
with two headers and the request, and does not subtract the bytes skipped in front of the moved
header. So the answer is not always yes. `heapAllocBlockAligned_holds_iff` gives the exact
condition, `Roomy`: the chosen block is aligned where it stands, or reaches behind the end of the
request counted from the moved data start, and the request with its canary is below `2 ^ 32`.
-/

namespace Rastapopoulos.KernelHeap

variable {heap heap' : Heap} {bs : List Block} {pages : ℕ → Bool} {size alignment b : ℕ}

/-! ## Runs -/

/-- A call made by the rest of the kernel. `pages` is the pattern of answers to the page requests
of the allocation. -/
inductive Op
  | alloc (pages : ℕ → Bool) (size alignment : ℕ)
  | free (ptr : ℕ)

/-- The effect of a call on the heap. -/
def step (heap : Heap) : Op → Except Fault Heap
  | .alloc pages size alignment => do
    let (heap, _) ← heapAllocAligned pages heap size alignment
    return heap
  | .free ptr => heapFree heap ptr

/-- The search of an allocation: the heap it ends in, and the block it has chosen. -/
def chosen (pages : ℕ → Bool) (heap : Heap) (size alignment : ℕ) :
    Except Fault (Heap × Option ℕ) :=
  locate pages (addW size canarySize) alignment (locateFuel heap) { heap with lock := true } 0

/-- The alignments that callers ask for: `sizeof(uint64_t)` in `kmalloc`, `PAGE_SIZE` for page
tables and transient mappings. -/
def CallerAlignment (alignment : ℕ) : Prop := alignment = 8 ∨ alignment = pageSize

/-- The chosen block has room for the request: the size does not wrap when the canary is added,
and the block is aligned where it stands or reaches behind the request's end. -/
def Roomy (pages : ℕ → Bool) (heap : Heap) (size alignment : ℕ) : Prop :=
  size + canarySize < wordMod ∧
    ∀ g h, chosen pages heap size alignment = .ok (g, some h) →
      DataAligned h alignment ∨
        movedData h alignment + size + canarySize ≤ h + (g.mem h).size

/-- The calls of a run: sizes from one up, the callers' alignments, a free of a block of the list.
-/
def Allowed (heap : Heap) : Op → Prop
  | .alloc _ size alignment => 1 ≤ size ∧ size < wordMod ∧ CallerAlignment alignment
  | .free ptr => subW ptr headerSize ∈ blockAddrs heap

/-- The calls of a run in which every allocation is roomy. -/
def AllowedRoomy (heap : Heap) : Op → Prop
  | .alloc pages size alignment =>
    Allowed heap (.alloc pages size alignment) ∧ Roomy pages heap size alignment
  | .free ptr => Allowed heap (.free ptr)

/-- The region given to `heap_init`: a page or more, and five pages below the end of the address
space also when the heap has grown to its limit. -/
structure Placed (address size maxSize : ℕ) : Prop where
  page_le : pageSize ≤ size
  fits : address + size + 4 * pageSize ≤ wordMod
  max_fits : address + maxSize + 5 * pageSize ≤ wordMod

/-! ## The property -/

/-- The stretches `[a, a + n)` and `[b, b + m)` have no byte in common. -/
def Apart (a n b m : ℕ) : Prop := a + n ≤ b ∨ b + m ≤ a

/-- The block `b` returned in `heap'` for a request of `size` bytes, seen from the heap before:
aligned, inside the free block `h` it was carved from, large enough, and such that its bytes, its
canary and all headers are pairwise disjoint. -/
structure Holds (pages : ℕ → Bool) (heap : Heap) (size alignment : ℕ) (heap' : Heap) (b : ℕ) :
    Prop where
  aligned : alignment ∣ b + headerSize
  inside : ∃ g h, chosen pages heap size alignment = .ok (g, some h) ∧ h ∈ blockAddrs g ∧
    heapIsFree g h = .ok true ∧ h ≤ b ∧ b + (heap'.mem b).size ≤ h + (g.mem h).size
  large : headerSize + size + canarySize ≤ (heap'.mem b).size
  bytes_canary : Apart (b + headerSize) size (b + (heap'.mem b).size - canarySize) canarySize
  header_bytes : ∀ c ∈ blockAddrs heap', Apart c headerSize (b + headerSize) size
  header_canary : ∀ c ∈ blockAddrs heap',
    Apart c headerSize (b + (heap'.mem b).size - canarySize) canarySize
  header_header : ∀ c ∈ blockAddrs heap', ∀ d ∈ blockAddrs heap', c ≠ d →
    Apart c headerSize d headerSize

/-! ## One allocation -/

theorem CallerAlignment.two_pow (h : CallerAlignment alignment) :
    ∃ k ≤ 12, alignment = 2 ^ k := by
  rcases h with rfl | rfl
  · exact ⟨3, by decide, rfl⟩
  · exact ⟨12, by decide, rfl⟩

/-- `heap_init` makes a heap of one free block. -/
theorem heapInit_spec {mem : ℕ → BlockHeader} {address maxSize : ℕ}
    (hp : Placed address size maxSize) (h : heapInit mem address size maxSize = .ok heap) :
    Repr heap [⟨address + heapStructSize, size - heapStructSize, false⟩] ∧ heap.lock = false := by
  simp only [heapInit, bind_eq_ok, check_eq_ok] at h
  obtain ⟨-, ha, -, hs, h⟩ := h
  have h₁ := hp.page_le
  have h₂ := hp.fits
  have hhead : addW address heapStructSize = address + heapStructSize :=
    addW_of_lt (by unfold heapStructSize pageSize at *; omega)
  have hsize : subW size heapStructSize = size - heapStructSize :=
    subW_of_le (by unfold pageSize at *; omega) (by unfold heapStructSize pageSize at *; omega)
  rw [hhead, hsize] at h
  cases h
  refine ⟨?_, rfl⟩
  refine
    { head_eq := rfl
      ne_nil := by simp
      linked := ⟨?_, trivial⟩
      tiles := ⟨rfl, ?_⟩
      min_size := ?_
      addr_page := ha
      size_page := hs
      fits := h₂
      max_fits := hp.max_fits }
  · simp [createBlock, Block.header]
  · simp only [createBlock, Heap.set, tiles_nil]
    unfold heapStructSize pageSize at *
    omega
  · simp only [List.mem_singleton, forall_eq]
    unfold heapStructSize headerSize pageSize at *
    omega

/-- What a successful allocation has done. -/
theorem heapAllocBlockAligned_eq_some
    (h : heapAllocBlockAligned pages heap size alignment = .ok (heap', some b)) :
    heap.lock = false ∧ ∃ g c g', chosen pages heap size alignment = .ok (g, some c) ∧
      carve g c (addW size canarySize) alignment = .ok (g', b) ∧
      heap' = { g' with lock := false } := by
  simp only [heapAllocBlockAligned, heapLock, bind_eq_ok, check_eq_ok, pure_eq_ok,
    Except.ok.injEq] at h
  obtain ⟨_, ⟨_, hlock, rfl⟩, ⟨g, found⟩, hloc, h⟩ := h
  obtain _ | c := found
  · simp [bind_eq_ok] at h
  · simp only [heapUnlock, bind_eq_ok, check_eq_ok, pure_eq_ok, Prod.exists, Except.ok.injEq,
      Prod.mk.injEq, Option.some.injEq] at h
    obtain ⟨g', b', hcarve, _, ⟨_, -, rfl⟩, rfl, rfl⟩ := h
    exact ⟨hlock, g, c, g', hloc, hcarve, rfl⟩

variable {g : Heap} {h : ℕ}

/-- An allocation that chooses no block. -/
theorem heapAllocBlockAligned_of_none (hlock : heap.lock = false)
    (hc : chosen pages heap size alignment = .ok (g, none)) (hg : g.lock = true) :
    heapAllocBlockAligned pages heap size alignment = .ok ({ g with lock := false }, none) := by
  rw [heapAllocBlockAligned, heapLock, check_of _ hlock]
  change (chosen pages heap size alignment >>= _) = _
  rw [hc]
  simp only [heapUnlock, check_of _ hg, ok_bind, pure_eq_ok]

/-- An allocation that chooses a block. -/
theorem heapAllocBlockAligned_of_some {g' : Heap} (hlock : heap.lock = false)
    (hc : chosen pages heap size alignment = .ok (g, some h))
    (hcarve : carve g h (addW size canarySize) alignment = .ok (g', b)) (hg : g'.lock = true) :
    heapAllocBlockAligned pages heap size alignment = .ok ({ g' with lock := false }, some b) := by
  rw [heapAllocBlockAligned, heapLock, check_of _ hlock]
  change (chosen pages heap size alignment >>= _) = _
  rw [hc, ok_bind]
  simp only [hcarve, heapUnlock, check_of _ hg, ok_bind, pure_eq_ok]

/-- The search of an allocation ends, with the first accepted block or with none. -/
theorem chosen_located (pages : ℕ → Bool) (size : ℕ) {k : ℕ} (hr : Repr heap bs) (hk : k ≤ 12)
    (hal : alignment = 2 ^ k) :
    ∃ g bs', chosen pages heap size alignment
        = .ok (g, (bs'.find? (Block.accepted (addW size canarySize) alignment)).map Block.addr) ∧
      Located { heap with lock := true } bs g bs' ∧ (Settled bs → Settled bs') :=
  locate_spec (n := heap.maxSize / pageSize + 1) pages (addW size canarySize) hk hal 0
    (hr.lock true) (by simp only; unfold pageSize; omega)

/-- The chosen block is a block of the list, free, and passes the tests of the search. -/
theorem chosen_spec (hr : Repr heap bs) (hal : CallerAlignment alignment)
    (hc : chosen pages heap size alignment = .ok (g, some h)) :
    ∃ pre c post, Repr g (pre ++ c :: post) ∧ c.addr = h ∧ g.lock = true ∧
      c.accepted (addW size canarySize) alignment = true ∧
      ∀ b ∈ bs, b.allocated = true → b ∈ pre ++ c :: post := by
  obtain ⟨k, hk, hal⟩ := hal.two_pow
  obtain ⟨g', bs', hloc, hg, -⟩ := chosen_located pages size hr hk hal
  have heq := hc.symm.trans hloc
  simp only [Except.ok.injEq, Prod.mk.injEq] at heq
  obtain ⟨rfl, hfind⟩ := heq
  obtain ⟨c, hfind, hch⟩ := Option.map_eq_some_iff.mp hfind.symm
  obtain ⟨hacc, pre, post, rfl, -⟩ := List.find?_eq_some_iff_append.mp hfind
  exact ⟨pre, c, post, hg.repr, hch, hg.lock_eq, hacc, hg.allocated_mem⟩

theorem Roomy.gap_le (hr : Roomy pages heap size alignment)
    (hc : chosen pages heap size alignment = .ok (g, some h)) {s : ℕ}
    (hs : (g.mem h).size = s) (hsize : size + canarySize + headerSize ≤ s) :
    gap h alignment + (size + canarySize + headerSize) ≤ s := by
  unfold gap
  split
  · omega
  · rcases hr.2 g h hc with hd | hle
    · contradiction
    · omega

theorem dvd_add_gap {k : ℕ} (hk : k ≤ 12) (hh : h + 3 * pageSize ≤ wordMod) :
    2 ^ k ∣ h + gap h (2 ^ k) + headerSize := by
  unfold gap
  split
  · rename_i hd
    obtain ⟨d, hd', -, -, hdvd⟩ := alignedData_spec (h := h) hk (by omega)
    have hW : addW h headerSize = h + headerSize :=
      addW_of_lt (by unfold headerSize pageSize at *; omega)
    rw [DataAligned, hd', hW] at hd
    rwa [hd] at hdvd
  · obtain ⟨g, hmv, -, -, hdvd⟩ := movedData_spec (h := h) hk hh
    rwa [hmv, show h + (h + g + headerSize - headerSize - h) = h + g by omega]

/-- **A roomy allocation**: the block it returns is in the list of the heap it leaves, aligned, at
least as large as asked for, and inside the block it was carved from; the list is as before except
for the chosen block. -/
theorem heapAllocBlockAligned_of_roomy (hr : Repr heap bs) (hal : CallerAlignment alignment)
    (hroomy : Roomy pages heap size alignment)
    (h : heapAllocBlockAligned pages heap size alignment = .ok (heap', some b)) :
    ∃ g pre c post s, chosen pages heap size alignment = .ok (g, some c.addr) ∧
      Repr g (pre ++ c :: post) ∧ c.allocated = false ∧
      Repr heap' (pre ++ carveBlocks c (size + canarySize) alignment ++ post) ∧
      heap'.lock = false ∧ alignment ∣ b + headerSize ∧
      ⟨b, s, true⟩ ∈ carveBlocks c (size + canarySize) alignment ∧
      headerSize + size + canarySize ≤ s ∧ c.addr ≤ b ∧ b + s ≤ c.addr + c.size := by
  obtain ⟨hlock, g, h, g', hch, hcarve, rfl⟩ := heapAllocBlockAligned_eq_some h
  obtain ⟨pre, c, post, hg, rfl, hglock, hacc, -⟩ := chosen_spec hr hal hch
  obtain ⟨k, hk, rfl⟩ := hal.two_pow
  rw [addW_of_lt hroomy.1] at hacc hcarve
  obtain ⟨hfree, hsize, -⟩ := Block.accepted_iff.mp hacc
  have hgap := hroomy.gap_le hch (hg.mem_size (b := c) (by simp)) hsize
  obtain ⟨mem, hcarve', hg'⟩ := carve_spec hg hfree hk rfl hsize (by omega)
  rw [hcarve'] at hcarve
  obtain ⟨rfl, rfl⟩ := hcarve
  have hend := hg.end_le (b := c) (by simp)
  have hmem : ∃ s, ⟨c.addr + gap c.addr (2 ^ k), s, true⟩
      ∈ carveBlocks c (size + canarySize) (2 ^ k) ∧
      size + canarySize + headerSize ≤ s ∧ s ≤ c.size - gap c.addr (2 ^ k) := by
    obtain ⟨s, hs, hs₁, hs₂⟩ := exists_mem_allocBlocks (a := c.addr + gap c.addr (2 ^ k))
      (show size + canarySize + headerSize ≤ c.size - gap c.addr (2 ^ k) by omega)
    refine ⟨s, ?_, hs₁, hs₂⟩
    unfold carveBlocks
    split
    · rename_i hd
      rw [gap, if_pos hd] at hs ⊢
      simpa using hs
    · exact .tail _ hs
  obtain ⟨s, hs, hs₁, hs₂⟩ := hmem
  exact ⟨g, pre, c, post, s, hch, hg, hfree, { hg' with }, rfl, dvd_add_gap hk (by omega), hs,
    by omega, by omega, by omega⟩

/-- Listed blocks have disjoint headers, and no header lies in another block. -/
theorem Repr.header_apart (hr : Repr heap bs) {c d : Block} (hc : c ∈ bs) (hd : d ∈ bs)
    (hne : c ≠ d) : c.addr + headerSize ≤ d.addr ∨ d.addr + d.size ≤ c.addr := by
  have := hr.min_size c hc
  have := hr.tiles.disjoint hc hd hne
  omega

theorem Roomy.holds (hr : Repr heap bs) (hal : CallerAlignment alignment)
    (hroomy : Roomy pages heap size alignment)
    (h : heapAllocBlockAligned pages heap size alignment = .ok (heap', some b)) :
    Holds pages heap size alignment heap' b := by
  obtain ⟨g, pre, c, post, s, hch, hg, hfree, hr', -, hdvd, hs, hlarge, hlo, hhi⟩ :=
    heapAllocBlockAligned_of_roomy hr hal hroomy h
  have hmem : ⟨b, s, true⟩ ∈ pre ++ carveBlocks c (size + canarySize) alignment ++ post := by
    simp [hs]
  have hsz : (heap'.mem b).size = s := hr'.mem_size hmem
  -- a header of the list is the block's own or lies outside the block
  have hother : ∀ x ∈ blockAddrs heap', x = b ∨ x + headerSize ≤ b ∨ b + s ≤ x := by
    intro x hx
    rw [hr'.blockAddrs_eq] at hx
    obtain ⟨d, hd, rfl⟩ := List.mem_map.mp hx
    by_cases hne : d = ⟨b, s, true⟩
    · exact .inl (by rw [hne])
    · exact .inr (hr'.header_apart hd hmem hne)
  refine
    { aligned := hdvd
      inside := ⟨g, c.addr, hch, ?_, ?_, hlo, ?_⟩
      large := by rwa [hsz]
      bytes_canary := ?_
      header_bytes := fun x hx => ?_
      header_canary := fun x hx => ?_
      header_header := ?_ }
  · rw [hg.blockAddrs_eq]
    simp
  · rw [heapIsFree_of_header hg.mem_eq, hfree]
    rfl
  · rwa [hsz, hg.mem_size (b := c) (by simp)]
  · rw [Apart]
    omega
  · have := hother x hx
    rw [Apart]
    omega
  · have := hother x hx
    rw [Apart]
    omega
  · intro x hx y hy hne
    rw [hr'.blockAddrs_eq] at hx hy
    obtain ⟨d, hd, rfl⟩ := List.mem_map.mp hx
    obtain ⟨e, he, rfl⟩ := List.mem_map.mp hy
    have hde : d ≠ e := fun heq => hne (heq ▸ rfl)
    have h₁ := hr'.header_apart hd he hde
    have h₂ := hr'.min_size e he
    rw [Apart]
    omega

theorem carveMoved_snd {g' : Heap} (hc : carveMoved g h size alignment = .ok (g', b)) :
    b = subW (movedData h alignment) headerSize := by
  simp only [carveMoved, bind_eq_ok] at hc
  obtain ⟨_, -, _, -, _, -, _, -, -, rfl⟩ := hc
  rfl

/-- A block that holds its request was carved from a roomy one: the converse. -/
theorem Holds.roomy (hr : Repr heap bs) (hal : CallerAlignment alignment)
    (h : heapAllocBlockAligned pages heap size alignment = .ok (heap', some b))
    (hh : Holds pages heap size alignment heap' b) : Roomy pages heap size alignment := by
  obtain ⟨-, g, h, g', hch, hcarve, -⟩ := heapAllocBlockAligned_eq_some h
  obtain ⟨g₁, h₁, hch₁, -, -, hlo, hhi⟩ := hh.inside
  have heq := hch.symm.trans hch₁
  obtain ⟨rfl, rfl⟩ := heq
  obtain ⟨pre, c, post, hg, rfl, -, -, -⟩ := chosen_spec hr hal hch
  have hend := hg.end_le (b := c) (by simp)
  have hsz := hg.mem_size (b := c) (by simp)
  have hlarge := hh.large
  refine ⟨by unfold pageSize at hend; omega, fun g₂ h₂ hch₂ => ?_⟩
  have heq := hch.symm.trans hch₂
  obtain ⟨rfl, rfl⟩ := heq
  by_cases hd : DataAligned c.addr alignment
  · exact .inl hd
  · obtain ⟨k, hk, rfl⟩ := hal.two_pow
    rw [carve, if_neg (by exact hd)] at hcarve
    obtain ⟨x, hmv, -, hx, -⟩ := movedData_spec (h := c.addr) hk (by omega)
    have hb : b = c.addr + x := by
      rw [carveMoved_snd hcarve, hmv, subW_of_le (by unfold headerSize pageSize at *; omega)
        (by omega)]
      omega
    omega

/-! ## Whole runs -/

/-- What every heap in a run of roomy allocations satisfies. -/
def WellFormed (heap : Heap) : Prop := (∃ bs, Repr heap bs) ∧ heap.lock = false

theorem step_alloc_eq_ok (h : step heap (.alloc pages size alignment) = .ok heap') :
    ∃ b, heapAllocBlockAligned pages heap size alignment = .ok (heap', some b) := by
  simp only [step, heapAllocAligned, bind_eq_ok] at h
  obtain ⟨⟨g, ptr⟩, ⟨⟨g', found⟩, halloc, hmatch⟩, h⟩ := h
  obtain _ | c := found
  · simp at hmatch
  · simp only [bind_eq_ok, pure_inj] at hmatch h
    obtain ⟨_, -, rfl, -⟩ := hmatch
    exact ⟨c, h ▸ halloc⟩

theorem WellFormed.step_alloc (hw : WellFormed heap) (hal : CallerAlignment alignment)
    (hroomy : Roomy pages heap size alignment)
    (h : step heap (.alloc pages size alignment) = .ok heap') : WellFormed heap' := by
  obtain ⟨⟨bs, hr⟩, -⟩ := hw
  obtain ⟨b, halloc⟩ := step_alloc_eq_ok h
  obtain ⟨g, pre, c, post, s, -, -, -, hr', hlock, -⟩ :=
    heapAllocBlockAligned_of_roomy hr hal hroomy halloc
  exact ⟨⟨_, hr'⟩, hlock⟩

theorem WellFormed.step_free (hw : WellFormed heap) {ptr : ℕ}
    (hptr : subW ptr headerSize ∈ blockAddrs heap) (h : step heap (.free ptr) = .ok heap') :
    WellFormed heap' := by
  obtain ⟨⟨bs, hr⟩, hlock⟩ := hw
  rw [hr.blockAddrs_eq] at hptr
  obtain ⟨c, hc, haddr⟩ := List.mem_map.mp hptr
  obtain ⟨pre, post, rfl⟩ := List.append_of_mem hc
  rw [step, heapFree, ← haddr] at h
  cases hall : c.allocated with
  | true =>
    obtain ⟨mem, hfree, hr'⟩ := heapFreeBlock_spec hr hall hlock
    rw [hfree] at h
    cases h
    exact ⟨⟨_, hr'⟩, hlock⟩
  | false =>
    -- a free block of the list is caught as a double free
    have hpos : c.addr ≠ 0 := (hr.addr_pos hc).ne'
    have hmagic : (heap.mem c.addr).magic = magicFree := by
      rw [hr.mem_eq, Block.header_of_free hall]
      rfl
    rw [heapFreeBlock, if_neg hpos, check_of_not _ (by simp [hmagic])] at h
    cases h

theorem wellFormed_of_reach {mem : ℕ → BlockHeader} {address size₀ maxSize : ℕ} {heap₀ : Heap}
    (hp : Placed address size₀ maxSize) (h₀ : heapInit mem address size₀ maxSize = .ok heap₀)
    (hrun : Reach step AllowedRoomy heap₀ heap) : WellFormed heap := by
  refine hrun.invariant ?_ ?_
  · obtain ⟨hr, hlock⟩ := heapInit_spec hp h₀
    exact ⟨⟨_, hr⟩, hlock⟩
  · rintro heap (⟨pages, size, alignment⟩ | ptr) heap' hw hq hs
    · exact hw.step_alloc hq.1.2.2 hq.2 hs
    · exact hw.step_free hq hs

/-- **Capacity, exactly.** In every run from `heap_init` whose allocations are roomy, and for
every further allocation that succeeds: the returned block holds its request if and only if the
allocation is roomy. -/
theorem heapAllocBlockAligned_holds_iff {mem : ℕ → BlockHeader} {address size₀ maxSize : ℕ}
    {heap₀ : Heap} (hp : Placed address size₀ maxSize)
    (h₀ : heapInit mem address size₀ maxSize = .ok heap₀)
    (hrun : Reach step AllowedRoomy heap₀ heap) (hal : CallerAlignment alignment)
    (h : heapAllocBlockAligned pages heap size alignment = .ok (heap', some b)) :
    Holds pages heap size alignment heap' b ↔ Roomy pages heap size alignment := by
  obtain ⟨⟨bs, hr⟩, -⟩ := wellFormed_of_reach hp h₀ hrun
  exact ⟨fun hh => hh.roomy hr hal h, fun hroomy => hroomy.holds hr hal h⟩

/-- The heap that `kmalloc_init` makes when the kernel ends at `0xC0200000`. -/
def bootHeap : Except Fault Heap := kmallocInit (fun _ => ⟨0, 0, 0, 0⟩) 0xC0200000

theorem bootHeap_eq :
    bootHeap = heapInit (fun _ => ⟨0, 0, 0, 0⟩) 0xC0200000 (pageSize * 64) 0x200000 := by
  have h₁ : alignUp 0xC0200000 pageSize = 0xC0200000 := by decide
  have h₂ : subW 0xC0400000 0xC0200000 = 0x200000 := by decide
  rw [bootHeap, kmallocInit, h₁, h₂]

theorem bootHeap_placed : Placed 0xC0200000 (pageSize * 64) 0x200000 :=
  ⟨by decide, by decide, by decide⟩

/-- The first allocation of a fresh heap is roomy, and its block holds the request. -/
theorem heapAllocBlockAligned_holds_boot : ∃ heap heap' b, bootHeap = .ok heap ∧
    heapAllocBlockAligned (fun _ => true) heap 100 8 = .ok (heap', some b) ∧
    Roomy (fun _ => true) heap 100 8 ∧ Holds (fun _ => true) heap 100 8 heap' b := by
  have hrun : (do
      let heap ← bootHeap
      let block ← chosen (fun _ => true) heap 100 8
      let result ← heapAllocBlockAligned (fun _ => true) heap 100 8
      return (block.2, result.2) : Except Fault (Option ℕ × Option ℕ))
      = .ok (some 0xC0200010, some 0xC0200010) := by decide +kernel
  simp only [bind_eq_ok, Prod.exists, pure_inj, Prod.mk.injEq] at hrun
  obtain ⟨heap, h₀, g, h, hch, heap', b, halloc, rfl, rfl⟩ := hrun
  have hroomy : Roomy (fun _ => true) heap 100 8 := by
    refine ⟨by decide, fun g' h' hch' => .inl ?_⟩
    rw [hch] at hch'
    simp only [Except.ok.injEq, Prod.mk.injEq, Option.some.injEq] at hch'
    rw [← hch'.2]
    decide +kernel
  exact ⟨heap, heap', _, h₀, halloc, hroomy,
    (heapAllocBlockAligned_holds_iff bootHeap_placed (bootHeap_eq ▸ h₀) .refl (.inl rfl)
      halloc).mpr hroomy⟩

/-- The returned block can be too small. One allocation leaves 47 bytes at the end of a fresh heap,
at an address that is 1 modulo 8. A request for a single byte takes them: the data start is moved by
23 bytes, and the 24 that are left do not hold a header, one byte and the canary. -/
theorem heapAllocBlockAligned_not_holds : ¬ ∀ (mem : ℕ → BlockHeader)
    (address size₀ maxSize : ℕ) (heap₀ heap heap' : Heap) (pages : ℕ → Bool)
    (size alignment b : ℕ), Placed address size₀ maxSize →
    heapInit mem address size₀ maxSize = .ok heap₀ → Reach step Allowed heap₀ heap →
    1 ≤ size → size < wordMod → CallerAlignment alignment →
    heapAllocBlockAligned pages heap size alignment = .ok (heap', some b) →
    Holds pages heap size alignment heap' b := by
  intro hall
  have hrun : (do
      let heap₀ ← bootHeap
      let heap ← step heap₀ (.alloc (fun _ => true) 262057 8)
      let result ← heapAllocBlockAligned (fun _ => true) heap 1 8
      return (result.2, (result.1.mem 0xC023FFE8).size) : Except Fault (Option ℕ × ℕ))
      = .ok (some 0xC023FFE8, 24) := by decide +kernel
  simp only [bind_eq_ok, Prod.exists, pure_inj, Prod.mk.injEq] at hrun
  obtain ⟨heap₀, h₀, heap, hstep, heap', b, halloc, rfl, hsize⟩ := hrun
  have hallowed : Allowed heap₀ (.alloc (fun _ => true) 262057 8) :=
    ⟨by decide, by decide, .inl rfl⟩
  have hreach : Reach step Allowed heap₀ heap := .tail .refl hallowed hstep
  have hlarge := (hall _ _ _ _ heap₀ heap heap' _ 1 8 _ bootHeap_placed (bootHeap_eq ▸ h₀) hreach
    le_rfl (by decide) (.inl rfl) halloc).large
  rw [hsize] at hlarge
  exact absurd hlarge (by decide)

end Rastapopoulos.KernelHeap
