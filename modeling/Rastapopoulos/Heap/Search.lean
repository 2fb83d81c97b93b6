import Rastapopoulos.Heap.Carve

/-!
# Searching and growing

The search loop of `heap_alloc_block_aligned` finds the first block of the list that is free and
large enough for its tests (`findFit_eq`), `heap_grow` adds pages to the last block or behind it
(`heapGrow_spec`), and the outer loop ends with the first hit in a heap that has grown zero or more
times, or with none (`locate_spec`). None of this reaches a fault on a represented heap.
-/

namespace Rastapopoulos.KernelHeap

variable {heap : Heap} {bs pre post : List Block} {b last : Block} {size alignment k : ℕ}

/-! ## The search -/

/-- The tests of the search loop, on a block. -/
def Block.accepted (size alignment : ℕ) (b : Block) : Bool :=
  !b.allocated && decide (size + headerSize ≤ b.size) &&
    (decide (DataAligned b.addr alignment) || decide (size + 2 * headerSize < b.size))

theorem Block.accepted_iff :
    b.accepted size alignment = true ↔ b.allocated = false ∧ size + headerSize ≤ b.size ∧
      (DataAligned b.addr alignment ∨ size + 2 * headerSize < b.size) := by
  simp [accepted, and_assoc]

theorem accepts_eq (hr : Repr heap (pre ++ b :: post)) (hk : k ≤ 12) (hal : alignment = 2 ^ k) :
    accepts heap b.addr size alignment = .ok (b.accepted size alignment) := by
  have hmem := hr.mem_eq
  have hmin := hr.min_size b (by simp)
  have hend := hr.end_le (b := b) (by simp)
  have hsz : (heap.mem b.addr).size = b.size := hr.mem_size (by simp)
  unfold pageSize at hend
  have hsub : subW b.size headerSize = b.size - headerSize := subW_of_le (by omega) hmin
  rw [accepts, heapIsFree_of_header hmem, ok_bind, hsz, hsub, Block.accepted]
  by_cases hfit : b.allocated = false ∧ size + headerSize ≤ b.size
  · obtain ⟨hb, hle⟩ := hfit
    rw [if_pos ⟨by simp [hb], by omega⟩]
    by_cases hd : DataAligned b.addr alignment
    · have hadd : addW headerSize size ≤ b.size := by
        rw [addW_of_lt (by omega)]
        omega
      rw [if_pos (by exact hd)]
      simp [hb, hle, hd, hadd]
    · obtain ⟨g, hmv, hg₀, hgle, -⟩ := movedData_spec (h := b.addr) hk (by unfold pageSize; omega)
      rw [← hal] at hmv
      have hgap : 2 * headerSize ≤ subW (movedData b.addr alignment) b.addr := by
        rw [hmv, subW_of_le (by unfold headerSize pageSize at *; omega) (by omega)]
        omega
      have hadd : addW (2 * headerSize) size = size + 2 * headerSize := by
        rw [addW_of_lt (by unfold headerSize at *; omega), Nat.add_comm]
      rw [if_neg (by exact hd), check_of _ hgap, hadd]
      simp [hb, hle, hd]
  · rw [if_neg fun h => hfit ⟨by simpa using h.1, by have := h.2; omega⟩]
    simp only [not_and] at hfit
    cases hb : b.allocated with
    | true => simp
    | false => simp [hfit hb]

variable {n : ℕ}

/-- **The search loop returns the first accepted block.** -/
theorem findFit_eq (size : ℕ) (hr : Repr heap (pre ++ bs)) (hk : k ≤ 12) (hal : alignment = 2 ^ k)
    (hn : bs.length < n) :
    findFit heap size alignment n (firstOr bs 0)
      = .ok ((bs.find? (Block.accepted size alignment)).map Block.addr) := by
  induction bs generalizing pre n with
  | nil =>
    obtain ⟨n, rfl⟩ := Nat.exists_eq_add_of_lt hn
    simp [findFit]
  | cons b bs ih =>
    obtain ⟨n, rfl⟩ : ∃ m, n = m + 1 := ⟨n - 1, by rw [List.length_cons] at hn; omega⟩
    have hb : b.addr ≠ 0 := (hr.addr_pos (b := b) (by simp)).ne'
    have hnext : (heap.mem b.addr).next = firstOr bs 0 := by rw [hr.mem_eq, Block.header_next]
    rw [firstOr_cons, findFit, if_neg hb, accepts_eq hr hk hal, ok_bind, hnext,
      ih (show Repr heap ((pre ++ [b]) ++ bs) by simpa using hr) (by rw [List.length_cons] at hn; omega)]
    cases hacc : b.accepted size alignment <;> simp [hacc]

/-! ## Growth -/

/-- The page loop adds whole pages, none once the heap has reached its limit. -/
theorem growLoop_spec (pages : ℕ → Bool) (limit n page : ℕ) (heap : Heap) (i allocated : ℕ)
    (hmax : heap.maxSize + 2 * pageSize ≤ wordMod) (hall : allocated ≤ heap.size) :
    ∃ m i', growLoop pages limit n page heap i allocated
        = ({ heap with size := heap.size + m * pageSize }, allocated + m * pageSize, i') ∧
      (0 < m → heap.size + m * pageSize < heap.maxSize + pageSize) := by
  induction n generalizing page heap i allocated with
  | zero => exact ⟨0, i, by simp [growLoop], by simp⟩
  | succ n ih =>
    have stop : ∀ j : ℕ, ∃ m i', (heap, allocated, j)
        = ({ heap with size := heap.size + m * pageSize }, allocated + m * pageSize, i') ∧
        (0 < m → heap.size + m * pageSize < heap.maxSize + pageSize) :=
      fun j => ⟨0, j, by simp, by simp⟩
    rw [growLoop]
    split
    · split
      · exact stop i
      · rename_i hlt
        split
        · have hsz : addW heap.size pageSize = heap.size + pageSize := addW_of_lt (by omega)
          have hal : addW allocated pageSize = allocated + pageSize := addW_of_lt (by omega)
          rw [hsz, hal]
          obtain ⟨m, i', heq, hm⟩ := ih (addW page pageSize)
            { heap with size := heap.size + pageSize } (i + 1) (allocated + pageSize) hmax
            (by simpa using hall)
          refine ⟨m + 1, i', ?_, ?_⟩
          · rw [heq]
            simp only [Nat.add_mul, one_mul, Nat.add_assoc, Nat.add_comm pageSize]
          · intro _
            rcases Nat.eq_zero_or_pos m with rfl | hpos
            · simp only [zero_add, one_mul]
              omega
            · have := hm hpos
              simp only [Nat.add_mul, one_mul] at *
              omega
        · exact stop (i + 1)
    · exact stop i

/-- The blocks of a heap whose end has moved up by `n` bytes. -/
def growBlocks (pre : List Block) (last : Block) (n : ℕ) : List Block :=
  if last.allocated then pre ++ [last, ⟨last.addr + last.size, n, false⟩]
  else pre ++ [{ last with size := last.size + n }]

/-- The end of the heap has moved up by `n` bytes, which became a block of their own behind an
allocated last block and part of a free one. -/
theorem Repr.grow {g : Heap} (hr : Repr heap (pre ++ [last])) (haddr : g.addr = heap.addr)
    (hhead : g.head = heap.head) (hsize : g.size = heap.size + n) (hmax : g.maxSize = heap.maxSize)
    (hpage : n % pageSize = 0) (hn : headerSize ≤ n)
    (hfits : heap.addr + (heap.size + n) + 4 * pageSize ≤ wordMod)
    (hbelow : ∀ x < last.addr, g.mem x = heap.mem x)
    (halloc : last.allocated = true → g.mem last.addr = last.header (heap.addr + heap.size) ∧
      g.mem (heap.addr + heap.size) = freeHeader n 0)
    (hfree : last.allocated = false → g.mem last.addr = freeHeader (last.size + n) 0) :
    Repr g (growBlocks pre last n) := by
  have hend := hr.last_end
  have hlmin := hr.min_size last (by simp)
  have hfits' : g.addr + g.size + 4 * pageSize ≤ wordMod := by rwa [haddr, hsize]
  unfold growBlocks
  cases hlast : last.allocated with
  | true =>
    obtain ⟨hl, hnew⟩ := halloc hlast
    refine hr.extend haddr hhead hsize hmax hpage hfits' ?_ (by simp) ?_ hbelow ⟨?_, ?_, trivial⟩
    · simp only [tiles_cons, tiles_nil, true_and, hend, haddr, hsize]
      omega
    · simp [hlmin, hn]
    · rw [hl, firstOr_cons, hend]
    · rw [hend, hnew]
      rfl
  | false =>
    refine hr.extend haddr hhead hsize hmax hpage hfits' ?_ (by simp) ?_ hbelow ⟨?_, trivial⟩
    · simp only [tiles_cons, tiles_nil, true_and, haddr, hsize]
      omega
    · simp only [List.mem_singleton, forall_eq]
      omega
    · rw [Block.header_of_free rfl]
      exact hfree hlast

/-- **Growth.** `heap_grow` adds `m` pages, for some `m` that does not pass the limit by a whole
page, and says whether `m` is positive. -/
theorem heapGrow_spec (pages : ℕ → Bool) (hr : Repr heap (pre ++ [last])) (size i : ℕ) :
    ∃ m i' g, heapGrow pages heap size i = .ok (g, decide (0 < m), i') ∧
      g.lock = heap.lock ∧ g.maxSize = heap.maxSize ∧ g.size = heap.size + m * pageSize ∧
      (0 < m → heap.size + m * pageSize < heap.maxSize + pageSize) ∧
      (m = 0 → g = heap) ∧ (0 < m → Repr g (growBlocks pre last (m * pageSize))) := by
  have hend := hr.last_end
  have hfits := hr.fits
  have hmaxfits := hr.max_fits
  have hpos : last.addr ≠ 0 := (hr.addr_pos (b := last) (by simp)).ne'
  have hlmin := hr.min_size last (by simp)
  have hsz : (heap.mem last.addr).size = last.size := hr.mem_size (by simp)
  have hmem : heap.mem last.addr = last.header 0 := hr.mem_eq
  have hendW : addW last.addr last.size = heap.addr + heap.size := by
    rw [addW_of_lt (by unfold pageSize at *; omega), hend]
  have hpage : (heap.addr + heap.size) % pageSize = 0 := by
    rw [Nat.add_mod, hr.addr_page, hr.size_page]
    rfl
  obtain ⟨m, i', hloop, hm⟩ := growLoop_spec pages
    (addW (heap.addr + heap.size) (alignUp size pageSize)) (alignUp size pageSize / pageSize)
    (heap.addr + heap.size) heap i 0 (by omega) (by omega)
  rw [zero_add] at hloop
  simp only [heapGrow, hr.lastBlock_eq, ok_bind, check_of _ hpos, hsz, hendW, check_of _ hpage,
    hloop]
  rcases Nat.eq_zero_or_pos m with rfl | hm₀
  · refine ⟨0, i', heap, by simp, rfl, rfl, by simp, hm, fun _ => rfl, by simp⟩
  have hm' := hm hm₀
  have hne : m * pageSize ≠ 0 := Nat.mul_ne_zero hm₀.ne' (by decide)
  have hendne : heap.addr + heap.size ≠ last.addr := by unfold headerSize at hlmin; omega
  rw [if_pos hne]
  have hfits' : heap.addr + (heap.size + m * pageSize) + 4 * pageSize ≤ wordMod := by omega
  -- the heap once the new pages are a block of their own, linked from the last block
  obtain ⟨g₁, hg₁⟩ : ∃ g₁ : Heap, ((createBlock { heap with size := heap.size + m * pageSize }
      (heap.addr + heap.size) (m * pageSize)).set last.addr (last.header (heap.addr + heap.size)))
      = g₁ := ⟨_, rfl⟩
  have hlastmem : g₁.mem last.addr = last.header (heap.addr + heap.size) := by
    rw [← hg₁, Heap.mem_set, if_pos rfl]
  have hnewmem : g₁.mem (heap.addr + heap.size) = freeHeader (m * pageSize) 0 := by
    rw [← hg₁, Heap.mem_set, if_neg hendne, createBlock_eq, Heap.mem_set, if_pos rfl]
  have hbelow : ∀ x < last.addr, g₁.mem x = heap.mem x := by
    intro x hx
    rw [← hg₁, Heap.mem_set, if_neg hx.ne, createBlock_eq, Heap.mem_set, if_neg (by omega)]
  have hset : (createBlock { heap with size := heap.size + m * pageSize }
      (heap.addr + heap.size) (m * pageSize)).set last.addr
      { (createBlock { heap with size := heap.size + m * pageSize }
          (heap.addr + heap.size) (m * pageSize)).mem last.addr with
        next := heap.addr + heap.size } = g₁ := by
    rw [← hg₁, createBlock_eq, Heap.mem_set, if_neg hendne.symm, hmem]
    rfl
  rw [hset, heapIsFree_of_header hlastmem, ok_bind]
  have hn : headerSize ≤ m * pageSize := le_trans (by decide) (Nat.le_mul_of_pos_left _ hm₀)
  cases hlast : last.allocated with
  | true =>
    refine ⟨m, i', g₁, by simp [hm₀], by rw [← hg₁]; rfl, by rw [← hg₁]; rfl, by rw [← hg₁]; rfl,
      hm, by omega, fun _ => hr.grow (by rw [← hg₁]; rfl) (by rw [← hg₁]; rfl)
        (by rw [← hg₁]; rfl) (by rw [← hg₁]; rfl) (Nat.mul_mod_left _ _) hn hfits' hbelow
        (fun _ => ⟨hlastmem, hnewmem⟩) (by simp [hlast])⟩
  | false =>
    have hsum : addW last.size (m * pageSize) = last.size + m * pageSize :=
      addW_of_lt (by unfold pageSize at *; omega)
    have hmerge : mergeBlocks g₁ last.addr (heap.addr + heap.size)
        = .ok (g₁.set last.addr (freeHeader (last.size + m * pageSize) 0)) := by
      rw [Block.header_of_free hlast] at hlastmem
      have hlt : last.addr < heap.addr + heap.size := by unfold headerSize at hlmin; omega
      simp [mergeBlocks, hlastmem, hnewmem, freeHeader, check_of, hlt, hsum]
    rw [hmerge]
    refine ⟨m, i', g₁.set last.addr (freeHeader (last.size + m * pageSize) 0), by simp [hm₀],
      by rw [← hg₁]; rfl, by rw [← hg₁]; rfl, by rw [← hg₁]; rfl, hm, by omega, fun _ =>
      hr.grow (by rw [← hg₁]; rfl) (by rw [← hg₁]; rfl) (by rw [← hg₁]; rfl) (by rw [← hg₁]; rfl)
        (Nat.mul_mod_left _ _) hn hfits' ?_ (by simp [hlast]) (by simp)⟩
    intro x hx
    rw [Heap.mem_set, if_neg hx.ne, hbelow x hx]

theorem mem_growBlocks_of_allocated (hb : b ∈ pre ++ [last]) (hall : b.allocated = true) :
    b ∈ growBlocks pre last n := by
  unfold growBlocks
  rcases List.mem_append.mp hb with hb | hb
  · split <;> simp [hb]
  · obtain rfl : b = last := by simpa using hb
    simp [hall]

theorem Settled.grow (h : Settled (pre ++ [last])) :
    Settled (growBlocks pre last n) := by
  unfold growBlocks
  split
  · rename_i hlast
    exact List.isChain_append_cons_cons.mpr ⟨h, .inl hlast, .singleton _⟩
  · exact h.congr (by simp)

/-! ## The outer loop -/

/-- How the outer loop leaves a heap: represented, with every allocated block where it was, and
not larger than before unless its limit allowed that. -/
structure Located (heap : Heap) (bs : List Block) (g : Heap) (bs' : List Block) : Prop where
  repr : Repr g bs'
  lock_eq : g.lock = heap.lock
  maxSize_eq : g.maxSize = heap.maxSize
  size_le : g.size = heap.size ∨ heap.size < g.size ∧ g.size < heap.maxSize + pageSize
  allocated_mem : ∀ b ∈ bs, b.allocated = true → b ∈ bs'

theorem Located.refl (hr : Repr heap bs) : Located heap bs heap bs :=
  ⟨hr, rfl, rfl, .inl rfl, fun _ hb _ => hb⟩

theorem Located.trans {g g' : Heap} {bs₁ bs₂ : List Block} (h₁ : Located heap bs g bs₁)
    (h₂ : Located g bs₁ g' bs₂) : Located heap bs g' bs₂ where
  repr := h₂.repr
  lock_eq := h₂.lock_eq.trans h₁.lock_eq
  maxSize_eq := h₂.maxSize_eq.trans h₁.maxSize_eq
  size_le := by
    have h1 := h₁.size_le
    have h2 := h₂.size_le
    rw [h₁.maxSize_eq] at h2
    omega
  allocated_mem := fun b hb hall => h₂.allocated_mem b (h₁.allocated_mem b hb hall) hall

/-- One round of the outer loop: it ends, or it goes on in a heap that has grown below its
limit. -/
theorem locate_succ (pages : ℕ → Bool) (size : ℕ) (hk : k ≤ 12) (hal : alignment = 2 ^ k)
    (hr : Repr heap bs) (n i : ℕ) :
    locate pages size alignment (n + 1) heap i
        = .ok (heap, (bs.find? (Block.accepted size alignment)).map Block.addr) ∨
      ∃ i' g bs', locate pages size alignment (n + 1) heap i
          = locate pages size alignment n g i' ∧
        Located heap bs g bs' ∧ (Settled bs → Settled bs') ∧
        heap.size + pageSize ≤ g.size ∧ heap.size < heap.maxSize := by
  have hfind := findFit_eq size (show Repr heap ([] ++ bs) from hr) hk hal hr.length_lt_walkFuel
  rw [hr.firstOr_eq] at hfind
  rw [locate, hfind, ok_bind]
  cases hf : bs.find? (Block.accepted size alignment) with
  | some b => exact .inl rfl
  | none =>
    obtain ⟨pre, last, rfl⟩ := (List.eq_nil_or_concat bs).resolve_left hr.ne_nil
    rw [List.concat_eq_append] at hr hf ⊢
    obtain ⟨m, i', g, hgrow, hlock, hmax, hsize, hm, hzero, hpos⟩ := heapGrow_spec pages hr size i
    rcases Nat.eq_zero_or_pos m with rfl | hm₀
    · left
      obtain rfl := hzero rfl
      simp [hgrow]
    · right
      have hlt := hm hm₀
      have hle : pageSize ≤ m * pageSize := Nat.le_mul_of_pos_left _ hm₀
      refine ⟨i', g, _, by simp [hgrow, hm₀], ⟨hpos hm₀, hlock, hmax, .inr ⟨?_, ?_⟩, ?_⟩,
        Settled.grow, ?_, ?_⟩
      · unfold pageSize at *
        omega
      · omega
      · exact fun b hb hall => mem_growBlocks_of_allocated hb hall
      · omega
      · omega

/-- **The outer loop ends**, with the first accepted block of the heap it ends in, or with none. -/
theorem locate_spec (pages : ℕ → Bool) (size : ℕ) (hk : k ≤ 12) (hal : alignment = 2 ^ k)
    (i : ℕ) (hr : Repr heap bs) (hn : heap.maxSize ≤ heap.size + n * pageSize) :
    ∃ g bs', locate pages size alignment (n + 1) heap i
        = .ok (g, (bs'.find? (Block.accepted size alignment)).map Block.addr) ∧
      Located heap bs g bs' ∧ (Settled bs → Settled bs') := by
  -- each round but the last uses up a page of the distance to the limit
  induction n generalizing heap bs i with
  | zero =>
    rcases locate_succ pages size hk hal hr 0 i with h | ⟨_, _, _, _, _, _, _, hlt⟩
    · exact ⟨heap, bs, h, .refl hr, id⟩
    · omega
  | succ n ih =>
    rcases locate_succ pages size hk hal hr (n + 1) i with h | ⟨i', g, bs₁, h, hg, hs, hsize, -⟩
    · exact ⟨heap, bs, h, .refl hr, id⟩
    · obtain ⟨g', bs', h', hg', hs'⟩ := ih i' hg.repr (by
        rw [hg.maxSize_eq]
        rw [Nat.add_mul] at hn
        omega)
      exact ⟨g', bs', h.trans h', hg.trans hg', hs' ∘ hs⟩

end Rastapopoulos.KernelHeap
