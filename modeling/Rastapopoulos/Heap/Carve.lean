import Rastapopoulos.Heap.Blocks

/-!
# Carving a block

What `heap_alloc_block_aligned` does to the free block it has chosen. The data start of the block
is moved to an aligned address (`movedData_spec`), the block is cut in front of the new header and,
when enough is left, behind the requested bytes. `carveAligned_eq` and `carveMoved_eq` compute the
headers that are written; `carve_spec` reads them as an exchange of one block for up to three
(`carveBlocks`). The exchange needs that the moved header still lies in the block, which the source
does not test.
-/

namespace Rastapopoulos.KernelHeap

/-! ## Headers -/

variable {b : Block} {alignment h k next rest size total : ℕ} {heap : Heap}

section Headers

variable {heap : Heap} {a size next : ℕ}

/-- The header of a free block. -/
def freeHeader (size next : ℕ) : BlockHeader :=
  { magic := magicFree, flags := 0, size := size, next := next }

/-- The header of an allocated block. -/
def allocatedHeader (size next : ℕ) : BlockHeader :=
  { magic := magicAllocated, flags := blockAllocated, size := size, next := next }

theorem Block.header_of_free (hb : b.allocated = false) (next : ℕ) :
    b.header next = freeHeader b.size next := by
  simp [Block.header, freeHeader, hb]

theorem Block.header_of_allocated (hb : b.allocated = true) (next : ℕ) :
    b.header next = allocatedHeader b.size next := by
  simp [Block.header, allocatedHeader, hb]

@[simp] theorem isValidBlock_free :
    isValidBlock { magic := magicFree, flags := 0, size := size, next := next } = true :=
  Block.isValidBlock_header ⟨0, size, false⟩ next

@[simp] theorem isValidBlock_allocated :
    isValidBlock { magic := magicAllocated, flags := blockAllocated, size := size, next := next }
      = true :=
  Block.isValidBlock_header ⟨0, size, true⟩ next

@[simp] theorem Heap.mem_set (heap : Heap) (a x : ℕ) (b : BlockHeader) :
    (heap.set a b).mem x = if x = a then b else heap.mem x := by
  simp [Heap.set, Function.update_apply]

@[simp] theorem Heap.set_set (heap : Heap) (a : ℕ) (b c : BlockHeader) :
    (heap.set a b).set a c = heap.set a c := by
  simp [Heap.set]

variable {a : ℕ}

theorem Heap.set_comm (heap : Heap) {a' : ℕ} (h : a ≠ a') (b c : BlockHeader) :
    (heap.set a b).set a' c = (heap.set a' c).set a b := by
  simp only [Heap.set, Function.update_comm h]

theorem createBlock_eq : createBlock heap a size = heap.set a (freeHeader size 0) := rfl

theorem setAllocated_of_free (h : heap.mem a = freeHeader size next) :
    setAllocated heap a = .ok (heap.set a (allocatedHeader size next)) := by
  simp [setAllocated, h, freeHeader, allocatedHeader, check_of]

theorem setFree_of_free (h : heap.mem a = freeHeader size next) :
    setFree heap a = .ok (heap.set a (freeHeader size next)) := by
  simp [setFree, h, freeHeader, check_of]

theorem setFree_of_allocated (h : heap.mem a = allocatedHeader size next) :
    setFree heap a = .ok (heap.set a (freeHeader size next)) := by
  have hmask : blockAllocated &&& (wordMod - 1 - blockAllocated) = 0 := by decide
  simp [setFree, h, freeHeader, allocatedHeader, check_of, hmask]

end Headers

/-! ## The data start -/

/-- Moving the data start in steps of the alignment ends at least two headers behind `header0`,
and less than one step further than needed. -/
theorem bumpData_spec (ha : 0 < alignment) {n d : ℕ}
    (hn : 2 * headerSize ≤ d + n) (hw : h + 2 * headerSize + alignment < wordMod)
    (hd : h + d < wordMod) (hdvd : alignment ∣ h + d) :
    ∃ d', bumpData h alignment n (h + d) = h + d' ∧ 2 * headerSize ≤ d' ∧
      d' ≤ max d (2 * headerSize + alignment) ∧ alignment ∣ h + d' := by
  induction n generalizing d with
  | zero => exact ⟨d, rfl, hn, le_max_left _ _, hdvd⟩
  | succ n ih =>
    have hsub : subW (h + d) h = d := by
      rw [subW_of_le hd (by omega)]
      omega
    by_cases hlt : d < 2 * headerSize
    · have hadd : addW (h + d) alignment = h + (d + alignment) := by
        rw [addW_of_lt (by omega), Nat.add_assoc]
      obtain ⟨d', h₁, h₂, h₃, h₄⟩ := ih (d := d + alignment) (by omega) (by omega)
        (by rw [← Nat.add_assoc]; exact Nat.dvd_add hdvd (Nat.dvd_refl _))
      refine ⟨d', ?_, h₂, ?_, h₄⟩
      · rw [bumpData, hsub, if_pos hlt, hadd, h₁]
      · omega
    · exact ⟨d, by rw [bumpData, hsub, if_neg hlt], by omega, le_max_left _ _, hdvd⟩

section Alignment

variable {h k : ℕ}

theorem alignedData_spec (hk : k ≤ 12) (hh : h + 2 * pageSize ≤ wordMod) :
    ∃ d, alignedData h (2 ^ k) = h + d ∧ headerSize ≤ d ∧ d < headerSize + 2 ^ k ∧
      2 ^ k ∣ h + d := by
  have hp : 2 ^ k ≤ 2 ^ 12 := Nat.pow_le_pow_right (by decide) hk
  have hv : h + headerSize + 2 ^ k ≤ wordMod := by
    unfold headerSize pageSize at *
    omega
  have hlt : h + headerSize < wordMod := by have := Nat.two_pow_pos k; omega
  have h₁ := le_alignUp_two_pow (show k < 32 by omega) hv
  have h₂ := alignUp_two_pow_lt (show k < 32 by omega) hv
  have h₃ := dvd_alignUp_two_pow (h + headerSize) (show k < 32 by omega)
  rw [alignedData, addW_of_lt hlt]
  refine ⟨alignUp (h + headerSize) (2 ^ k) - h, ?_, ?_, ?_, ?_⟩
  · omega
  · omega
  · omega
  · rwa [Nat.add_sub_cancel' (by omega)]

/-- The moved data start leaves a gap `g` with room for a header, and is aligned. -/
theorem movedData_bound (hk : k ≤ 12) (hh : h + 3 * pageSize ≤ wordMod) :
    ∃ g, movedData h (2 ^ k) = h + g + headerSize ∧ headerSize ≤ g ∧
      g ≤ headerSize + 2 ^ k ∧ 2 ^ k ∣ h + g + headerSize := by
  have hp : 2 ^ k ≤ 2 ^ 12 := Nat.pow_le_pow_right (by decide) hk
  obtain ⟨d, hd, hd₁, hd₂, hd₃⟩ := alignedData_spec (h := h) hk (by omega)
  unfold headerSize pageSize at *
  obtain ⟨d', h₁, h₂, h₃, h₄⟩ := bumpData_spec (h := h) (n := 2 * headerSize) (d := d)
    (Nat.two_pow_pos k) (by unfold headerSize; omega) (by unfold headerSize; omega) (by omega) hd₃
  unfold headerSize at *
  refine ⟨d' - 16, ?_, ?_, ?_, ?_⟩
  · rw [movedData, hd]
    unfold headerSize
    omega
  · omega
  · omega
  · rwa [show h + (d' - 16) + 16 = h + d' by omega]

/-- A bound on the gap for all alignments up to a page. -/
theorem movedData_spec (hk : k ≤ 12) (hh : h + 3 * pageSize ≤ wordMod) :
    ∃ g, movedData h (2 ^ k) = h + g + headerSize ∧ headerSize ≤ g ∧
      g ≤ headerSize + pageSize ∧ 2 ^ k ∣ h + g + headerSize := by
  obtain ⟨g, hmv, hg₀, hg, hdvd⟩ := movedData_bound hk hh
  have hp : 2 ^ k ≤ 2 ^ 12 := Nat.pow_le_pow_right (by decide) hk
  exact ⟨g, hmv, hg₀, hg.trans (Nat.add_le_add_left hp _), hdvd⟩

end Alignment

/-! ## The headers that are written -/

theorem cutFront_eq {b : ℕ} (hh : heap.mem h = freeHeader total next)
    (hb : b ≠ h) (hsum : addW (subW b h) (subW total (subW b h)) = total) :
    cutFront heap h b = .ok ((heap.set h (freeHeader (subW b h) b)).set b
      (freeHeader (subW total (subW b h)) next)) := by
  simp only [cutFront, hh, createBlock_eq]
  rw [setFree_of_free (show _ = freeHeader (subW b h) next by simp [freeHeader]), ok_bind]
  simp [freeHeader, hb.symm, hsum, check_of, Heap.set_comm _ hb]

theorem cutBack_eq_of_lt {b c g : ℕ}
    (hh : heap.mem h = freeHeader g b) (hb : heap.mem b = freeHeader rest next)
    (hbh : b ≠ h) (hch : c ≠ h) (hcb : c ≠ b)
    (hc : addW (addW b size) headerSize = c) (hlt : addW size (2 * headerSize) < rest)
    (hsum : addW (addW g (addW size headerSize)) (subW (subW rest size) headerSize) = total) :
    cutBack heap h b size total = .ok
      ((heap.set c (freeHeader (subW (subW rest size) headerSize) next)).set b
        (freeHeader (addW size headerSize) c)) := by
  have hlt' : addW size (2 * headerSize) < (freeHeader rest next).size := hlt
  simp only [cutBack, hb, createBlock_eq, hc, if_pos hlt']
  rw [setFree_of_free (show _ = freeHeader (subW (subW rest size) headerSize) 0 by
    simp [freeHeader]), ok_bind]
  simp [freeHeader, hh, hb, hbh.symm, hch.symm, hcb, hcb.symm, hsum, check_of]

theorem cutBack_eq_of_le {b : ℕ}
    (hb : heap.mem b = freeHeader rest next) (hle : rest ≤ addW size (2 * headerSize)) :
    cutBack heap h b size total = .ok heap := by
  have hle' : ¬ addW size (2 * headerSize) < (freeHeader rest next).size := Nat.not_lt.mpr hle
  simp only [cutBack, hb, if_neg hle', pure_eq_ok]

/-- The heap after the free block at `a` of `rest` bytes has been allocated for `size` bytes: cut
in two when more than a header is left over. -/
def allocHeaders (heap : Heap) (a size rest next : ℕ) : Heap :=
  if size + 2 * headerSize < rest then
    (heap.set (a + size + headerSize) (freeHeader (rest - size - headerSize) next)).set a
      (allocatedHeader (size + headerSize) (a + size + headerSize))
  else heap.set a (allocatedHeader rest next)

theorem carveAligned_eq
    (hh : heap.mem h = freeHeader total next) (hsize : size + headerSize ≤ total)
    (htot : total < wordMod) (hw : h + total ≤ wordMod) :
    carveAligned heap h size = .ok (allocHeaders heap h size total next, h) := by
  have h1 : subW (subW total headerSize) size = total - size - headerSize := by
    rw [subW_of_le (a := total) (by omega) (by omega), subW_of_le (by omega) (by omega)]
    omega
  have h3 : addW headerSize size = size + headerSize := by
    rw [addW_of_lt (by omega), Nat.add_comm]
  have hs : (heap.mem h).size = total := by rw [hh]; rfl
  have hn : (heap.mem h).next = next := by rw [hh]; rfl
  simp only [carveAligned, hs, hn, h1, h3]
  by_cases hsplit : size + 2 * headerSize < total
  · have h2 : addW (addW h size) headerSize = h + size + headerSize := by
      rw [addW_of_lt (a := h) (by omega), addW_of_lt (by omega)]
    have hrem : headerSize < total - size - headerSize := by omega
    have n1 : h + size + headerSize ≠ h := by unfold headerSize; omega
    have hsum : addW (total - size - headerSize) (size + headerSize) = total := by
      rw [addW_of_lt (by omega)]
      omega
    rw [h2, if_pos hrem, setAllocated_of_free (show _ = freeHeader (size + headerSize)
      (h + size + headerSize) by simp [createBlock_eq, hh, n1.symm, freeHeader]), ok_bind]
    simp [createBlock_eq, freeHeader, allocatedHeader, allocHeaders, hsplit, n1, hsum, check_of]
  · rw [if_neg (by omega), setAllocated_of_free hh, ok_bind, allocHeaders, if_neg hsplit]
    rfl

theorem carveMoved_eq {g : ℕ} (size : ℕ) (hh : heap.mem h = freeHeader total next)
    (hg : movedData h alignment = h + g + headerSize) (hg₀ : headerSize ≤ g)
    (htot : total < wordMod) (hhw : h + g + headerSize < wordMod)
    (hsw : size + 2 * headerSize < wordMod)
    (hw : size + 2 * headerSize < subW total g → h + g + size + headerSize < wordMod) :
    carveMoved heap h size alignment = .ok
      (allocHeaders (heap.set h (freeHeader g (h + g))) (h + g) size (subW total g) next,
        h + g) := by
  have h1 : subW (movedData h alignment) headerSize = h + g := by
    rw [hg, subW_of_le (by omega) (by omega)]
    omega
  have h2 : subW (h + g) h = g := by
    rw [subW_of_le (by omega) (by omega)]
    omega
  have h3 : addW size (2 * headerSize) = size + 2 * headerSize := addW_of_lt (by omega)
  have h5 : addW size headerSize = size + headerSize := addW_of_lt (by omega)
  have h6 : addW g (subW total g) = total := by
    unfold addW subW wordMod at *
    omega
  have n1 : h + g ≠ h := by unfold headerSize at hg₀; omega
  have n2 : h + g + size + headerSize ≠ h := by unfold headerSize at *; omega
  have n3 : h + g + size + headerSize ≠ h + g := by unfold headerSize at *; omega
  have hfront : cutFront heap h (h + g) = .ok ((heap.set h (freeHeader g (h + g))).set (h + g)
      (freeHeader (subW total g) next)) := by
    rw [cutFront_eq hh n1 (by rw [h2, h6]), h2]
  have hat : ∀ x, ((heap.set h (freeHeader g (h + g))).set (h + g) x).mem h
      = freeHeader g (h + g) := by
    intro x
    rw [Heap.mem_set, if_neg n1.symm, Heap.mem_set, if_pos rfl]
  have hat' : ∀ x, ((heap.set h (freeHeader g (h + g))).set (h + g) x).mem (h + g) = x := by
    intro x
    rw [Heap.mem_set, if_pos rfl]
  have hsize : (heap.mem h).size = total := by rw [hh]; rfl
  rw [carveMoved, h1, hfront, ok_bind, hsize]
  by_cases hsplit : size + 2 * headerSize < subW total g
  · have hw := hw hsplit
    have h4 : addW (addW (h + g) size) headerSize = h + g + size + headerSize := by
      rw [addW_of_lt (a := h + g) (by omega), addW_of_lt (by omega)]
    have h7 : subW (subW (subW total g) size) headerSize = subW total g - size - headerSize := by
      rw [subW_of_le (a := subW total g) (subW_lt _ _) (by omega), subW_of_le _ (by omega)]
      have := subW_lt total g
      omega
    have h8 : addW (addW g (size + headerSize)) (subW total g - size - headerSize) = total := by
      unfold addW subW wordMod at *
      unfold headerSize at *
      omega
    rw [allocHeaders, if_pos hsplit, cutBack_eq_of_lt (hat _) (hat' _) n1 n2 n3 h4 (by rwa [h3]) (by rw [h5, h7, h8]),
      ok_bind, setAllocated_of_free (by rw [Heap.mem_set, if_pos rfl])]
    rw [h5, h7, Heap.set_comm _ n3.symm, Heap.set_set, Heap.set_set]
    simp [check_of, allocatedHeader]
  · rw [allocHeaders, if_neg hsplit, cutBack_eq_of_le (hat' _) (by omega), ok_bind, setAllocated_of_free (hat' _)]
    simp [check_of, allocatedHeader]

/-! ## The exchange of blocks -/

/-- The blocks that stand for a free stretch of `rest` bytes at `a` after an allocation of `size`
bytes at its start. -/
def allocBlocks (a size rest : ℕ) : List Block :=
  if size + 2 * headerSize < rest then
    [⟨a, size + headerSize, true⟩, ⟨a + size + headerSize, rest - size - headerSize, false⟩]
  else [⟨a, rest, true⟩]

section AllocBlocks

variable {heap : Heap} {a size rest next : ℕ}

theorem allocBlocks_ne_nil : allocBlocks a size rest ≠ [] := by
  unfold allocBlocks
  split <;> simp

theorem tiles_allocBlocks :
    Tiles Block.addr Block.size a (allocBlocks a size rest) (a + rest) := by
  unfold allocBlocks
  split
  · simp only [tiles_cons, tiles_nil, true_and]
    omega
  · simp

theorem min_size_allocBlocks (hrest : headerSize ≤ rest) :
    ∀ b ∈ allocBlocks a size rest, headerSize ≤ b.size := by
  unfold allocBlocks
  split
  · simp only [List.mem_cons, List.not_mem_nil, or_false, forall_eq_or_imp, forall_eq]
    omega
  · simpa using hrest

/-- The allocated block of the stretch. -/
theorem exists_mem_allocBlocks (hsize : size + headerSize ≤ rest) :
    ∃ s, ⟨a, s, true⟩ ∈ allocBlocks a size rest ∧ size + headerSize ≤ s ∧ s ≤ rest := by
  unfold allocBlocks
  split
  · exact ⟨size + headerSize, by simp, le_rfl, hsize⟩
  · exact ⟨rest, by simp, hsize, le_rfl⟩

theorem linked_allocHeaders :
    Linked (allocHeaders heap a size rest next).mem (allocBlocks a size rest) next := by
  unfold allocBlocks allocHeaders
  have hne : a + size + headerSize ≠ a := by unfold headerSize; omega
  split
  · simp [Block.header, freeHeader, allocatedHeader, hne]
  · simp [Block.header, allocatedHeader]

theorem allocHeaders_mem_of_outside (hrest : headerSize ≤ rest) {x : ℕ}
    (hx : x < a ∨ a + rest ≤ x) : (allocHeaders heap a size rest next).mem x = heap.mem x := by
  unfold headerSize at hrest
  have hxa : x ≠ a := by omega
  unfold allocHeaders
  split
  · have hxc : x ≠ a + size + headerSize := by unfold headerSize at *; omega
    simp [hxa, hxc]
  · simp [hxa]

end AllocBlocks

/-- Whether the data of a block at `a` is aligned where it stands. -/
def DataAligned (a alignment : ℕ) : Prop := alignedData a alignment = addW a headerSize

instance (a alignment : ℕ) : Decidable (DataAligned a alignment) :=
  inferInstanceAs (Decidable (_ = _))

/-- The bytes in front of the header of the block carved from a block at `a`. -/
def gap (a alignment : ℕ) : ℕ :=
  if DataAligned a alignment then 0 else movedData a alignment - headerSize - a

/-- The blocks that take the place of the free block `b`. -/
def carveBlocks (b : Block) (size alignment : ℕ) : List Block :=
  if DataAligned b.addr alignment then allocBlocks b.addr size b.size
  else { b with size := gap b.addr alignment } ::
    allocBlocks (b.addr + gap b.addr alignment) size (b.size - gap b.addr alignment)

theorem movedData_lt (h alignment : ℕ) : movedData h alignment < wordMod := by
  have hbump : ∀ n data, data < wordMod → bumpData h alignment n data < wordMod := by
    intro n
    induction n with
    | zero => exact fun data hdata => hdata
    | succ n ih =>
      intro data hdata
      rw [bumpData]
      split
      · exact ih _ (addW_lt _ _)
      · exact hdata
  exact hbump _ _ (lt_of_le_of_lt Nat.and_le_left (addW_lt _ _))

/-- **Carving.** A free block with room for the request is exchanged for the blocks
`carveBlocks`, as long as the gap in front of a moved header leaves room for that header. -/
theorem carve_listed {pre post : List Block}
    (hr : Listed heap (pre ++ b :: post)) (hend : heap.addr + heap.size ≤ wordMod)
    (hb : b.allocated = false) (hsize : size + headerSize ≤ b.size)
    (hmoved : ¬ DataAligned b.addr alignment → size + 2 * headerSize < wordMod ∧ ∃ g,
      movedData b.addr alignment = b.addr + g + headerSize ∧ headerSize ≤ g ∧
        g + headerSize ≤ b.size) :
    ∃ mem, carve heap b.addr size alignment
        = .ok ({ heap with mem := mem }, b.addr + gap b.addr alignment) ∧
      Listed { heap with mem := mem } (pre ++ carveBlocks b size alignment ++ post) := by
  have hmem : heap.mem b.addr = freeHeader b.size (firstOr post 0) := by
    rw [hr.mem_eq, Block.header_of_free hb]
  have hpos := hr.addr_pos (b := b) (by simp)
  have hle : b.addr + b.size ≤ wordMod := ((hr.tiles.bounds (x := b) (by simp)).2).trans hend
  have hr' : Listed heap (pre ++ [b] ++ post) := by simpa using hr
  have htile : Tiles Block.addr Block.size b.addr [b] (b.addr + b.size) := by simp
  by_cases hd : DataAligned b.addr alignment
  · have hg : gap b.addr alignment = 0 := if_pos hd
    have hcarve : carve heap b.addr size alignment
        = .ok (allocHeaders heap b.addr size b.size (firstOr post 0), b.addr) := by
      rw [carve, if_pos (by exact hd), carveAligned_eq hmem hsize (by omega) hle]
    refine ⟨(allocHeaders heap b.addr size b.size (firstOr post 0)).mem, ?_, ?_⟩
    · rw [hcarve, hg]
      unfold allocHeaders
      split <;> rfl
    · rw [carveBlocks, if_pos hd]
      exact hr'.splice rfl rfl rfl htile (by simp) tiles_allocBlocks allocBlocks_ne_nil
        (min_size_allocBlocks (by omega))
        (fun x hx => allocHeaders_mem_of_outside (by omega) hx) linked_allocHeaders
  · obtain ⟨hsw, g, hmv, hg₀, hroom⟩ := hmoved hd
    have hg : gap b.addr alignment = g := by
      rw [gap, if_neg hd, hmv]
      omega
    rw [hg]
    have hsub : subW b.size g = b.size - g := subW_of_le (by omega) (by omega)
    have hcarve := carveMoved_eq size hmem hmv hg₀ (by omega)
      (hmv ▸ movedData_lt b.addr alignment) hsw (by rw [hsub]; omega)
    rw [hsub] at hcarve
    generalize hheap : heap.set b.addr (freeHeader g (b.addr + g)) = heap₁ at hcarve
    have hheap' : ∀ x, x ≠ b.addr → heap₁.mem x = heap.mem x := by
      intro x hx
      rw [← hheap, Heap.mem_set, if_neg hx]
    refine ⟨(allocHeaders heap₁ (b.addr + g) size (b.size - g) (firstOr post 0)).mem, ?_, ?_⟩
    · rw [carve, if_neg (by exact hd), hcarve, ← hheap]
      unfold allocHeaders
      split <;> rfl
    · rw [carveBlocks, if_neg hd, hg]
      have hend' : b.addr + g + (b.size - g) = b.addr + b.size := by omega
      refine hr'.splice rfl rfl rfl htile (by simp) ⟨rfl, ?_⟩ (by simp) ?_ ?_ ⟨?_, ?_⟩
      · rw [← hend']
        exact tiles_allocBlocks
      · intro c hc
        rcases List.mem_cons.mp hc with rfl | hc
        · exact hg₀
        · exact min_size_allocBlocks (by omega) c hc
      · intro x hx
        have hxb : x ≠ b.addr := by unfold headerSize at *; omega
        rw [allocHeaders_mem_of_outside (by omega) (by omega), hheap' x hxb]
      · have hfirst : firstOr (allocBlocks (b.addr + g) size (b.size - g)) (firstOr post 0)
            = b.addr + g := by
          unfold allocBlocks
          split <;> rfl
        have hlt : b.addr < b.addr + g := by unfold headerSize at hg₀; omega
        rw [hfirst, Block.header_of_free (b := { b with size := g }) hb]
        show (allocHeaders heap₁ _ _ _ _).mem b.addr = freeHeader g (b.addr + g)
        rw [allocHeaders_mem_of_outside (by omega) (.inl hlt), ← hheap, Heap.mem_set, if_pos rfl]
      · exact linked_allocHeaders

/-- For the alignments of a heap in use the gap is at least a header, so that only its end has to be
looked at. -/
theorem carve_spec {pre post : List Block}
    (hr : Repr heap (pre ++ b :: post)) (hb : b.allocated = false) (hk : k ≤ 12)
    (hal : alignment = 2 ^ k) (hsize : size + headerSize ≤ b.size)
    (hroom : gap b.addr alignment + headerSize ≤ b.size) :
    ∃ mem, carve heap b.addr size alignment
        = .ok ({ heap with mem := mem }, b.addr + gap b.addr alignment) ∧
      Repr { heap with mem := mem } (pre ++ carveBlocks b size alignment ++ post) := by
  have hend := hr.end_le (b := b) (by simp)
  unfold pageSize at hend
  have hmoved : ¬ DataAligned b.addr alignment → size + 2 * headerSize < wordMod ∧ ∃ g,
      movedData b.addr alignment = b.addr + g + headerSize ∧ headerSize ≤ g ∧
        g + headerSize ≤ b.size := by
    intro hd
    refine ⟨by unfold headerSize at *; omega, ?_⟩
    obtain ⟨g, hmv, hg₀, -, -⟩ := movedData_spec (h := b.addr) hk (by unfold pageSize; omega)
    rw [← hal] at hmv
    have hg : gap b.addr alignment = g := by
      rw [gap, if_neg hd, hmv]
      omega
    exact ⟨g, hmv, hg₀, hg ▸ hroom⟩
  obtain ⟨mem, hcarve, hl⟩ := carve_listed hr.toListed hr.heap_end_le hb hsize hmoved
  exact ⟨mem, hcarve, hr.of_listed rfl rfl rfl hl⟩

end Rastapopoulos.KernelHeap
