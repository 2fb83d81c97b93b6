import Rastapopoulos.Heap.Invariant

/-!
# Every allocation ends

The outer loop of `heap_alloc_block_aligned` has no condition, and goes on after every growth, also
after one that is too small for the request. It ends because a growth that adds no page ends it, and
each page that is added brings the heap closer to `max_size` (`locate_spec`). The loop over pages
ends by itself (`growLoop_rounds`), and what is done to the block that was found has no loop
(`carve_returns`).
-/

namespace Rastapopoulos.KernelHeap

variable {heap : Heap} {pre post bs : List Block} {b : Block} {size alignment k : ℕ}

/-! ## The loop over pages -/

theorem alignUp_page_mod (size : ℕ) : alignUp size pageSize % pageSize = 0 :=
  Nat.mod_eq_zero_of_dvd (dvd_alignUp_two_pow size (k := 12) (by decide))

/-- Once the page reaches the limit, more rounds make no difference. -/
theorem growLoop_of_limit_le (pages : ℕ → Bool) {limit n page : ℕ} (heap : Heap) (i allocated : ℕ)
    (hlimit : limit % pageSize = 0) (hlt : limit < wordMod) (hpage : page % pageSize = 0)
    (hn : limit ≤ page + n * pageSize) (m : ℕ) :
    growLoop pages limit (n + m) page heap i allocated
      = growLoop pages limit n page heap i allocated := by
  induction n generalizing page heap i allocated with
  | zero =>
    obtain _ | m := m
    · rfl
    · have hp : ¬ page < limit := by omega
      simp only [growLoop, if_neg hp]
  | succ n ih =>
    rw [Nat.add_right_comm, growLoop, growLoop]
    by_cases hp : page < limit
    · -- the next page does not wrap around, as the limit is a page boundary too
      have hnext : addW page pageSize = page + pageSize :=
        addW_of_lt (by unfold pageSize at *; omega)
      rw [if_pos hp, if_pos hp, hnext, ih _ _ _ (by rw [Nat.add_mod_right]; exact hpage)
        (by rw [Nat.add_mul] at hn; omega)]
    · rw [if_neg hp, if_neg hp]

/-- **The loop over pages** of `heap_grow` ends by its condition: more rounds than it is given make
no difference. -/
theorem growLoop_rounds (pages : ℕ → Bool) {endOfHeap : ℕ} (heap : Heap) (size i allocated : ℕ)
    (hend : endOfHeap % pageSize = 0) (m : ℕ) :
    growLoop pages (addW endOfHeap (alignUp size pageSize)) (alignUp size pageSize / pageSize + m)
        endOfHeap heap i allocated
      = growLoop pages (addW endOfHeap (alignUp size pageSize)) (alignUp size pageSize / pageSize)
        endOfHeap heap i allocated := by
  have hmod := alignUp_page_mod size
  refine growLoop_of_limit_le pages heap i allocated ?_ (addW_lt _ _) hend ?_ m
  · have hdvd : pageSize ∣ wordMod := by decide
    rw [addW, Nat.mod_mod_of_dvd _ hdvd, Nat.add_mod, hend, hmod]
    rfl
  · rw [Nat.div_mul_cancel (Nat.dvd_of_mod_eq_zero hmod)]
    exact Nat.mod_le _ _

/-! ## The block that was found -/

/-- Carving an accepted block returns, whether or not the block has the room that is asked for. -/
theorem carve_returns (hr : Repr heap (pre ++ b :: post)) (hk : k ≤ 12) (hal : alignment = 2 ^ k)
    (hacc : b.accepted size alignment = true) :
    ∃ mem a, carve heap b.addr size alignment = .ok ({ heap with mem := mem }, a) := by
  obtain ⟨hfree, hsize, -⟩ := Block.accepted_iff.mp hacc
  have hmem : heap.mem b.addr = freeHeader b.size (firstOr post 0) := by
    rw [hr.mem_eq, Block.header_of_free hfree]
  have hend := hr.end_le (b := b) (by simp)
  unfold pageSize at hend
  have hheaders : ∀ (g : Heap) (a rest : ℕ), (∃ mem, g = { heap with mem := mem }) →
      ∃ mem, allocHeaders g a size rest (firstOr post 0) = { heap with mem := mem } := by
    rintro g a rest ⟨mem, rfl⟩
    unfold allocHeaders
    split <;> exact ⟨_, rfl⟩
  by_cases hd : DataAligned b.addr alignment
  · obtain ⟨mem, hg⟩ := hheaders heap b.addr b.size ⟨_, rfl⟩
    refine ⟨mem, b.addr, ?_⟩
    rw [carve, if_pos (by exact hd), carveAligned_eq hmem hsize (by omega) (by omega), hg]
  · obtain ⟨g, hmv, hg₀, hgle, -⟩ := movedData_spec (h := b.addr) hk (by unfold pageSize; omega)
    rw [← hal] at hmv
    obtain ⟨mem, hg⟩ := hheaders (heap.set b.addr (freeHeader g (b.addr + g))) (b.addr + g)
      (subW b.size g) ⟨_, rfl⟩
    refine ⟨mem, b.addr + g, ?_⟩
    unfold headerSize pageSize at *
    rw [carve, if_neg (by exact hd), carveMoved_eq size hmem hmv hg₀ (by omega)
      (by unfold headerSize; omega) (by unfold headerSize; omega)
      (fun _ => by unfold headerSize; omega), hg]

/-! ## The allocation -/

/-- The limit of a heap, rounded up to a page. -/
theorem Located.size_le_max {g : Heap} {bs' : List Block} (hr : Repr heap bs)
    (h : Located heap bs g bs') : g.size ≤ max heap.size (alignUp heap.maxSize pageSize) := by
  rcases h.size_le with heq | ⟨-, hlt⟩
  · exact heq ▸ le_max_left _ _
  · have hmax := hr.max_fits
    have hle : heap.maxSize ≤ alignUp heap.maxSize pageSize :=
      le_alignUp_two_pow (k := 12) (by decide) (by unfold pageSize at hmax; omega)
    have hmod := alignUp_page_mod heap.maxSize
    have hpage := h.repr.size_page
    refine le_trans ?_ (le_max_right _ _)
    unfold pageSize at *
    omega

end Rastapopoulos.KernelHeap
