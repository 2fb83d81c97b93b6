import Mathlib.Data.List.Chain
import Rastapopoulos.Heap.Basic
import Rastapopoulos.Foundations.Tiling

/-!
# The heap as a list of blocks

What the linked headers stand for: a list of blocks, each with its address, its size and whether it
is allocated, that tiles the memory behind the `struct heap` up to the heap's end. `Listed heap bs`
says that the headers in the heap's memory are those of the blocks `bs`, linked in this order. The
operations that rewrite a part of the list are handled by `Listed.splice`: blocks in the middle may
be exchanged for others that cover the same stretch.
-/

namespace Rastapopoulos.KernelHeap

/-- A block of the heap. -/
structure Block where
  addr : ℕ
  size : ℕ
  allocated : Bool
  deriving DecidableEq, Repr

/-- The header of a block whose successor is at `next`. -/
def Block.header (b : Block) (next : ℕ) : BlockHeader where
  magic := if b.allocated then magicAllocated else magicFree
  flags := if b.allocated then blockAllocated else 0
  size := b.size
  next := next

@[simp] theorem Block.header_size (b : Block) (next : ℕ) : (b.header next).size = b.size := rfl

@[simp] theorem Block.header_next (b : Block) (next : ℕ) : (b.header next).next = next := rfl

@[simp] theorem Block.isValidBlock_header (b : Block) (next : ℕ) :
    isValidBlock (b.header next) = true := by
  cases h : b.allocated <;> simp [isValidBlock, header, h, blockAllocated]

@[simp] theorem Block.header_flags_and (b : Block) (next : ℕ) :
    (b.header next).flags &&& blockAllocated = if b.allocated then 1 else 0 := by
  cases h : b.allocated <;> simp [header, h, blockAllocated]

/-- The address of the first block of a list, or `z` if there is none. -/
def firstOr : List Block → ℕ → ℕ
  | [], z => z
  | b :: _, _ => b.addr

@[simp] theorem firstOr_nil (z : ℕ) : firstOr [] z = z := rfl

@[simp] theorem firstOr_cons (b : Block) (bs : List Block) (z : ℕ) :
    firstOr (b :: bs) z = b.addr := rfl

theorem firstOr_append (xs ys : List Block) (z : ℕ) :
    firstOr (xs ++ ys) z = firstOr xs (firstOr ys z) := by
  cases xs <;> rfl

/-- The headers of the blocks are in memory, each linked to the next and the last to `z`. -/
def Linked (mem : ℕ → BlockHeader) : List Block → ℕ → Prop
  | [], _ => True
  | b :: bs, z => mem b.addr = b.header (firstOr bs z) ∧ Linked mem bs z

@[simp] theorem linked_nil (mem : ℕ → BlockHeader) (z : ℕ) : Linked mem [] z := trivial

variable {mem : ℕ → BlockHeader} {b : Block} {bs : List Block} {n z : ℕ}

@[simp] theorem linked_cons :
    Linked mem (b :: bs) z ↔ mem b.addr = b.header (firstOr bs z) ∧ Linked mem bs z := Iff.rfl

theorem linked_append {xs ys : List Block} :
    Linked mem (xs ++ ys) z ↔ Linked mem xs (firstOr ys z) ∧ Linked mem ys z := by
  induction xs with
  | nil => simp
  | cons x xs ih => simp only [List.cons_append, linked_cons, firstOr_append, ih, and_assoc]

/-- Only the headers of the blocks themselves matter. -/
theorem Linked.congr {mem' : ℕ → BlockHeader}
    (h : Linked mem bs z) (hm : ∀ b ∈ bs, mem' b.addr = mem b.addr) : Linked mem' bs z := by
  induction bs with
  | nil => trivial
  | cons b bs ih =>
    exact ⟨(hm b (by simp)).trans h.1, ih h.2 fun c hc => hm c (by simp [hc])⟩

/-- No two neighbours are both free. -/
def Settled (bs : List Block) : Prop :=
  bs.IsChain fun b c => b.allocated = true ∨ c.allocated = true

namespace Settled

variable {bs bs' pre ps post : List Block} {b : Block}

/-- Only the flags matter. -/
theorem congr (h : Settled bs) (heq : bs'.map Block.allocated = bs.map Block.allocated) :
    Settled bs' := by
  have hmap : ∀ cs : List Block, Settled cs ↔
      (cs.map Block.allocated).IsChain fun x y => x = true ∨ y = true := by
    intro cs
    rw [Settled, List.isChain_map]
  rw [hmap, heq, ← hmap]
  exact h

/-- Next to a free block stand allocated ones, so that any settled blocks may take its place. -/
theorem exchange (h : Settled (pre ++ b :: post)) (hb : b.allocated = false) (hps : Settled ps) :
    Settled (pre ++ ps ++ post) := by
  obtain ⟨hpre, hbpost, hlast⟩ := List.isChain_append.mp h
  obtain ⟨hhead, hpost⟩ := List.isChain_cons.mp hbpost
  have hlast' : ∀ x ∈ pre.getLast?, x.allocated = true := fun x hx =>
    (hlast x hx b rfl).resolve_right (by simp [hb])
  have hhead' : ∀ y ∈ post.head?, y.allocated = true := fun y hy =>
    (hhead y hy).resolve_left (by simp [hb])
  rw [List.append_assoc]
  exact hpre.append (hps.append hpost fun x _ y hy => .inr (hhead' y hy)) fun x hx y _ =>
    .inl (hlast' x hx)

end Settled

/-- The headers in `heap`'s memory are those of the blocks `bs`, which tile the heap. -/
structure Listed (heap : Heap) (bs : List Block) : Prop where
  head_eq : heap.head = heap.addr + heapStructSize
  ne_nil : bs ≠ []
  linked : Linked heap.mem bs 0
  tiles : Tiles Block.addr Block.size (heap.addr + heapStructSize) bs (heap.addr + heap.size)
  min_size : ∀ b ∈ bs, headerSize ≤ b.size

/-- The headers in `heap`'s memory are those of the blocks `bs`, which tile whole pages. The last
two fields keep every address that is computed from a block below `2 ^ 32`. -/
structure Repr (heap : Heap) (bs : List Block) : Prop extends Listed heap bs where
  addr_page : heap.addr % pageSize = 0
  size_page : heap.size % pageSize = 0
  fits : heap.addr + heap.size + 4 * pageSize ≤ wordMod
  max_fits : heap.addr + heap.maxSize + 5 * pageSize ≤ wordMod

variable {heap heap' : Heap} {bs pre mid ps post : List Block} {b last : Block}

namespace Listed

theorem lock (h : Listed heap bs) (l : Bool) : Listed { heap with lock := l } bs := { h with }

theorem firstOr_eq (h : Listed heap bs) : firstOr bs 0 = heap.head := by
  obtain _ | ⟨b, bs⟩ := bs
  · exact absurd rfl h.ne_nil
  · exact h.tiles.1.trans h.head_eq.symm

theorem addr_pos (h : Listed heap bs) (hb : b ∈ bs) : 0 < b.addr := by
  have := (h.tiles.bounds hb).1
  unfold heapStructSize at this
  omega

theorem length_lt_walkFuel (h : Listed heap bs) : bs.length < walkFuel heap := by
  have hl := h.tiles.length_mul_le h.min_size
  have hle := h.tiles.le
  unfold walkFuel
  unfold headerSize at *
  unfold heapStructSize at *
  omega

/-- The header of a listed block. -/
theorem mem_eq (h : Listed heap (pre ++ b :: post)) :
    heap.mem b.addr = b.header (firstOr post 0) :=
  (linked_append.mp h.linked).2.1

theorem mem_size (h : Listed heap bs) (hb : b ∈ bs) : (heap.mem b.addr).size = b.size := by
  obtain ⟨pre, post, rfl⟩ := List.append_of_mem hb
  rw [h.mem_eq, Block.header_size]

/-- **Exchanging a part of the list.** Blocks `mid` in the middle of the list may be replaced by
blocks `ps` that cover the same stretch `[a, e)`, when memory changes nowhere else. -/
theorem splice {a e : ℕ} (h : Listed heap (pre ++ mid ++ post))
    (haddr : heap'.addr = heap.addr) (hhead : heap'.head = heap.head)
    (hsize : heap'.size = heap.size)
    (hmid : Tiles Block.addr Block.size a mid e) (hmid₀ : mid ≠ [])
    (hps : Tiles Block.addr Block.size a ps e) (hps₀ : ps ≠ [])
    (hmin : ∀ b ∈ ps, headerSize ≤ b.size)
    (hmem : ∀ x, x < a ∨ e ≤ x → heap'.mem x = heap.mem x)
    (hlink : Linked heap'.mem ps (firstOr post 0)) : Listed heap' (pre ++ ps ++ post) := by
  have first_eq : ∀ {xs : List Block}, Tiles Block.addr Block.size a xs e → xs ≠ [] →
      ∀ z, firstOr xs z = a := by
    intro xs hx hx₀ z
    obtain _ | ⟨x, xs⟩ := xs
    · exact absurd rfl hx₀
    · exact hx.1
  obtain ⟨e', hpm, hpost⟩ := tiles_append.mp h.tiles
  obtain ⟨a', hpre, hmid'⟩ := tiles_append.mp hpm
  -- the stretch of `mid` is determined by its place in the list
  obtain rfl : a' = a := by
    rw [← first_eq hmid hmid₀ 0]
    obtain _ | ⟨x, xs⟩ := mid
    · exact absurd rfl hmid₀
    · exact hmid'.1.symm
  have end_eq : ∀ {xs : List Block} {a e₁ e₂ : ℕ}, Tiles Block.addr Block.size a xs e₁ →
      Tiles Block.addr Block.size a xs e₂ → e₁ = e₂ := by
    intro xs
    induction xs with
    | nil => rintro a e₁ e₂ rfl h; exact h
    | cons x xs ih => exact fun h₁ h₂ => ih h₁.2 h₂.2
  obtain rfl : e' = e := end_eq hmid' hmid
  obtain ⟨hl, hlpost⟩ := linked_append.mp h.linked
  have hlpre := (linked_append.mp hl).1
  rw [first_eq hmid hmid₀] at hlpre
  refine
    { head_eq := by rw [hhead, haddr, h.head_eq]
      ne_nil := by simp [hps₀]
      linked := linked_append.mpr ⟨linked_append.mpr ⟨?_, hlink⟩, ?_⟩
      tiles := ?_
      min_size := ?_ }
  · rw [first_eq hps hps₀]
    refine hlpre.congr fun x hx => hmem _ (.inl ?_)
    have h₁ := (hpre.bounds hx).2
    have h₂ := h.min_size x (by simp [hx])
    unfold headerSize at h₂
    omega
  · exact hlpost.congr fun x hx => hmem _ (.inr (hpost.bounds hx).1)
  · rw [haddr, hsize]
    exact tiles_append.mpr ⟨_, tiles_append.mpr ⟨_, hpre, hps⟩, hpost⟩
  · intro x hx
    simp only [List.mem_append] at hx
    rcases hx with (hx | hx) | hx
    · exact h.min_size x (by simp [hx])
    · exact hmin x hx
    · exact h.min_size x (by simp [hx])

theorem last_end (h : Listed heap (pre ++ [last])) :
    last.addr + last.size = heap.addr + heap.size := by
  obtain ⟨a, -, rfl, hlast⟩ := tiles_append.mp h.tiles
  exact hlast

end Listed

namespace Repr

theorem lock (h : Repr heap bs) (l : Bool) : Repr { heap with lock := l } bs := { h with }

variable {bs' : List Block}

/-- A list of blocks in a heap that stands where `heap` stands. -/
theorem of_listed (h : Repr heap bs) (haddr : heap'.addr = heap.addr)
    (hsize : heap'.size = heap.size) (hmax : heap'.maxSize = heap.maxSize)
    (hl : Listed heap' bs') : Repr heap' bs' where
  toListed := hl
  addr_page := haddr ▸ h.addr_page
  size_page := hsize ▸ h.size_page
  fits := by rw [haddr, hsize]; exact h.fits
  max_fits := by rw [haddr, hmax]; exact h.max_fits

/-- The end of a block is an address of the heap. -/
theorem end_le (h : Repr heap bs) (hb : b ∈ bs) :
    b.addr + b.size + 4 * pageSize ≤ wordMod := by
  have := (h.tiles.bounds hb).2
  have := h.fits
  omega

theorem heap_end_le (h : Repr heap bs) : heap.addr + heap.size ≤ wordMod :=
  (Nat.le_add_right _ _).trans h.fits

/-- **Moving the end of the heap.** The last block may be replaced by blocks `ps` that start where
it starts and reach `n` bytes further, when memory below it does not change. -/
theorem extend (h : Repr heap (pre ++ [last]))
    (haddr : heap'.addr = heap.addr) (hhead : heap'.head = heap.head)
    (hsize : heap'.size = heap.size + n) (hmax : heap'.maxSize = heap.maxSize)
    (hpage : n % pageSize = 0) (hfits : heap'.addr + heap'.size + 4 * pageSize ≤ wordMod)
    (hps : Tiles Block.addr Block.size last.addr ps (heap'.addr + heap'.size)) (hps₀ : ps ≠ [])
    (hmin : ∀ b ∈ ps, headerSize ≤ b.size)
    (hmem : ∀ x < last.addr, heap'.mem x = heap.mem x)
    (hlink : Linked heap'.mem ps 0) : Repr heap' (pre ++ ps) := by
  obtain ⟨a, hpre, hlast⟩ := tiles_append.mp h.tiles
  obtain rfl : last.addr = a := hlast.1
  have hlpre := (linked_append.mp h.linked).1
  have hfirst : ∀ z, firstOr ps z = last.addr := by
    intro z
    obtain _ | ⟨p, ps⟩ := ps
    · exact absurd rfl hps₀
    · exact hps.1
  refine
    { head_eq := by rw [hhead, haddr, h.head_eq]
      ne_nil := by simp [hps₀]
      linked := linked_append.mpr ⟨?_, hlink⟩
      tiles := tiles_append.mpr ⟨_, haddr ▸ hpre, hps⟩
      min_size := ?_
      addr_page := haddr ▸ h.addr_page
      size_page := by rw [hsize, Nat.add_mod, h.size_page, hpage]; rfl
      fits := hfits
      max_fits := by rw [haddr, hmax]; exact h.max_fits }
  · rw [hfirst]
    refine hlpre.congr fun x hx => hmem _ ?_
    have h₁ := (hpre.bounds hx).2
    have h₂ := h.min_size x (by simp [hx])
    unfold headerSize at h₂
    omega
  · intro x hx
    rcases List.mem_append.mp hx with hx | hx
    · exact h.min_size x (by simp [hx])
    · exact hmin x hx

end Repr

/-! ## Walks over a represented heap -/

section Walks

variable {heap : Heap} {bs pre post : List Block} {b : Block} {mem : ℕ → BlockHeader}

/-- `heap_is_free` on a listed block. -/
theorem heapIsFree_of_header {next : ℕ} (h : heap.mem b.addr = b.header next) :
    heapIsFree heap b.addr = .ok (!b.allocated) := by
  rw [heapIsFree, h]
  cases hb : b.allocated <;> simp [check, hb]

theorem walk_eq_of_linked (hpos : ∀ b ∈ bs, 0 < b.addr) (h : Linked mem bs 0)
    (hn : bs.length < n) : walk mem n (firstOr bs 0) = bs.map Block.addr := by
  induction bs generalizing n with
  | nil =>
    obtain ⟨n, rfl⟩ := Nat.exists_eq_add_of_lt hn
    simp [walk]
  | cons b bs ih =>
    obtain ⟨n, rfl⟩ : ∃ m, n = m + 1 := ⟨n - 1, by rw [List.length_cons] at hn; omega⟩
    have hb := hpos b (by simp)
    rw [firstOr_cons, walk, if_neg hb.ne', h.1, Block.header_next, List.map_cons,
      ih (fun c hc => hpos c (by simp [hc])) h.2 (by rw [List.length_cons] at hn; omega)]

/-- The walk along the links visits the blocks in order. -/
theorem Listed.blockAddrs_eq (h : Listed heap bs) : blockAddrs heap = bs.map Block.addr := by
  rw [blockAddrs, ← h.firstOr_eq]
  exact walk_eq_of_linked (fun b hb => h.addr_pos hb) h.linked h.length_lt_walkFuel

theorem lastBlockFrom_eq_of_linked (hpos : ∀ c ∈ pre ++ [b], 0 < c.addr)
    (h : Linked mem (pre ++ [b]) 0) (hn : (pre ++ [b]).length ≤ n) :
    lastBlockFrom mem n (firstOr (pre ++ [b]) 0) = .ok b.addr := by
  induction pre generalizing n with
  | nil =>
    obtain ⟨n, rfl⟩ : ∃ m, n = m + 1 := ⟨n - 1, by simp at hn; omega⟩
    have hb : mem b.addr = b.header 0 := h.1
    simp [lastBlockFrom, hb]
  | cons c pre ih =>
    obtain ⟨n, rfl⟩ : ∃ m, n = m + 1 := ⟨n - 1, by simp at hn; omega⟩
    have hc : mem c.addr = c.header (firstOr (pre ++ [b]) 0) := h.1
    have hpos' : ∀ d ∈ pre ++ [b], 0 < d.addr := fun d hd => hpos d (by simp_all)
    have hnext : firstOr (pre ++ [b]) 0 ≠ 0 := by
      obtain _ | ⟨d, pre⟩ := pre
      · exact (hpos' b (by simp)).ne'
      · exact (hpos' d (by simp)).ne'
    have hcpos := (hpos c (by simp)).ne'
    simp only [List.cons_append, firstOr_cons, lastBlockFrom, hc, Block.header_next, ne_eq, hcpos,
      not_false_eq_true, hnext, and_self, if_true, Block.isValidBlock_header]
    exact ih hpos' h.2 (by simp at hn ⊢; omega)

theorem Listed.lastBlock_eq (h : Listed heap (pre ++ [b])) : lastBlock heap = .ok b.addr := by
  rw [lastBlock, ← h.firstOr_eq]
  exact lastBlockFrom_eq_of_linked (fun c hc => h.addr_pos hc) h.linked h.length_lt_walkFuel.le

theorem prevBlockFrom_eq_of_linked {c : Block} (hpos : ∀ d ∈ pre ++ c :: b :: post, 0 < d.addr)
    (hne : ∀ d ∈ pre ++ [c], d.addr ≠ b.addr)
    (h : Linked mem (pre ++ c :: b :: post) 0) (hn : (pre ++ [c]).length ≤ n) :
    prevBlockFrom mem b.addr n (firstOr (pre ++ c :: b :: post) 0) = .ok c.addr := by
  induction pre generalizing n with
  | nil =>
    obtain ⟨n, rfl⟩ : ∃ m, n = m + 1 := ⟨n - 1, by simp at hn; omega⟩
    have hc : mem c.addr = c.header b.addr := h.1
    simp [prevBlockFrom, hc]
  | cons d pre ih =>
    obtain ⟨n, rfl⟩ : ∃ m, n = m + 1 := ⟨n - 1, by simp at hn; omega⟩
    have hd : mem d.addr = d.header (firstOr (pre ++ c :: b :: post) 0) := h.1
    have hnext : firstOr (pre ++ c :: b :: post) 0 ≠ b.addr := by
      obtain _ | ⟨d', pre⟩ := pre
      · exact hne c (by simp)
      · exact hne d' (by simp)
    have hdpos := (hpos d (by simp)).ne'
    simp only [List.cons_append, firstOr_cons, prevBlockFrom, hd, Block.header_next, ne_eq, hdpos,
      not_false_eq_true, hnext, and_self, if_true, Block.isValidBlock_header]
    exact ih (fun x hx => hpos x (by simp_all)) (fun x hx => hne x (by simp_all)) h.2
      (by simp at hn ⊢; omega)

end Walks

end Rastapopoulos.KernelHeap
