import Mathlib.Data.Fintype.Card
import Rastapopoulos.Vmm.Directories
import Rastapopoulos.Vmm.PageMap

/-!
# The frames that operations need

A page that is mapped needs a page table, and a page that is added to the heap needs a frame
besides. What an operation needs is known beforehand: a number of frames, and those for the pages in
the next answers of the heap. `Spends` says that so much has been used up, and `Starved` that so
much cannot be had, so that an operation stops.
-/

namespace Rastapopoulos.Vmm

open Paging
open KernelHeap (pageSize)

variable {m m' m₁ : Machine} {k k' k₁ : Kernel} {c c' n n' f t va pa : ℕ} {pages pages' : List ℕ}
  {flags : BitVec 32} {e : Fault} {regions : List Pmm.Region}

/-! ## Page tables -/

/-- There is no page table for the page. -/
def Missing (m : Machine) (va : ℕ) : Prop := target (m.mem m.cr3 (dirIndex va)) = none

instance (m : Machine) (va : ℕ) : Decidable (Missing m va) :=
  inferInstanceAs (Decidable (_ = none))

/-- The frames that `vmm_map` needs. -/
def tableCost (m : Machine) (va : ℕ) : ℕ := if Missing m va then 1 else 0

theorem tableCost_of_some (ht : target (m.mem m.cr3 (dirIndex va)) = some t) :
    tableCost m va = 0 :=
  if_neg fun hmissing : Missing m va => nomatch ht.symm.trans hmissing

theorem tableCost_of_missing (h : Missing m va) : tableCost m va = 1 := if_pos h

/-- The directory entries of the pages for which there is no page table. -/
def missingTables (m : Machine) (pages : List ℕ) : Finset (Fin 1024) :=
  Finset.univ.filter fun d => target (m.mem m.cr3 d) = none ∧ d ∈ pages.map dirIndex

/-- The frames that are needed to map pages to frames of their own: one for each page, and one for
each page table. -/
def framesNeeded (m : Machine) (pages : List ℕ) : ℕ :=
  pages.length + (missingTables m pages).card

theorem framesNeeded_nil : framesNeeded m [] = 0 := by simp [framesNeeded, missingTables]

theorem framesNeeded_singleton : framesNeeded m [va] = tableCost m va + 1 := by
  by_cases hmissing : Missing m va
  · have hone : missingTables m [va] = {dirIndex va} := by
      ext d
      simp only [missingTables, Finset.mem_filter, Finset.mem_univ, true_and, List.map_singleton,
        List.mem_singleton, Finset.mem_singleton]
      refine ⟨And.right, ?_⟩
      rintro rfl
      exact ⟨hmissing, rfl⟩
    rw [framesNeeded, hone, tableCost_of_missing hmissing]
    rfl
  · have hnone : missingTables m [va] = ∅ := by
      refine Finset.filter_eq_empty_iff.mpr fun d _ hd => hmissing ?_
      rw [List.map_singleton, List.mem_singleton] at hd
      obtain ⟨hd, rfl⟩ := hd
      exact hd
    rw [framesNeeded, hnone, tableCost, if_neg hmissing]
    rfl

theorem framesNeeded_le_append : framesNeeded m pages ≤ framesNeeded m (pages ++ pages') := by
  have hsub : missingTables m pages ⊆ missingTables m (pages ++ pages') := by
    intro d hd
    simp only [missingTables, Finset.mem_filter, Finset.mem_univ, true_and, List.map_append,
      List.mem_append] at hd ⊢
    exact ⟨hd.1, .inl hd.2⟩
  have hcard := Finset.card_le_card hsub
  simp only [framesNeeded, List.length_append]
  omega

/-- The page tables for `pages` are there, and no others have been added. -/
def Added (pages : List ℕ) (m m' : Machine) : Prop :=
  ∀ d, target (m'.mem m'.cr3 d) = none ↔ target (m.mem m.cr3 d) = none ∧ d ∉ pages.map dirIndex

theorem Added.refl (m : Machine) : Added [] m m := fun d => by simp

theorem Added.trans (h : Added pages m m₁) (h' : Added pages' m₁ m') :
    Added (pages ++ pages') m m' := by
  intro d
  rw [h' d, h d, List.map_append, List.mem_append, not_or, and_assoc]

/-- Page tables that have been added are not needed again. -/
theorem framesNeeded_append (h : Added pages m m') (pages' : List ℕ) :
    framesNeeded m (pages ++ pages') = framesNeeded m pages + framesNeeded m' pages' := by
  have hunion : missingTables m (pages ++ pages') =
      missingTables m pages ∪ missingTables m' pages' := by
    ext d
    simp only [missingTables, Finset.mem_union, Finset.mem_filter, Finset.mem_univ, true_and, h d,
      List.map_append, List.mem_append]
    tauto
  have hdisjoint : Disjoint (missingTables m pages) (missingTables m' pages') := by
    refine Finset.disjoint_left.mpr fun d hd hd' => ?_
    simp only [missingTables, Finset.mem_filter, Finset.mem_univ, true_and, h d] at hd hd'
    exact hd'.1.2 hd.2
  rw [framesNeeded, framesNeeded, framesNeeded, hunion, Finset.card_union_of_disjoint hdisjoint,
    List.length_append]
  omega

/-! ## Payment -/

/-- Some frames have been allocated: `c` of them, and those for `pages`. -/
structure Pays (c : ℕ) (pages : List ℕ) (m m' : Machine) : Prop where
  added : Added pages m m'
  supply : ∀ n, Pmm.provides (c + framesNeeded m pages + n) m.regions = Pmm.provides n m'.regions

/-- Why an operation stops that needs so many frames: they cannot be had, or the heap is no heap. -/
def Lacks (c : ℕ) (pages : List ℕ) (m : Machine) (e : Fault) : Prop :=
  e = .heap ∨ e = .assertion ∧ Pmm.provides (c + framesNeeded m pages) m.regions = false

theorem Lacks.mono (h : Lacks c pages m e) (hc : c ≤ c') : Lacks c' (pages ++ pages') m e := by
  refine h.imp_right fun ⟨he, hshort⟩ => ⟨he, ?_⟩
  rw [Bool.eq_false_iff] at hshort ⊢
  intro hall
  refine hshort (Pmm.provides_mono (Nat.add_le_add hc ?_) hall)
  exact framesNeeded_le_append

namespace Pays

theorem refl (m : Machine) : Pays 0 [] m m := by
  refine ⟨.refl m, fun n => ?_⟩
  rw [framesNeeded_nil, Nat.add_zero, Nat.zero_add]

theorem trans (h : Pays c pages m m₁) (h' : Pays c' pages' m₁ m') :
    Pays (c + c') (pages ++ pages') m m' := by
  refine ⟨h.added.trans h'.added, fun n => ?_⟩
  have hsum : c + c' + (framesNeeded m pages + framesNeeded m₁ pages') + n =
      c + framesNeeded m pages + (c' + framesNeeded m₁ pages' + n) := by omega
  rw [← h'.supply n, ← h.supply, framesNeeded_append h.added, hsum]

theorem lacks (h : Pays c pages m m₁) (hl : Lacks c' pages' m₁ e) :
    Lacks (c + c') (pages ++ pages') m e := by
  refine hl.imp_right fun ⟨he, hshort⟩ => ⟨he, ?_⟩
  have hsum : c + c' + (framesNeeded m pages + framesNeeded m₁ pages') =
      c + framesNeeded m pages + (c' + framesNeeded m₁ pages') := by omega
  rw [← hshort, ← h.supply, framesNeeded_append h.added, hsum]

/-- The entries of the directory and the frames in use are all that counts. -/
theorem congr (h : Pays c pages m m₁) (hdir : ∀ d, target (m'.mem m'.cr3 d) = target (m₁.mem m₁.cr3 d))
    (hregions : m'.regions = m₁.regions) : Pays c pages m m' := by
  refine ⟨fun d => ?_, fun n => ?_⟩
  · rw [hdir]
    exact h.added d
  · rw [hregions]
    exact h.supply n

theorem alloc (halloc : Pmm.pmmAlloc m.regions = .ok (regions, some f)) :
    Pays 1 [] m { m with regions := regions } := by
  refine ⟨.refl m, fun n => ?_⟩
  rw [framesNeeded_nil, Nat.add_zero, Nat.add_comm, Pmm.provides_of_alloc halloc]

end Pays

/-- A page table, and the frame for a page before it. -/
theorem Linked.pays (halloc : Pmm.pmmAlloc m.regions = .ok (regions, some f))
    (h : WellFormed { m with regions := regions })
    (hlink : Linked { m with regions := regions } va m₁ t) : Pays 0 [va] m m₁ := by
  refine ⟨fun d => ?_, fun n => ?_⟩
  · rw [hlink.target_eq h, List.map_singleton, List.mem_singleton]
    by_cases hd : d = dirIndex va
    · simp [hd]
    · simp [hd]
  · rw [framesNeeded_singleton, Nat.zero_add]
    cases hlink with
    | old ht =>
      replace ht : target (m.mem m.cr3 (dirIndex va)) = some t := ht
      rw [tableCost_of_some ht, Nat.zero_add, Nat.add_comm, Pmm.provides_of_alloc halloc]
    | new ht halloc' =>
      replace ht : target (m.mem m.cr3 (dirIndex va)) = none := ht
      rw [tableCost_of_missing ht, Nat.add_comm, ← Nat.add_assoc, Pmm.provides_of_alloc halloc,
        Pmm.provides_of_alloc halloc']

/-! ## Allocation and mapping -/

theorem allocFrame_ends (hs : ∀ region ∈ m.regions, region.Sound) :
    Ends (allocFrame m) (Lacks 1 [] m) fun r =>
      ∃ regions, Pmm.pmmAlloc m.regions = .ok (regions, some r.2) ∧
        r.1 = { m with regions := regions } := by
  refine ⟨fun hr => allocFrame_eq_ok.mp hr, fun {e} he => .inr ?_⟩
  have hshort : ∀ regions f, Pmm.pmmAlloc m.regions ≠ .ok (regions, some f) := by
    intro regions f halloc
    rw [allocFrame_eq_ok.mpr ⟨regions, halloc, rfl⟩] at he
    exact nomatch he
  refine ⟨?_, ?_⟩
  · rcases Pmm.pmmAlloc_cases hs with
      ⟨_, _, _, _, _, _, _, _, _, heq⟩ | ⟨-, heq⟩ | ⟨_, _, _, _, _, _, _, heq⟩
    · exact absurd heq (hshort _ _)
    · rw [allocFrame, alloc, heq] at he
      exact (Except.error.inj he).symm
    · rw [allocFrame, alloc, heq] at he
      exact (Except.error.inj he).symm
  · rw [framesNeeded_nil, Nat.add_zero, Bool.eq_false_iff]
    intro hsupply
    obtain ⟨regions, f, halloc, -⟩ := Pmm.exists_of_provides hsupply
    exact hshort regions f halloc

/-- **`vmm_map`** of a page that is not mapped stops only for want of a page table. -/
theorem vmmMap_ends (h : WellFormed m) (ha : va % pageSize = 0) (hpa : pa % pageSize = 0)
    (hflags : flags &&& vmmPagePresent ≠ 0) (hnone : translate m.mem m.cr3 va = none) :
    Ends (vmmMap m va pa flags) (Lacks (tableCost m va) [] m) fun m' =>
      ∃ m₁ t, Linked m va m₁ t ∧ ¬ Present (m₁.mem t (tableIndex va)) ∧
        m' = { m₁ with mem := m₁.mem.write t (tableIndex va) (entry pa flags) } := by
  refine ⟨fun hm' => (vmmMap_ok h hm').2.2.2, fun {e} he => ?_⟩
  rcases vmmMap_error h hpa hflags he with ⟨hc, -⟩ | ⟨t, ht, hpresent, -⟩ | ⟨ht, halloc⟩
  · exact absurd ha hc
  · rw [translate_of_target ht, target_eq_none] at hnone
    exact absurd hpresent hnone
  · rw [tableCost_of_missing ht]
    exact (allocFrame_ends h.sound).of_error halloc

/-! ## The kernel heap -/

/-- The pages in the next `n` answers of the heap. -/
def Kernel.heapPages (k : Kernel) (n : ℕ) : List ℕ := (k.answers.take n).flatMap Answer.growth

theorem heapPages_add (h : k'.answers = k.answers.drop n) (n' : ℕ) :
    k.heapPages (n + n') = k.heapPages n ++ k'.heapPages n' := by
  rw [Kernel.heapPages, Kernel.heapPages, Kernel.heapPages, h, ← List.flatMap_append,
    ← List.take_add]

/-- `n` answers and `c` frames have been used up, and the frames for the pages in the answers. -/
structure Spends (n c : ℕ) (k k' : Kernel) : Prop where
  answers : k'.answers = k.answers.drop n
  pays : Pays c (k.heapPages n) k.toMachine k'.toMachine

/-- An operation stops that needs so much. -/
def Starved (n c : ℕ) (k : Kernel) (e : Fault) : Prop := Lacks c (k.heapPages n) k.toMachine e

theorem Starved.mono (h : Starved n c k e) (hn : n ≤ n') (hc : c ≤ c') : Starved n' c' k e := by
  obtain ⟨d, rfl⟩ := Nat.exists_eq_add_of_le hn
  have hdrop : ({ k with answers := k.answers.drop n } : Kernel).answers = k.answers.drop n := rfl
  rw [Starved, heapPages_add hdrop]
  exact Lacks.mono h hc

namespace Spends

theorem refl (k : Kernel) : Spends 0 0 k k := ⟨rfl, .refl _⟩

theorem set (h : Pays c [] k.toMachine m) : Spends 0 c k (k.set m) := ⟨rfl, h⟩

theorem trans (h : Spends n c k k₁) (h' : Spends n' c' k₁ k') : Spends (n + n') (c + c') k k' := by
  refine ⟨?_, ?_⟩
  · rw [h'.answers, h.answers, List.drop_drop]
  · rw [heapPages_add h.answers]
    exact h.pays.trans h'.pays

theorem starved (h : Spends n c k k₁) (hs : Starved n' c' k₁ e) :
    Starved (n + n') (c + c') k e := by
  rw [Starved, heapPages_add h.answers]
  exact h.pays.lacks hs

end Spends

end Rastapopoulos.Vmm
