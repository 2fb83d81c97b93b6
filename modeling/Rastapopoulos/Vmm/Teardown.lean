import Rastapopoulos.Vmm.Cloning
import Rastapopoulos.Vmm.Tasks

/-!
# Emptying, destroying and switching

The pages of a page table are freed, then the page table itself. Before that its entry in the
directory stops to count, so that nothing leads to the frames when they are freed.
-/

namespace Rastapopoulos.Vmm

open Paging Function
open KernelHeap (pageSize)

variable {role role' : ℕ → Role} {live live' : ℕ → Fin 1024 → Prop} {dirs : List ℕ}
  {pins : List (ℕ × ℕ)} {k k' : Kernel} {m m' : Machine} {a d f n t va table : ℕ} {i j : Fin 1024}
  {e : Fault}

/-- The heap is why an operation stops: it is no heap, or it grows. -/
def HeapFault (k : Kernel) (e : Fault) : Prop :=
  e = .heap ∨ e = .assertion ∧ ∃ x ∈ k.answers, x.growth ≠ []

theorem Starved.heapFault (h : Starved n 0 k e) : HeapFault k e := by
  refine h.imp_right fun ⟨he, hshort⟩ => ⟨he, ?_⟩
  by_contra hc
  push Not at hc
  have hpages : k.heapPages n = [] :=
    List.flatMap_eq_nil_iff.mpr fun x hx => hc x (List.mem_of_mem_take hx)
  rw [hpages, framesNeeded_nil] at hshort
  exact nomatch hshort

theorem HeapFault.mono (h : HeapFault k' e) (hsub : k'.answers ⊆ k.answers) : HeapFault k e :=
  h.imp_right fun ⟨he, x, hx, hgrowth⟩ => ⟨he, x, hsub hx, hgrowth⟩

namespace Inv

/-- **The pages of a page table are freed**, once nothing leads to the page table. -/
theorem freePages (h : Inv role live dirs pins k) (ht : role t = .loose)
    (htable : ∀ j : Fin 1024, translate k.mem k.cr3 (table + 4 * j) = some t ∧
      wordIndex (table + 4 * j) = j)
    (hpages : ∀ j f, target (k.mem t j) = some f → role f = .page t j) :
    ∃ regions role', (List.finRange 1024).foldlM (Vmm.freePages table) k.toMachine =
        .ok { k.toMachine with regions := regions } ∧
      (∀ g, Pmm.Page regions g ↔ Pmm.Page k.regions g) ∧
      Inv role' live dirs pins (k.set { k.toMachine with regions := regions }) ∧
      role' t = .loose ∧ (∀ j g, target (k.mem t j) = some g → role' g = .free) ∧
      ∀ g, (∀ j, target (k.mem t j) ≠ some g) → role' g = role g := by
  -- the pages of the entries that are not in the rest of the loop have been freed
  have hloop := exists_foldlM (f := Vmm.freePages table) (l := List.finRange 1024) (b := k.toMachine)
    (P := fun rest m => rest.Nodup ∧ ∃ regions role', m = { k.toMachine with regions := regions } ∧
      (∀ g, Pmm.Page regions g ↔ Pmm.Page k.regions g) ∧
      Inv role' live dirs pins (k.set { k.toMachine with regions := regions }) ∧
      role' t = .loose ∧ (∀ j g, j ∉ rest → target (k.mem t j) = some g → role' g = .free) ∧
      ∀ g, (∀ j, j ∉ rest → target (k.mem t j) ≠ some g) → role' g = role g)
    ?_ ⟨List.nodup_finRange _, k.regions, role, rfl, fun _ => Iff.rfl, h, ht,
      fun j _ hj => absurd (List.mem_finRange j) hj, fun _ _ => rfl⟩
  · obtain ⟨m, hm, -, regions, role', rfl, hpage', h', ht', hfreed, hkept⟩ := hloop
    exact ⟨regions, role', hm, hpage', h', ht', fun j g => hfreed j g List.not_mem_nil,
      fun g hg => hkept g fun j _ => hg j⟩
  · rintro j rest m ⟨hnodup, regions, role₁, rfl, hpage₁, h₁, ht₁, hfreed, hkept⟩
    obtain ⟨hj, hnodup⟩ := List.nodup_cons.mp hnodup
    obtain ⟨htr, hidx⟩ := htable j
    have hread : readWord { k.toMachine with regions := regions } (table + 4 * j) =
        .ok (k.mem t j) := by
      refine (readWord_of (m := { k.toMachine with regions := regions }) htr).trans ?_
      rw [hidx]
    rw [Vmm.freePages, hread, ok_bind]
    split
    · rename_i hpresent
      have hf : target (k.mem t j) = some (frameOf (k.mem t j)) :=
        hpresent.target
      set f := frameOf (k.mem t j)
      -- the page has not been freed yet
      have hrole : role₁ f = .page t j := by
        rw [hkept f fun j' hj' hf' => ?_, hpages j f hf]
        obtain ⟨-, rfl⟩ := Role.page.inj ((hpages j f hf).symm.trans (hpages j' f hf'))
        exact hj' (.head _)
      obtain ⟨regions₂, hfree, hfrees, h₂⟩ := h₁.free
        (h₁.refs.unref_page hrole (by rw [ht₁]; nofun)) (by rw [hrole]; trivial)
      have htf : t ≠ f := fun heq => by rw [← heq, ht₁] at hrole; exact nomatch hrole
      refine ⟨_, hfree, hnodup, regions₂, _, rfl, fun g => (hfrees.page_iff g).trans (hpage₁ g), h₂,
        (update_of_ne htf _ _).trans ht₁, fun j' g hj' hg => ?_, fun g hg => ?_⟩
      · by_cases hgf : g = f
        · rw [hgf, update_self]
        · rw [update_of_ne hgf]
          refine hfreed j' g (fun hmem => ?_) hg
          rcases List.mem_cons.mp hmem with rfl | hmem
          · exact hgf (Option.some.inj (hg.symm.trans hf))
          · exact hj' hmem
      · rw [update_of_ne fun heq : g = f => hg j hj (heq ▸ hf)]
        exact hkept g fun j' hj' => hg j' fun hc => hj' (.tail _ hc)
    · rename_i habsent
      refine ⟨_, rfl, hnodup, regions, role₁, rfl, hpage₁, h₁, ht₁, fun j' g hj' hg => ?_,
        fun g hg => hkept g fun j' hj' => hg j' fun hc => hj' (.tail _ hc)⟩
      refine hfreed j' g (fun hmem => ?_) hg
      rcases List.mem_cons.mp hmem with rfl | hmem
      · exact habsent (target_eq_some.mp hg).1
      · exact hj' hmem

/-- A page table whose entry does not count any more is a frame in hand. -/
theorem loosen (h : Inv role live dirs pins k) (ht : role t = .table d i)
    (hlive : live d i → target (k.mem d i) ≠ some t) :
    Inv (update role t .loose) live dirs pins k ∧
      ∀ j f, target (k.mem t j) = some f → update role t .loose f = .page t j := by
  refine ⟨h.relabel_of (h.refs.unref_table ht hlive) (by rw [ht]; nofun) (by nofun) (by nofun)
    (fun _ => by rw [ht]; trivial) (by nofun) (by simp), fun j f hf => ?_⟩
  have hrole := h.refs.page t d i ht j f hf
  rw [update_of_ne, hrole]
  rintro rfl
  exact nomatch ht.symm.trans hrole

/-- **An entry of the current directory is reset.** -/
theorem resetPde (h : Inv role live dirs pins k) (hcur : Current live k.toMachine) (hi : i < 768) :
    ∃ m role', Vmm.resetPde k.toMachine i = .ok m ∧ Inv role' live dirs pins (k.set m) ∧
      m.cr3 = k.cr3 ∧ Shares dirs k.toMachine dirs m := by
  have hself : target (k.mem k.cr3 1023) = some k.cr3 := h.refs.self
  rw [Vmm.resetPde, readWord_pagedirEntry hself, ok_bind]
  split
  · rename_i hpresent
    have hpde : target (k.mem k.cr3 i) = some (frameOf (k.mem k.cr3 i)) :=
      hpresent.target
    set t := frameOf (k.mem k.cr3 i)
    have ht := (h.refs.live _ i (hcur i hi)).2.2 t hpde
    have h₀ : Inv role (fun d i' => live d i' ∧ ¬ (d = k.cr3 ∧ i' = i)) dirs pins k :=
      h.mono (fun _ _ => And.left) (fun _ => id) h.refs.cr3_mem fun _ => id
    obtain ⟨h₁, hpages₁⟩ := h₀.loosen ht fun hl => absurd ⟨rfl, rfl⟩ hl.2
    have htable : ∀ j : Fin 1024, translate k.mem k.cr3 (getPagetable ⟨i, 0⟩ + 4 * j) = some t ∧
        wordIndex (getPagetable ⟨i, 0⟩ + 4 * j) = j := fun j => by
      obtain ⟨htr, hidx⟩ := translate_window hself i j
      exact ⟨htr.trans hpde, hidx⟩
    obtain ⟨regions₂, role₂, hok₂, -, h₂, ht₂, -⟩ :=
      h₁.freePages (update_self ..) htable hpages₁
    obtain ⟨regions₃, hok₃, -, h₃⟩ := h₂.free (h₂.refs.unref_of_free (.inr ht₂))
      (by rw [ht₂]; trivial)
    have hok₃' : freeFrame { k.toMachine with regions := regions₂ } t =
        .ok { k.toMachine with regions := regions₃ } := hok₃
    have hok₄ : Vmm.writeWord { k.toMachine with regions := regions₃ } (pagedirEntry i) 0 =
        .ok { k.toMachine with regions := regions₃, mem := k.mem.write k.cr3 i 0 } :=
      writeWord_pagedirEntry (m := { k.toMachine with regions := regions₃ }) hself i
    have hdir := h₃.refs.cr3_dir
    have h₄ := h₃.write_pde (w := 0) hdir hi fun hl => absurd ⟨rfl, rfl⟩ hl.2
    rw [hok₂, ok_bind, hok₃', ok_bind, hok₄]
    -- the entry counts again
    refine ⟨_, _, rfl, h₄.enliven fun d i' hl => ?_, rfl,
      .of_eq rfl h.refs.cr3_mem (fun _ => id) fun d hd i' hi' => ?_⟩
    · by_cases heq : d = k.cr3 ∧ i' = i
      · obtain ⟨rfl, rfl⟩ := heq
        refine .inr ⟨hi, hdir, ?_⟩
        show target (k.mem.write k.cr3 i' 0 k.cr3 i') = none
        rw [Memory.write_same]
        rfl
      · exact .inl ⟨hl, heq⟩
    · exact Memory.write_of_index_ne fun heq => hi'.not_lt (heq ▸ hi)
  · exact ⟨_, role, rfl, h, rfl, .of_eq rfl h.refs.cr3_mem (fun _ => id) fun _ _ _ _ => rfl⟩

/-- **The current directory is emptied.** -/
theorem vmmResetCurrentPagedir (h : Inv role live dirs pins k) (hcur : Current live k.toMachine) :
    ∃ m role', Vmm.vmmResetCurrentPagedir k.toMachine = .ok m ∧ Inv role' live dirs pins (k.set m) ∧
      m.cr3 = k.cr3 ∧ Shares dirs k.toMachine dirs m := by
  have hloop := exists_foldlM (f := Vmm.resetPde)
    (b := k.toMachine) (l := userPdes.filter (· < 767))
    (P := fun rest m => (∀ i ∈ rest, i < 768) ∧ ∃ role',
      Inv role' live dirs pins (k.set m) ∧ m.cr3 = k.cr3 ∧ Shares dirs k.toMachine dirs m)
    ?_ ⟨fun i hi => mem_userPdes.mp (List.mem_filter.mp hi).1, role, h, rfl,
      .of_eq rfl h.refs.cr3_mem (fun _ => id) fun _ _ _ _ => rfl⟩
  · obtain ⟨m, hm, -, role', h', hcr3, hshares⟩ := hloop
    exact ⟨m, role', hm, h', hcr3, hshares⟩
  · rintro i rest m₁ ⟨hrest, role₁, h₁, hcr3₁, hshares₁⟩
    obtain ⟨hi, hrest⟩ := List.forall_mem_cons.mp hrest
    obtain ⟨m₂, role₂, hok, h₂, hcr3₂, hshares₂⟩ := h₁.resetPde (hcur.congr hcr3₁) hi
    exact ⟨m₂, hok, hrest, role₂, h₂, hcr3₂.trans hcr3₁, hshares₁.trans hshares₂⟩

/-- The frames under an entry have roles that name the entry. -/
theorem role_under (h : Inv role live dirs pins k) (hl : live d i) (hf : f ∈ Under k.mem d i) :
    role f = .table d i ∨ ∃ t j, role t = .table d i ∧ role f = .page t j := by
  obtain ⟨t, ht, hf⟩ := hf
  have hrole := (h.refs.live d i hl).2.2 t ht
  rcases hf with rfl | ⟨j, hj⟩
  · exact .inl hrole
  · exact .inr ⟨t, j, hrole, h.refs.page t d i hrole j f hj⟩

/-- **An entry of a directory that is not the current one is destroyed.** It stays, and does not
count any more. -/
theorem destroyPde (h : Inv role live dirs pins k) (hcur : Current live k.toMachine)
    (hp : (a, d) ∈ pins) (hne : d ≠ k.cr3) (hl : live d i) :
    Ends (Vmm.destroyPde a k i) (HeapFault k) fun k' => Same k k' ∧ k'.answers ⊆ k.answers ∧
      ∃ role', Inv role' (fun e i' => live e i' ∧ ¬ (e = d ∧ i' = i)) dirs pins k' ∧
      (∀ g ∈ Under k.mem d i, role' g = .free) ∧
      Preserves (Under k.mem d i) ∅ ∅ role k.toMachine role' k'.toMachine := by
  have h₀ : Inv role (fun e i' => live e i' ∧ ¬ (e = d ∧ i' = i)) dirs pins k :=
    h.mono (fun _ _ => And.left) (fun _ => id) h.refs.cr3_mem fun _ => id
  have hcur₀ : Current (fun e i' => live e i' ∧ ¬ (e = d ∧ i' = i)) k.toMachine :=
    fun i' hi' => ⟨hcur i' hi', fun hc => hne hc.1.symm⟩
  rw [Vmm.destroyPde, h.readWord_pin hp, ok_bind]
  split
  · rename_i hpresent
    have hpde : target (k.mem d i) = some (frameOf (k.mem d i)) :=
      hpresent.target
    set t := frameOf (k.mem d i)
    have ht := (h.refs.live d i hl).2.2 t hpde
    have htU : t ∈ Under k.mem d i := ⟨t, hpde, .inl rfl⟩
    refine ((h₀.vmmTransientMap hcur₀ (frameOf_mod _) frameOf_lt (by decide) (by decide)).mono
      (fun _ => Starved.heapFault) fun _ => id).bind ?_
    rintro ⟨k₁, table⟩ ⟨hsp₁, role₁, e₁, hop, h₁, hp₁⟩
    dsimp only at hsp₁ hop h₁ hp₁ ⊢
    have ht₁ : role₁ t = .table d i := by
      rw [hp₁.keep t (Set.notMem_empty _) (by rw [ht]; nofun), ht]
    have hmem₁ : k₁.mem t = k.mem t := hp₁.content t (Set.notMem_empty _) (by rw [ht]; trivial)
    obtain ⟨h₁', hpages₁⟩ := h₁.loosen ht₁ fun hl => absurd ⟨rfl, rfl⟩ hl.2
    obtain ⟨regions₂, role₂, hok₂, hpage₂, h₂, ht₂, hfreed, hkept⟩ := h₁'.freePages
      (update_self ..) (h₁'.translate_pin (.head _)) hpages₁
    rw [hok₂, ok_bind]
    have hp₂ : Preserves (Under k.mem d i) ∅ ∅ role₁ k₁.toMachine role₂
        { k₁.toMachine with regions := regions₂ } := by
      refine .regions hpage₂ fun g hg => ?_
      rw [hkept g fun j hj => hg ⟨t, hpde, .inr ⟨j, hmem₁ ▸ hj⟩⟩]
      exact update_of_ne (fun heq : g = t => hg (heq ▸ htU)) _ _
    obtain ⟨k₃, hun, hs₃, hsp₃, h₃, hp₃, -⟩ := h₀.vmmTransientUnmap hcur₀ hop hp₁ h₂ (.set rfl) hp₂
    rw [hun, ok_bind]
    obtain ⟨regions₄, hok₄, hfrees₄, h₄⟩ := h₃.free (h₃.refs.unref_of_free (.inr ht₂))
      (by rw [ht₂]; trivial)
    rw [hok₄]
    refine .ok ⟨hs₃.trans (.set rfl), fun x hx => ?_, _, h₄, fun g hg => ?_, ?_⟩
    · replace hx : x ∈ k₃.answers := hx
      rw [hsp₃.answers] at hx
      replace hx : x ∈ k₁.answers := hx
      rw [hsp₁.answers] at hx
      exact List.mem_of_mem_drop hx
    · obtain ⟨t', ht', hg⟩ := hg
      obtain rfl := Option.some.inj (hpde.symm.trans ht')
      by_cases hgt : g = t
      · rw [hgt, update_self]
      · obtain ⟨j, hj⟩ := hg.resolve_left hgt
        rw [update_of_ne hgt, hfreed j g (hmem₁.symm ▸ hj)]
    · exact hp₃.trans (.regions hfrees₄.page_iff fun g hg =>
        update_of_ne (fun heq : g = t => hg (heq ▸ htU)) _ _)
  · rename_i habsent
    refine .ok ⟨.refl k, fun _ => id, role, h₀, fun g hg => ?_, .refl ..⟩
    obtain ⟨t, ht, -⟩ := hg
    exact absurd (target_eq_some.mp ht).1 habsent

/-- **A directory that is not the current one is destroyed.** Its frame is a page of the heap again,
and the frames of its user's half are free, unless the heap has grown by them. -/
theorem vmmDestroyPagedir {dirs' : List ℕ} {pins' : List (ℕ × ℕ)}
    (h : Inv role live dirs pins k) (hcur : Current live k.toMachine) (hp : (a, d) ∈ pins)
    (hne : d ≠ k.cr3) (hl : ∀ i, i < 768 → live d i) (hd : d ∈ dirs)
    (hdirs : ∀ e ∈ dirs', e ∈ dirs ∧ e ≠ d) (hcr3 : k.cr3 ∈ dirs')
    (hpins : ∀ p ∈ pins', p ∈ pins ∧ p.1 ≠ a) (hmaps : k.transientMaps = []) :
    Ends (Vmm.vmmDestroyPagedir k a) (HeapFault k) fun k' => k'.cr3 = k.cr3 ∧
      k'.transientMaps = [] ∧ ∃ role', role' d = .kernelPage a ∧
      Inv role' (fun e i => live e i ∧ e ≠ d) dirs' pins' k' ∧
      (∀ g ∈ owned k.mem d, role' g = .free ∨ (role' g).Kernel) ∧
      Preserves (insert d (owned k.mem d)) ∅ ∅ role k.toMachine role' k'.toMachine := by
  have hdir := (h.refs.dirs d hd).1
  -- the frames under entries that are not in the rest of the loop have been freed
  have hloop : Ends (userPdes.foldlM (Vmm.destroyPde a) k) (HeapFault k) fun k' => Same k k' ∧
      ∃ role', Inv role' (fun e i => live e i ∧ e ≠ d) dirs pins k' ∧
      (∀ g ∈ owned k.mem d, role' g = .free ∨ (role' g).Kernel) ∧
      Preserves (owned k.mem d) ∅ ∅ role k.toMachine role' k'.toMachine := by
    refine Ends.mono (Ends.foldlM (P := fun rest k' => rest.Nodup ∧ (∀ i ∈ rest, i < 768) ∧
      Same k k' ∧ k'.answers ⊆ k.answers ∧
      ∃ role', Inv role' (fun e i => live e i ∧ (e = d → i ∈ rest)) dirs pins k' ∧
      (∀ i, i < 768 → i ∉ rest → ∀ g ∈ Under k.mem d i, role' g = .free ∨ (role' g).Kernel) ∧
      Preserves {g | ∃ i, i < 768 ∧ i ∉ rest ∧ g ∈ Under k.mem d i} ∅ ∅ role k.toMachine role'
        k'.toMachine) (fun i rest k₁ hP => ?_) ?_) (fun _ => id) ?_
    · obtain ⟨hnodup, hrest, hs₁, hanswers, role₁, h₁, hfreed, hp₁⟩ := hP
      obtain ⟨hmem, hnodup⟩ := List.nodup_cons.mp hnodup
      obtain ⟨hi, hrest⟩ := List.forall_mem_cons.mp hrest
      have hcur₁ : Current (fun e i' => live e i' ∧ (e = d → i' ∈ i :: rest)) k₁.toMachine :=
        fun i' hi' => ⟨hcur.congr hs₁.cr3 i' hi', fun heq => absurd (heq.symm.trans hs₁.cr3) hne⟩
      -- what is under the entry has been left alone
      have hdone : ∀ {g}, role g = .directory ∨ role g = .table d i →
          g ∉ {g | ∃ i', i' < 768 ∧ i' ∉ i :: rest ∧ g ∈ Under k.mem d i'} := by
        rintro g hg ⟨i', hi', hnot, hunder⟩
        rcases h.role_under (hl i' hi') hunder with hr | ⟨t, j, -, hr⟩
        · rw [hr] at hg
          obtain ⟨-, rfl⟩ := Role.table.inj (hg.resolve_left (by nofun))
          exact hnot (.head _)
        · rw [hr] at hg
          exact hg.elim nofun nofun
      have hunder : Under k₁.mem d i = Under k.mem d i := by
        refine Under_congr ?_ fun t ht => ?_
        · exact (hp₁.pde d (hdone (.inl hdir)) hdir i).resolve_right fun hc => hne hc.1
        · have hrole := (h.refs.live d i (hl i hi)).2.2 t ht
          exact hp₁.content t (hdone (.inr hrole)) (by rw [hrole]; trivial)
      refine (h₁.destroyPde hcur₁ hp (hs₁.cr3.symm ▸ hne)
        ⟨hl i hi, fun _ => .head _⟩).mono (fun e he => he.mono hanswers) ?_
      rintro k₂ ⟨hs₂, hanswers₂, role₂, h₂, hfreed₂, hp₂⟩
      rw [hunder] at hfreed₂ hp₂
      refine ⟨hnodup, hrest, hs₁.trans hs₂, fun x hx => hanswers (hanswers₂ hx), role₂,
        h₂.mono (fun e i' hl' => ?_) (fun _ => id) h₂.refs.cr3_mem fun _ => id,
        fun i' hi' hnot g hg => ?_, ?_⟩
      · refine ⟨⟨hl'.1, fun heq => .tail _ (hl'.2 heq)⟩, ?_⟩
        rintro ⟨rfl, rfl⟩
        exact hmem (hl'.2 rfl)
      · by_cases hgi : g ∈ Under k.mem d i
        · exact .inl (hfreed₂ g hgi)
        · have hii : i' ∉ i :: rest := by
            intro hc
            rcases List.mem_cons.mp hc with rfl | hc
            · exact hgi hg
            · exact hnot hc
          rcases hfreed i' hi' hii g hg with hfree | hkernel
          · exact hp₂.fresh g hgi (Set.notMem_empty _) hfree
          · refine .inr ?_
            rw [hp₂.keep g hgi fun hc => by rw [hc] at hkernel; exact hkernel]
            exact hkernel
      · refine (hp₁.mono ?_ subset_rfl subset_rfl).trans
          (hp₂.mono ?_ subset_rfl subset_rfl)
        · rintro g ⟨i', hi', hnot, hg⟩
          exact ⟨i', hi', fun hc => hnot (.tail _ hc), hg⟩
        · exact fun g hg => ⟨i, hi, hmem, hg⟩
    · refine ⟨nodup_userPdes, fun _ => mem_userPdes.mp, .refl k, fun _ => id, role,
        h.mono (fun e i hl => hl.1) (fun _ => id) h.refs.cr3_mem fun _ => id, fun i hi hnot => ?_,
        .refl ..⟩
      exact absurd (mem_userPdes.mpr hi) hnot
    · rintro k' ⟨-, -, hs, -, role', h', hfreed, hp'⟩
      refine ⟨hs, role', h'.mono (fun e i hl => ⟨hl.1, fun heq => absurd heq hl.2⟩) (fun _ => id)
        h'.refs.cr3_mem fun _ => id, ?_, hp'.mono ?_ subset_rfl subset_rfl⟩
      · rintro g ⟨i, hi, hg⟩
        exact hfreed i hi List.not_mem_nil g hg
      · rintro g ⟨i, hi, -, hg⟩
        exact ⟨i, hi, hg⟩
  refine hloop.bind ?_
  rintro k₁ ⟨hs, role₁, h₁, hfreed, hp₁⟩
  -- nothing leads to the directory but the page of the heap
  have hd₁ := (h₁.refs.dirs d hd).1
  have h₂ : Inv role₁ (fun e i => live e i ∧ e ≠ d) dirs' pins' k₁ :=
    h₁.mono (fun _ _ => id) (fun e he => (hdirs e he).1) (hs.cr3.symm ▸ hcr3) fun p hp =>
      (hpins p hp).1
  have hunref := h₂.refs.unref_directory hd₁ (fun e i hl => hl.2) fun e he => (hdirs e he).2
  obtain ⟨-, hpage, htr⟩ := h₁.refs.pins _ hp
  have hnomaps : ∀ x ∈ k₁.transientMaps, x.address ≠ a := by
    rw [hs.maps, hmaps]
    nofun
  have hbacks : Backs k₁ d a := ⟨hpage, fun x hx heq => absurd heq (hnomaps x hx), fun _ => htr⟩
  have h₃ := h₂.relabel_of hunref (by rw [hd₁]; nofun) (r := .kernelPage a) (by nofun) (by nofun) nofun
    (fun va heq => Role.kernelPage.inj heq ▸ hbacks) (by simp)
  have hne' : ∀ g ∈ owned k.mem d, g ≠ d := by
    rintro g ⟨i, hi, hg⟩ rfl
    rcases h.role_under (hl i hi) hg with hr | ⟨_, _, -, hr⟩ <;> exact nomatch hdir.symm.trans hr
  refine .ok ⟨hs.cr3, hs.maps.trans hmaps, _, update_self .., h₃.release
    (fun p hp => (hpins p hp).2) hnomaps fun f hf => ?_, fun g hg => ?_, ?_⟩
  · obtain rfl := Option.some.inj (htr.symm.trans hf)
    exact update_self ..
  · rw [update_of_ne (hne' g hg)]
    exact hfreed g hg
  · exact (hp₁.mono (Set.subset_insert _ _) subset_rfl subset_rfl).trans
      (.relabel (Set.mem_insert ..) _)

/-- **Another task's directory becomes the current one.** -/
theorem taskSwitch {task : Task} (h : Inv role live dirs pins k) (hcur : Current live k.toMachine)
    (hp : (task.pagedir, task.cr3) ∈ pins) (hd : task.cr3 ∈ dirs)
    (hok : Vmm.taskSwitch k.toMachine task = .ok m) :
    Inv role live dirs pins (k.set m) ∧ m = { k.toMachine with
      cr3 := task.cr3,
      mem := update k.mem task.cr3 (kernelHalf k.mem k.cr3 task.cr3) } := by
  have hdir := (h.refs.dirs _ hd).1
  obtain ⟨hcopy, h₁⟩ := h.copyPdes hdir hp
  have hcur₁ : Current live { k.toMachine with
      mem := update k.mem task.cr3 (kernelHalf k.mem k.cr3 task.cr3) } := hcur
  simp only [Vmm.taskSwitch, vmmCopyKernelMappings, hcopy, ok_bind, bind_eq_ok, check_eq_ok,
    pure_inj] at hok
  obtain ⟨_, ⟨-, -, pa, hpa, pde, hpde, -, hframe, -, hpresent, -, -, rfl⟩, rfl⟩ := hok
  obtain rfl := Except.ok.inj ((h₁.vmmGetPhysical_pin hcur₁ hp).symm.trans hpa)
  obtain rfl := Except.ok.inj ((h₁.readWord_pin hp 1023).symm.trans hpde)
  set mem := update k.mem task.cr3 (kernelHalf k.mem k.cr3 task.cr3)
  -- the kernel's half is the same as before
  have hcopied : ∀ i, KernelIndex i → mem task.cr3 i = mem k.cr3 i := by
    intro i hi
    rw [show mem task.cr3 = _ from update_self .., kernelHalf, if_pos hi]
    by_cases heq : k.cr3 = task.cr3
    · rw [heq, show mem task.cr3 = _ from update_self .., kernelHalf, if_pos hi, heq]
    · rw [show mem k.cr3 = _ from update_of_ne heq ..]
  have htranslate : ∀ {va}, KernelPage va →
      translate mem task.cr3 va = translate mem k.cr3 va := by
    intro va hva
    rw [Paging.translate, Paging.translate, hcopied _ hva.index]
  refine ⟨⟨h₁.paging, h₁.frames, { h₁.refs with
    self := target_eq_some.mpr ⟨hpresent, hframe⟩
    cr3_mem := hd
    pins := fun p hp => ?_ }, fun t i ht => ?_, fun f va hf => ?_⟩, rfl⟩
  · obtain ⟨hheld, hpage, htr⟩ := h₁.refs.pins p hp
    exact ⟨hheld, hpage, (htranslate hpage).trans htr⟩
  · obtain ⟨hi, hti⟩ := h₁.kernel t i ht
    exact ⟨hi, (congrArg target (hcopied i hi)).trans hti⟩
  · have hbacks := h₁.backs f va hf
    exact hbacks.congr rfl (htranslate hbacks.page)

/-- Nothing is in the way of a switch to a directory that refers to itself. -/
theorem taskSwitch_of_self {task : Task} (h : Inv role live dirs pins k)
    (hcur : Current live k.toMachine) (hp : (task.pagedir, task.cr3) ∈ pins) (hd : task.cr3 ∈ dirs)
    (hself : k.mem task.cr3 1023 = entry task.cr3 (vmmPagePresent ||| vmmPageWritable)) :
    ∃ m, Vmm.taskSwitch k.toMachine task = .ok m := by
  obtain ⟨hcopy, h₁⟩ := h.copyPdes (h.refs.dirs _ hd).1 hp
  set m₁ := { k.toMachine with
    mem := update k.mem task.cr3 (kernelHalf k.mem k.cr3 task.cr3) }
  have hpa : vmmGetPhysical m₁ task.pagedir = .ok task.cr3 := h₁.vmmGetPhysical_pin hcur hp
  have hpde : readWord m₁ (task.pagedir + 4 * (1023 : Fin 1024)) = .ok (m₁.mem task.cr3 1023) :=
    h₁.readWord_pin hp 1023
  have hentry : m₁.mem task.cr3 1023 = entry task.cr3 (vmmPagePresent ||| vmmPageWritable) := by
    show update k.mem task.cr3 _ task.cr3 1023 = _
    rw [update_self, kernelHalf, if_neg (by decide), hself]
  obtain ⟨-, hpage, htr⟩ := h₁.refs.pins _ hp
  have hwritable : entry task.cr3 (vmmPagePresent ||| vmmPageWritable) &&& vmmPageWritable ≠ 0 := by
    intro hzero
    have hbit := congrArg (BitVec.getLsbD · 1) hzero
    simp [entry, vmmPageWritable] at hbit
  have htarget : target (entry task.cr3 (vmmPagePresent ||| vmmPageWritable)) = some task.cr3 :=
    target_entry (translate_mod htr) (translate_lt htr) (by decide) (by decide)
  obtain ⟨hpresent, hframe⟩ := target_eq_some.mp htarget
  refine ⟨{ m₁ with cr3 := task.cr3 }, ?_⟩
  rw [Vmm.taskSwitch, vmmCopyKernelMappings, check_of _ hpage.2.2, ok_bind, hcopy, ok_bind, hpa,
    ok_bind, hpde, ok_bind, hentry, check_of _ hframe, ok_bind, check_of _ hpresent, ok_bind,
    check_of _ hwritable]
  rfl

end Inv

/-- The kernel's half of the directory is that of the one before. -/
theorem taskSwitch_shares {task : Task} : Shares dirs k.toMachine dirs { k.toMachine with
      cr3 := task.cr3,
      mem := update k.mem task.cr3 (kernelHalf k.mem k.cr3 task.cr3) } := by
  refine ⟨fun i hi _ => ?_, fun d hd i hi _ => ?_⟩
  · show update k.mem task.cr3 _ task.cr3 i = k.mem k.cr3 i
    rw [update_self, kernelHalf, if_pos hi]
  · show update k.mem task.cr3 _ d i = _ ∨ d ∈ dirs ∧ update k.mem task.cr3 _ d i = _
    by_cases heq : d = task.cr3
    · subst heq
      exact .inl rfl
    · rw [update_of_ne heq]
      exact .inr ⟨hd, rfl⟩

end Rastapopoulos.Vmm
