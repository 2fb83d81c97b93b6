import Rastapopoulos.Vmm.Preservation

/-!
# Allocations and transient maps

The heap grows, pages of it come into use, and frames are mapped in their place and unmapped again.
All this is work of the kernel's own (`Preserves`); it stops only when there is no frame for a page
that the heap grows by (`Starved`). After a transient map has been undone the kernel is as before
(`Same`), up to frames that were free.
-/

namespace Rastapopoulos.Vmm

open Paging Function
open KernelHeap (pageSize)

variable {D S : Set ℕ} {role role' : ℕ → Role}
  {live live' : ℕ → Fin 1024 → Prop} {dirs dirs' : List ℕ} {pins pins' : List (ℕ × ℕ)}
  {k k' k₀ : Kernel} {m m' : Machine} {a f g t va : ℕ} {flags e : BitVec 32}

/-- The page directory and the pages in use are the same. -/
structure Same (k k' : Kernel) : Prop where
  cr3 : k'.cr3 = k.cr3
  held : k'.held = k.held
  maps : k'.transientMaps = k.transientMaps

theorem Same.refl (k : Kernel) : Same k k := ⟨rfl, rfl, rfl⟩

theorem Same.set (h : m.cr3 = k.cr3) : Same k (k.set m) := ⟨h, rfl, rfl⟩

theorem Same.trans (h : Same k k₀) (h' : Same k₀ k') : Same k k' :=
  ⟨h'.cr3.trans h.cr3, h'.held.trans h.held, h'.maps.trans h.maps⟩

theorem Current.congr (h : Current live m) (hcr3 : m'.cr3 = m.cr3) : Current live m' := by
  intro i hi
  rw [hcr3]
  exact h i hi

theorem translate_lt {mem : Memory} {cr3 : ℕ} (h : translate mem cr3 va = some f) : f < wordMod := by
  rw [translate_eq_lookup, Option.map_eq_some_iff] at h
  obtain ⟨e, -, rfl⟩ := h
  exact frameOf_lt

theorem translate_mod {mem : Memory} {cr3 : ℕ} (h : translate mem cr3 va = some f) :
    f % pageSize = 0 := by
  rw [translate_eq_lookup, Option.map_eq_some_iff] at h
  obtain ⟨e, -, rfl⟩ := h
  exact frameOf_mod e

namespace Inv

variable (h : Inv role live dirs pins k)

include h

/-! ## What counts -/

/-- Fewer entries, directories and pins. -/
theorem mono (hlive : ∀ d i, live' d i → live d i) (hdirs : ∀ d ∈ dirs', d ∈ dirs)
    (hcr3 : k.cr3 ∈ dirs') (hpins : ∀ p ∈ pins', p ∈ pins) : Inv role live' dirs' pins' k :=
  { h with
    refs := ⟨h.refs.self, hcr3, fun d i hl => h.refs.live d i (hlive d i hl),
      fun d hd => h.refs.dirs d (hdirs d hd), h.refs.page, h.refs.kernelPage,
      fun p hp => h.refs.pins p (hpins p hp), h.refs.maps, h.refs.nodup⟩ }

theorem pin (ha : a ∈ k.held) (hpage : KernelPage a) (htr : translate k.mem k.cr3 a = some f) :
    Inv role live dirs ((a, f) :: pins) k := by
  refine { h with refs := { h.refs with pins := fun p hp => ?_ } }
  rcases List.mem_cons.mp hp with rfl | hp
  · exact ⟨ha, hpage, htr⟩
  · exact h.refs.pins p hp

/-- Absent entries may count. -/
theorem enliven (hlive : ∀ d i, live' d i →
      live d i ∨ i < 768 ∧ role d = .directory ∧ target (k.mem d i) = none) :
    Inv role live' dirs pins k := by
  refine { h with refs := { h.refs with live := fun d i hl => ?_ } }
  rcases hlive d i hl with hl | ⟨hi, hd, hnone⟩
  · exact h.refs.live d i hl
  · refine ⟨hi, hd, fun t ht => ?_⟩
    rw [hnone] at ht
    exact nomatch ht

theorem add_dir {d : ℕ} (hd : role d = .directory)
    (hnone : ∀ i, KernelIndex i → target (k.mem d i) = none) :
    Inv role live (d :: dirs) pins k := by
  refine { h with refs := { h.refs with
    cr3_mem := .tail _ h.refs.cr3_mem, dirs := fun d' hd' => ?_ } }
  rcases List.mem_cons.mp hd' with rfl | hd'
  · refine ⟨hd, fun i hi t ht => ?_⟩
    rw [hnone i hi] at ht
    exact nomatch ht
  · exact h.refs.dirs d' hd'

/-- Answers of the heap that are yet to come do not count. -/
theorem answers (answers : List Answer) : Inv role live dirs pins { k with answers := answers } :=
  ⟨h.paging, h.frames, h.refs.congr rfl rfl rfl rfl, h.kernel,
    fun f va hf => (h.backs f va hf).congr rfl rfl⟩

/-! ## Access through pins -/

theorem translate_pin (hp : (a, f) ∈ pins) (i : Fin 1024) :
    translate k.mem k.cr3 (a + 4 * i) = some f ∧ wordIndex (a + 4 * i) = i := by
  obtain ⟨-, hpage, htr⟩ := h.refs.pins _ hp
  have hadd : translate k.mem k.cr3 (a + 4 * i) = translate k.mem k.cr3 a ∧ _ :=
    translate_add hpage.2.2 i
  exact ⟨hadd.1.trans htr, hadd.2⟩

/-- Stores to a frame that is no page table do not unmap a page. -/
theorem translate_pin_of_eq (hp : (a, f) ∈ pins) (hne : g ≠ k.cr3)
    (hkernel : ∀ i, role g ≠ .kernelTable i) {mem : Memory} (hmem : ∀ g', g' ≠ g → mem g' = k.mem g')
    (i : Fin 1024) :
    translate mem k.cr3 (a + 4 * i) = some f ∧ wordIndex (a + 4 * i) = i := by
  obtain ⟨-, hpage, htr⟩ := h.refs.pins _ hp
  have hadd : translate mem k.cr3 (a + 4 * i) = translate mem k.cr3 a ∧ _ :=
    translate_add hpage.2.2 i
  refine ⟨hadd.1.trans ((translate_congr ?_ fun t ht => ?_).trans htr), hadd.2⟩
  · rw [hmem _ hne.symm]
  · have hrole := h.refs.kernelTable hpage.index ht
    rw [hmem t fun heq => hkernel _ (heq ▸ hrole)]

theorem bzero_pin (hp : (a, f) ∈ pins) (hne : f ≠ k.cr3) (hkernel : ∀ i, role f ≠ .kernelTable i) :
    bzero k.toMachine a = .ok { k.toMachine with mem := k.mem.clear f } :=
  bzero_of fun _ hmem i => h.translate_pin_of_eq hp hne hkernel hmem i

theorem writeWord_pin (hp : (a, f) ∈ pins) (i : Fin 1024) (w : BitVec 32) :
    writeWord k.toMachine (a + 4 * i) w = .ok { k.toMachine with mem := k.mem.write f i w } := by
  obtain ⟨htr, hidx⟩ := h.translate_pin hp i
  rw [writeWord_of htr, hidx]

theorem readWord_pin (hp : (a, f) ∈ pins) (i : Fin 1024) :
    readWord k.toMachine (a + 4 * i) = .ok (k.mem f i) := by
  obtain ⟨htr, hidx⟩ := h.translate_pin hp i
  rw [readWord_of htr, hidx]

theorem lookup_pin (hp : (a, f) ∈ pins) : ∃ t e, target (k.mem k.cr3 (dirIndex a)) = some t ∧
    k.mem t (tableIndex a) = e ∧ Present e ∧ frameOf e = f := by
  obtain ⟨-, -, htr⟩ := h.refs.pins _ hp
  obtain ⟨t, ht, hf⟩ := translate_eq_some.mp htr
  exact ⟨t, _, ht, rfl, target_eq_some.mp hf⟩

theorem vmmGetPhysical_pin (hcur : Current live k.toMachine) (hp : (a, f) ∈ pins) :
    vmmGetPhysical k.toMachine a = .ok f := by
  obtain ⟨-, hpage, htr⟩ := h.refs.pins _ hp
  rw [translate_eq_lookup, Option.map_eq_some_iff] at htr
  obtain ⟨e, he, rfl⟩ := htr
  rw [vmmGetPhysical_eq (h.wellFormed hcur).toRunning hpage.2.2, he]
  rfl

/-! ## The kernel heap -/

/-- **The heap grows** by a page. -/
theorem heapGrow (hcur : Current live k.toMachine) (hva : KernelPage va) (hheld : va ∉ k.held)
    (hnone : translate k.mem k.cr3 va = none) :
    Ends (Vmm.heapGrow k.toMachine va) (Lacks 0 [va] k.toMachine) fun m =>
      Pays 0 [va] k.toMachine m ∧
      (∀ va', KernelPage va' → va' ≠ va → translate m.mem m.cr3 va' = translate k.mem k.cr3 va') ∧
      ∃ role', Inv role' live dirs pins (k.set m) ∧
        Preserves ∅ ∅ ∅ role k.toMachine role' m := by
  have hcost : 1 + tableCost k.toMachine va = 0 + framesNeeded k.toMachine [va] := by
    rw [framesNeeded_singleton]
    omega
  refine Ends.bind (P := fun r => Allocates role k r.1 r.2 ∧
    Inv (update role r.2 .loose) live dirs pins (k.set r.1)) ?_ ?_
  · refine h.alloc.mono (fun e he => ?_) fun _ => id
    refine he.imp_right fun ⟨he, hshort⟩ => ⟨he, ?_⟩
    rw [framesNeeded_nil] at hshort
    rw [Bool.eq_false_iff] at hshort ⊢
    exact fun hall => hshort (Pmm.provides_mono (by omega) hall)
  · rintro ⟨m₁, f⟩ ⟨halloc, h₁⟩
    dsimp only at halloc h₁ ⊢
    have hm₁ := halloc.machine
    have hcur₁ : Current live (k.set m₁).toMachine := hcur.congr halloc.cr3
    have hw₁ : WellFormed m₁ := h₁.wellFormed hcur₁
    have hnone₁ : translate m₁.mem m₁.cr3 va = none := by
      rw [hm₁]
      exact hnone
    refine (vmmMap_ends hw₁ hva.2.2 halloc.aligned (by decide) hnone₁).mono (fun e he => ?_) ?_
    · -- the frame for the page table counts, too
      refine he.imp_right fun ⟨he, hshort⟩ => ⟨he, ?_⟩
      have hcost₁ : tableCost m₁ va = tableCost k.toMachine va := by
        rw [hm₁]
        rfl
      rw [framesNeeded_nil, hcost₁] at hshort
      rw [← hcost, Nat.add_comm, Pmm.provides_of_alloc halloc.alloc]
      exact hshort
    · rintro m ⟨m₂, t, hlink, habsent, rfl⟩
      have hf₁ : update role f .loose f = .loose := update_self ..
      have hflags : (vmmPagePresent ||| vmmPageWritable).toNat < 2 ^ 12 := by decide
      obtain ⟨role', hkeep, hnew, ht, hf, h₂, hcr3₂⟩ := h₁.map_kernel hcur₁ hf₁ halloc.lt
        halloc.aligned hflags (by decide) hlink hva hheld habsent
      obtain ⟨hdistinct, htarget⟩ := hlink.distinct hw₁
      have hne := hdistinct.ne_cr3 hva.index.ne htarget
      refine ⟨?_, fun va' hva' hneq => ?_, role', h₂, ?_⟩
      · have hpays : Pays 0 [va] k.toMachine m₂ := by
          rw [hm₁] at hlink hw₁
          exact hlink.pays halloc.alloc hw₁
        refine hpays.congr (fun d => ?_) rfl
        show target (m₂.mem.write t _ _ m₂.cr3 d) = _
        rw [Memory.write_of_ne hne.symm]
      · have htr := hlink.translate_of_ne (w := entry f (vmmPagePresent ||| vmmPageWritable)) hw₁
          hva.index.ne hva'.index.ne fun heq =>
            hneq (page_ext hva'.2.2 hva'.lt hva.2.2 hva.lt heq.1 heq.2)
        refine htr.trans ?_
        rw [hm₁]
      · -- the new frame is in hand until the end
        have hp₁ : Preserves {f} ∅ ∅ role k.toMachine _ m₁ :=
          .alloc halloc (Set.mem_singleton f)
        have hp₂ : Preserves {f} ∅ ∅ (update role f .loose) m₁ role' m₂ :=
          h₁.preserves_link hva.index hlink (fun g hg => hkeep g hg) hnew ht
        have hp₃ : Preserves {f} ∅ ∅ role' m₂ role' { m₂ with
            mem := m₂.mem.write t (tableIndex va)
              (entry f (vmmPagePresent ||| vmmPageWritable)) } :=
          .write_kernel_pte ht (.inr habsent)
        refine ((hp₁.trans hp₂).trans hp₃).shrink (fun g hg => .inl hg) halloc.free (.inr ?_)
        rw [hf]
        trivial

/-- **A block is allocated.** -/
theorem kmalloc (hcur : Current live k.toMachine) :
    Ends (Vmm.kmalloc k) (Starved 1 0 k) fun r => Same k r.1 ∧ Spends 1 0 k r.1 ∧
      ∃ role', Inv role' live dirs pins r.1 ∧
        Preserves ∅ ∅ ∅ role k.toMachine role' r.1.toMachine := by
  unfold Vmm.kmalloc
  split
  · exact .error (.inl rfl)
  · rename_i answer answers hanswers
    have hpages : k.heapPages 1 = answer.growth := by
      rw [Kernel.heapPages, hanswers]
      simp
    refine Ends.check (fun _ => .inl rfl) fun hgrowth => ?_
    refine Ends.bind (P := fun m => m.cr3 = k.cr3 ∧ Pays 0 answer.growth k.toMachine m ∧
      ∃ role', Inv role' live dirs pins (k.set m) ∧
        Preserves ∅ ∅ ∅ role k.toMachine role' m) ?_ fun m hm => ?_
    · refine (Ends.foldlM (P := fun rest m => ∃ done, answer.growth = done ++ rest ∧
        Pays 0 done k.toMachine m ∧ (∀ page ∈ rest, translate m.mem m.cr3 page = none) ∧
        ∃ role', Inv role' live dirs pins (k.set m) ∧
          Preserves ∅ ∅ ∅ role k.toMachine role' m) (fun page rest m hP => ?_)
        ⟨[], rfl, .refl _, fun page hp => (hgrowth.2 page hp).2.2, role, h, .refl ..⟩).mono
        (fun _ => id) ?_
      · obtain ⟨done, hdone, hpays, hnone, role₁, h₁, hp₁⟩ := hP
        rw [List.forall_mem_cons] at hnone
        have hmem : page ∈ answer.growth := by simp [hdone]
        obtain ⟨hpage, hheld, -⟩ := hgrowth.2 page hmem
        have hrest : page ∉ rest := by
          have hnodup := hgrowth.1
          rw [hdone] at hnodup
          exact (List.nodup_cons.mp hnodup.of_append_right).1
        refine (h₁.heapGrow (hcur.congr hp₁.cr3) hpage hheld hnone.1).mono (fun e he => ?_) ?_
        · have hlacks : Lacks 0 (done ++ [page] ++ rest) k.toMachine e :=
            (hpays.lacks he).mono (Nat.le_refl _)
          rw [List.append_assoc, List.singleton_append, ← hdone] at hlacks
          rw [Starved, hpages]
          exact hlacks
        · rintro m' ⟨hpays', htr, role₂, h₂, hp₂⟩
          refine ⟨done ++ [page], by simp [hdone], hpays.trans hpays', fun page' hp' => ?_, role₂,
            h₂, hp₁.trans hp₂⟩
          have hmem' : page' ∈ answer.growth := by simp [hdone, hp']
          exact (htr page' (hgrowth.2 page' hmem').1 fun heq => hrest (heq ▸ hp')).trans
            (hnone.2 page' hp')
      · rintro m ⟨done, hdone, hpays, -, role', h', hp'⟩
        rw [List.append_nil] at hdone
        exact ⟨hp'.cr3, hdone ▸ hpays, role', h', hp'⟩
    · obtain ⟨hcr3, hpays, role', h', hp'⟩ := hm
      refine .ok ⟨⟨hcr3, rfl, rfl⟩, ⟨?_, ?_⟩, role', h'.answers answers, hp'⟩
      · rw [hanswers]
        rfl
      · rw [hpages]
        exact hpays

/-- A page that is mapped comes into use. -/
theorem hold (a : ℕ) : Inv role live dirs pins (k.hold a) := by
  refine ⟨h.paging, h.frames, { h.refs with kernelPage := ?_, pins := ?_, maps := ?_ }, h.kernel,
    fun f va hf => (h.backs f va hf).congr rfl rfl⟩
  · intro t i ht j f hf
    obtain ⟨hpage, hrole⟩ := h.refs.kernelPage t i ht j f hf
    exact ⟨hpage, fun hheld => hrole fun hc => hheld (.tail _ hc)⟩
  · intro p hp
    obtain ⟨hheld, hrest⟩ := h.refs.pins p hp
    exact ⟨.tail _ hheld, hrest⟩
  · intro x hx
    obtain ⟨hheld, hrest⟩ := h.refs.maps x hx
    exact ⟨.tail _ hheld, hrest⟩

/-- The frame of a page that is mapped and not in use. -/
theorem role_kernelPage (hva : KernelPage va) (hheld : va ∉ k.held)
    (htr : translate k.mem k.cr3 va = some f) : role f = .kernelPage va := by
  obtain ⟨t, ht, hf⟩ := translate_eq_some.mp htr
  have hrole := h.refs.kernelTable hva.index ht
  have hpage := (h.refs.kernelPage t _ hrole _ f hf).2
  rw [hva.pageAddr_eq] at hpage
  exact hpage hheld

end Inv

/-- A page of the heap has come into use. -/
structure Obtains (k k' : Kernel) (a : ℕ) : Prop where
  page : KernelPage a
  new : a ∉ k.held
  cr3 : k'.cr3 = k.cr3
  held : k'.held = a :: k.held
  maps : k'.transientMaps = k.transientMaps

namespace Inv

variable (h : Inv role live dirs pins k)

include h

/-- **A page is allocated.** -/
theorem kmallocA (hcur : Current live k.toMachine) :
    Ends (Vmm.kmallocA k) (Starved 1 0 k) fun r => Obtains k r.1 r.2 ∧ Spends 1 0 k r.1 ∧
      ∃ role' f, role' f = .kernelPage r.2 ∧ Inv role' live dirs ((r.2, f) :: pins) r.1 ∧
        Preserves ∅ ∅ ∅ role k.toMachine role' r.1.toMachine := by
  refine (h.kmalloc hcur).bind ?_
  rintro ⟨k₁, a⟩ ⟨hsame, hspends, role', h₁, hp⟩
  refine Ends.check (fun _ => .inl rfl) fun ⟨hpage, hheld, hmapped⟩ => ?_
  obtain ⟨f, hf⟩ := Option.isSome_iff_exists.mp hmapped
  refine .ok ⟨⟨hpage, hsame.held ▸ hheld, hsame.cr3, congrArg _ hsame.held, hsame.maps⟩,
    ⟨hspends.answers, hspends.pays⟩, role', f, h₁.role_kernelPage hpage hheld hf, ?_, hp⟩
  exact (h₁.hold a).pin (.head _) hpage hf

/-- A page goes out of use. -/
theorem release (hpins : ∀ p ∈ pins, p.1 ≠ a)
    (hmaps : ∀ x ∈ k.transientMaps, x.address ≠ a)
    (htr : ∀ f, translate k.mem k.cr3 a = some f → role f = .kernelPage a) :
    Inv role live dirs pins (k.release a) := by
  refine ⟨h.paging, h.frames, { h.refs with kernelPage := ?_, pins := ?_, maps := ?_ }, h.kernel,
    fun f va hf => (h.backs f va hf).congr rfl rfl⟩
  · intro t i ht j f hf
    obtain ⟨hpage, hrole⟩ := h.refs.kernelPage t i ht j f hf
    refine ⟨hpage, fun hheld => ?_⟩
    by_cases heq : pageAddr i j = a
    · -- the page table is that of the current directory
      obtain ⟨-, hti⟩ := h.kernel t i ht
      rw [heq]
      refine htr f ?_
      have hi : dirIndex a = i := by rw [← heq, dirIndex_pageAddr]
      have hj : tableIndex a = j := by rw [← heq, tableIndex_pageAddr]
      rw [translate_of_target (hi ▸ hti), hj]
      exact hf
    · exact hrole fun hc => hheld ((List.mem_erase_of_ne heq).mpr hc)
  · intro p hp
    obtain ⟨hheld, hrest⟩ := h.refs.pins p hp
    exact ⟨(List.mem_erase_of_ne (hpins p hp)).mpr hheld, hrest⟩
  · intro x hx
    obtain ⟨hheld, hrest⟩ := h.refs.maps x hx
    exact ⟨(List.mem_erase_of_ne (hmaps x hx)).mpr hheld, hrest⟩

theorem add_map {x : TransientMap} (hheld : x.address ∈ k.held)
    (hrole : role x.frame = .kernelPage x.address) (hlt : x.frame < wordMod)
    (hflags : x.flags.toNat < 2 ^ 12) (hnew : ∀ y ∈ k.transientMaps, y.address ≠ x.address) :
    Inv role live dirs pins { k with transientMaps := k.transientMaps ++ [x] } := by
  refine ⟨h.paging, h.frames, { h.refs with maps := fun y hy => ?_, nodup := ?_ }, h.kernel,
    fun f va hf => ?_⟩
  · rcases List.mem_append.mp hy with hy | hy
    · exact h.refs.maps y hy
    · rw [List.mem_singleton.mp hy]
      exact ⟨hheld, hrole, hlt, hflags⟩
  · rw [List.map_append, List.nodup_append]
    refine ⟨h.refs.nodup, List.nodup_singleton _, fun b hb c hc => ?_⟩
    obtain ⟨y, hy, rfl⟩ := List.mem_map.mp hb
    rw [List.mem_singleton.mp hc]
    exact hnew y hy
  · have hbacks := h.backs f va hf
    refine ⟨hbacks.page, fun y hy heq => ?_, fun hnone => hbacks.mapped fun y hy =>
      hnone y (List.mem_append_left _ hy)⟩
    rcases List.mem_append.mp hy with hy | hy
    · exact hbacks.maps y hy heq
    · -- both frames were mapped at the page
      rw [List.mem_singleton] at hy
      subst hy
      subst heq
      have htr := hbacks.mapped hnew
      exact Option.some.inj (((h.backs _ _ hrole).mapped hnew).symm.trans htr)

/-- A transient map is taken off the list, when its frame is mapped again. -/
theorem drop_map {l : List TransientMap} {x : TransientMap} (hl : k.transientMaps = l ++ [x])
    (htr : translate k.mem k.cr3 x.address = some x.frame) :
    Inv role live dirs pins { k with transientMaps := l } := by
  have hsub : ∀ y ∈ l, y ∈ k.transientMaps := fun y hy => by simp [hl, hy]
  have hx : x ∈ k.transientMaps := by simp [hl]
  refine ⟨h.paging, h.frames, { h.refs with
    maps := fun y hy => h.refs.maps y (hsub y hy)
    nodup := h.refs.nodup.sublist ((hl ▸ List.sublist_append_left ..).map _) }, h.kernel,
    fun f va hf => ?_⟩
  have hbacks := h.backs f va hf
  refine ⟨hbacks.page, fun y hy => hbacks.maps y (hsub y hy), fun hnone => ?_⟩
  by_cases hva : x.address = va
  · rw [← hbacks.maps x hx hva, ← hva]
    exact htr
  · refine hbacks.mapped fun y hy => ?_
    rw [hl, List.mem_append, List.mem_singleton] at hy
    rcases hy with hy | rfl
    · exact hnone y hy
    · exact hva

end Inv

theorem Inv.unpin {p : ℕ × ℕ} (h : Inv role live dirs (p :: pins) k) : Inv role live dirs pins k :=
  h.mono (fun _ _ => id) (fun _ => id) h.refs.cr3_mem fun _ => List.mem_cons_of_mem _

theorem Inv.pins_ne (h : Inv role live dirs pins k) (ha : a ∉ k.held) : ∀ p ∈ pins, p.1 ≠ a :=
  fun p hp heq => ha (heq ▸ (h.refs.pins p hp).1)

theorem Inv.maps_ne (h : Inv role live dirs pins k) (ha : a ∉ k.held) :
    ∀ x ∈ k.transientMaps, x.address ≠ a :=
  fun x hx heq => ha (heq ▸ (h.refs.maps x hx).1)

/-! ## Transient maps -/

/-- A page at `a` has come into use for a transient map. Its entry was `e`, unless it is new. -/
structure Opened (k k' : Kernel) (a : ℕ) (e : BitVec 32) : Prop where
  cr3 : k'.cr3 = k.cr3
  page : KernelPage a
  new : a ∉ k.held
  held : k'.held = a :: k.held
  maps : k'.transientMaps = k.transientMaps ++ [⟨frameOf e, flagsOf e, a⟩]
  present : Present e
  entry : ∀ t, target (k.mem k.cr3 (dirIndex a)) = some t → Present (k.mem t (tableIndex a)) →
    k.mem t (tableIndex a) = e

theorem Opened.congr (h : Opened k₀ k a e) (hs : Same k k') : Opened k₀ k' a e :=
  { h with
    cr3 := hs.cr3.trans h.cr3
    held := hs.held.trans h.held
    maps := hs.maps.trans h.maps }

/-- **A frame is mapped for a while.** -/
theorem Inv.vmmTransientMap (h : Inv role live dirs pins k) (hcur : Current live k.toMachine)
    (hf : f % pageSize = 0) (hlt : f < wordMod)
    (hflags : (vmmPagePresent ||| flags).toNat < 2 ^ 12)
    (hpresent : (vmmPagePresent ||| flags) &&& vmmPagePresent ≠ 0) :
    Ends (Vmm.vmmTransientMap k f flags) (Starved 2 0 k) fun r =>
      Spends 2 0 k r.1 ∧ ∃ role' e, Opened k r.1 r.2 e ∧
        Inv role' live dirs ((r.2, f) :: pins) r.1 ∧
        Preserves ∅ {r.2} ∅ role k.toMachine role' r.1.toMachine := by
  refine ((h.kmallocA hcur).mono (fun e he => he.mono (by decide) (Nat.le_refl _))
    fun _ => id).bind ?_
  rintro ⟨k₁, a⟩ ⟨hob, hspends₁, role₁, f₁, hrole₁, h₁, hp₁⟩
  have hcur₁ := hcur.congr hob.cr3
  refine ((h₁.kmalloc hcur₁).mono (fun e he => hspends₁.starved he) fun _ => id).bind ?_
  rintro ⟨k₂, _⟩ ⟨hsame, hspends₂, role₂, h₂, hp₂⟩
  dsimp only at hsame hspends₂ h₂ hp₂ ⊢
  have hcur₂ := hcur₁.congr hsame.cr3
  have hrun := (h₂.wellFormed hcur₂).toRunning
  have hp₁₂ := hp₁.trans hp₂
  -- the frame that was there, and its flags
  obtain ⟨t, e, ht, he, hpresent₀, hf₁⟩ := h₂.lookup_pin (.head _)
  have hlookup : lookup k₂.mem k₂.cr3 (dirIndex a) (tableIndex a) = some e :=
    lookup_eq_some.mpr ⟨t, ht, he, hpresent₀⟩
  have hrole₂ : role₂ f₁ = .kernelPage a := by
    rw [hp₂.keep f₁ (Set.notMem_empty _) (by simp [hrole₁]), hrole₁]
  have hheld : k₂.held = a :: k.held := hsame.held.trans hob.held
  have ha : a ∈ k₂.held := hheld ▸ .head _
  have hmaps : k₂.transientMaps = k.transientMaps := hsame.maps.trans hob.maps
  have hnew : ∀ y ∈ k₂.transientMaps, y.address ≠ a := hmaps ▸ h.maps_ne hob.new
  -- the other frame takes its place
  obtain ⟨m₃, hunmap, hmap⟩ := exchange hrun hob.page.2.2 hob.page.index.ne hf hpresent ht
    (he ▸ hpresent₀)
  have hphysical := h₂.vmmGetPhysical_pin hcur₂ (.head _)
  have hgetflags : vmmGetFlags k₂.toMachine a = .ok (flagsOf e) := by
    rw [vmmGetFlags_eq hrun hob.page.2.2, hlookup]
    rfl
  rw [hphysical, ok_bind, hgetflags, ok_bind, hunmap, ok_bind, hmap]
  have hrolet := h₂.refs.kernelTable hob.page.index ht
  have hne := hrun.distinct.ne_cr3 hob.page.index.ne ht
  refine .ok ⟨?_, role₂, e, ⟨hsame.cr3.trans hob.cr3, hob.page, hob.new, hheld, ?_, hpresent₀, ?_⟩,
    ?_, ?_⟩
  · have hspends := hspends₁.trans hspends₂
    refine ⟨hspends.answers, hspends.pays.congr (fun d => ?_) rfl⟩
    show target (k₂.mem.write t _ _ k₂.cr3 d) = _
    rw [Memory.write_of_ne hne.symm]
  · rw [hmaps, hf₁]
  · intro t' ht' hpresent'
    have hrole' := h.refs.kernelTable hob.page.index ht'
    have hrole₂' : role₂ t' = .kernelTable (dirIndex a) := by
      rw [hp₁₂.keep t' (Set.notMem_empty _) (by simp [hrole']), hrole']
    obtain rfl := Option.some.inj ((h₂.kernel t' _ hrole₂').2.symm.trans ht)
    rw [← he, hp₁₂.pte t' _ (Set.notMem_empty _) hrole' _ (Set.notMem_empty _) hpresent']
  · have h₃ := h₂.unpin.add_map (x := ⟨f₁, flagsOf e, a⟩) ha hrole₂ (hf₁ ▸ frameOf_lt) flagsOf_lt
      hnew
    have h₄ := h₃.write_held (w := entry f (vmmPagePresent ||| flags))
      (List.mem_append_right _ (List.mem_singleton_self _)) rfl hob.page (h.pins_ne hob.new) ht
    refine h₄.pin ha hob.page ?_
    show translate (k₂.mem.write t (tableIndex a) _) k₂.cr3 a = some f
    rw [translate_write ht hne.symm, target_entry hf hlt hflags hpresent]
  · refine (hp₁₂.mono subset_rfl (Set.empty_subset _) subset_rfl).trans
      (.write_kernel_pte hrolet (.inl ?_))
    rw [hob.page.pageAddr_eq]
    rfl

/-- **The transient map is undone.** After the page is as it was, nothing has changed, except for
what has been done in between. -/
theorem Inv.vmmTransientUnmap {role₀ role₁ : ℕ → Role} {k₁ : Kernel}
    (h₀ : Inv role₀ live dirs pins k₀) (hcur : Current live k₀.toMachine) (hop : Opened k₀ k₁ a e)
    (hp₁ : Preserves ∅ {a} ∅ role₀ k₀.toMachine role₁ k₁.toMachine)
    (h : Inv role live dirs ((a, g) :: pins) k) (hs : Same k₁ k)
    (hp : Preserves D ∅ S role₁ k₁.toMachine role k.toMachine) :
    ∃ k', Vmm.vmmTransientUnmap k a = .ok k' ∧ Same k₀ k' ∧ Spends 0 0 k k' ∧
      Inv role live dirs pins k' ∧ Preserves D ∅ S role₀ k₀.toMachine role k'.toMachine ∧
      ∀ g, (role g).Content → k'.mem g = k.mem g := by
  replace hop := hop.congr hs
  replace hp := (hp₁.mono (Set.empty_subset D) subset_rfl (Set.empty_subset S)).trans
    (hp.mono subset_rfl (Set.empty_subset _) subset_rfl)
  have hfind : k.transientMaps.find? (fun map => map.address = a) =
      some ⟨frameOf e, flagsOf e, a⟩ := by
    rw [hop.maps, List.find?_append, List.find?_eq_none.mpr fun x hx => ?_]
    · simp
    · simpa using h₀.maps_ne hop.new x hx
  have herase : k.transientMaps.eraseP (fun map => map.address = a) = k₀.transientMaps := by
    rw [hop.maps, List.eraseP_append_right, List.eraseP_cons_of_pos, List.append_nil]
    · simp
    · intro x hx
      simpa using h₀.maps_ne hop.new x hx
  have hrun := (h.wellFormed (hcur.congr hop.cr3)).toRunning
  have hpage := hop.page
  obtain ⟨t, w, ht, hw, hpresent, -⟩ := h.lookup_pin (.head _)
  obtain ⟨m₁, hunmap, hmap⟩ := exchange hrun hpage.2.2 hpage.index.ne
    (frameOf_mod e) (present_flagsOf.mpr hop.present) ht (hw ▸ hpresent)
  rw [entry_frameOf_flagsOf] at hmap
  have hrole := h.refs.kernelTable hpage.index ht
  have hne := hrun.distinct.ne_cr3 hpage.index.ne ht
  have hp' : ∀ {D S}, Preserves D {a} S role k.toMachine role
      { k.toMachine with mem := k.mem.write t (tableIndex a) e } := fun {D S} => by
    refine .write_kernel_pte hrole (.inl ?_)
    rw [hpage.pageAddr_eq]
    rfl
  refine ⟨{ (k.set { k.toMachine with mem := k.mem.write t (tableIndex a) e }).release a with
    transientMaps := k₀.transientMaps }, ?_, ⟨hop.cr3, ?_, rfl⟩, ⟨rfl, ?_⟩, ?_,
    (hp.trans hp').close fun t' ht' hrole₀ hpresent₀ => ?_,
    fun g => (hp' (D := ∅) (S := ∅)).content g (Set.notMem_empty g)⟩
  · rw [Vmm.vmmTransientUnmap, hfind]
    dsimp only
    rw [hunmap, ok_bind, hmap, ok_bind, pure_eq_ok, herase]
  · show k.held.erase a = _
    rw [hop.held, List.erase_cons_head]
  · refine (Pays.refl _).congr (fun d => ?_) rfl
    show target (k.mem.write t _ _ k.cr3 d) = _
    rw [Memory.write_of_ne hne.symm]
  · have hmem : ⟨frameOf e, flagsOf e, a⟩ ∈ k.transientMaps := by simp [hop.maps]
    have htr : translate (k.mem.write t (tableIndex a) e) k.cr3 a = some (frameOf e) := by
      rw [translate_write ht hne.symm, target_eq_some]
      exact ⟨hop.present, rfl⟩
    have h₁ := h.unpin.write_held (w := e) hmem rfl hpage (h₀.pins_ne hop.new) ht
    have h₂ := h₁.drop_map (x := ⟨frameOf e, flagsOf e, a⟩) hop.maps htr
    refine h₂.release (h₀.pins_ne hop.new) (h₀.maps_ne hop.new) fun f hf => ?_
    obtain rfl := Option.some.inj (htr.symm.trans hf)
    exact (h.refs.maps _ hmem).2.1
  · have hrole' := (hp.keep t' ht' (by rw [hrole₀]; nofun)).trans hrole₀
    obtain rfl := Option.some.inj ((h.kernel t' _ hrole').2.symm.trans ht)
    rw [hop.entry t' (h₀.kernel t' _ hrole₀).2 hpresent₀]
    exact Memory.write_same

end Rastapopoulos.Vmm
