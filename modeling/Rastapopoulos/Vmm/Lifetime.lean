import Rastapopoulos.Vmm.Fork

/-!
# The frames of a task

A task's directory is cloned, memory is mapped on request while it is the current one, and the
directory is destroyed while another one is. The frames that have been taken for it are freed, each
of them once, and no others: the frames in use are those from before, and those that the heap has
grown by (`no_leak`).

`Account` relates the state in between to the state before the directory was cloned: frames that had
a role still have it, and those that had none and now have one are the kernel's, or can be found
under the entries of the directory.
-/

namespace Rastapopoulos.Vmm

open Paging Function
open KernelHeap (pageSize)

variable {role role₀ role' : ℕ → Role} {ts : List Task} {task back : Task} {k k' k₁ : Kernel}
  {m m₀ m₁ m₂ m₃ m' : Machine} {mem mem' : Memory} {live : ℕ → Fin 1024 → Prop} {dirs : List ℕ}
  {pins : List (ℕ × ℕ)} {a d f g t va : ℕ} {i j : Fin 1024} {flags : BitVec 32}
  {D S : Set ℕ} {pages done : List ℕ}

/-! ## Statement -/

/-- Successful calls of `mmap`, one after another. -/
inductive Mmaps (m : Machine) : Machine → Prop
  | refl : Mmaps m m
  | tail {m₁ m₂ : Machine} {addr size result : ℕ} {flags : BitVec 32} : Mmaps m m₁ →
      syscallMmapHandler m₁ addr size flags = .ok (m₂, result) → result ≠ 0 → Mmaps m m₂

/-- The heap has grown by the frame: it is a page table that the kernel's half did not have, or a
page where the kernel's half had none in use. -/
def Grown (m m' : Machine) (f : ℕ) : Prop :=
  (∃ i, KernelIndex i ∧ target (m.mem m.cr3 i) = none ∧ target (m'.mem m'.cr3 i) = some f) ∨
    ∃ va, KernelPage va ∧ translate m'.mem m'.cr3 va = some f ∧
      ∀ g, translate m.mem m.cr3 va = some g → ¬ Pmm.Taken m.regions g

/-! ## The kernel's half -/

/-- What is mapped in the kernel's half stays there. -/
structure KeepsKernel (m m' : Machine) : Prop where
  pde : ∀ i, KernelIndex i → Present (m.mem m.cr3 i) → m'.mem m'.cr3 i = m.mem m.cr3 i
  page : ∀ va, KernelPage va → ∀ f, translate m.mem m.cr3 va = some f →
    translate m'.mem m'.cr3 va = some f

theorem KeepsKernel.trans (h : KeepsKernel m m₁) (h' : KeepsKernel m₁ m') : KeepsKernel m m' where
  pde i hi hpresent := by
    have hsame := h.pde i hi hpresent
    rw [h'.pde i hi (hsame ▸ hpresent), hsame]
  page va hva f hf := h'.page va hva f (h.page va hva f hf)

theorem Inv.keepsKernel (h : Inv role live dirs pins k)
    (hp : Preserves D ∅ S role k.toMachine role' m) (hcr3 : k.cr3 ∉ D)
    (hD : ∀ t i, role t = .kernelTable i → t ∉ D) : KeepsKernel k.toMachine m := by
  have hpde : ∀ i, Present (k.mem k.cr3 i) → m.mem m.cr3 i = k.mem k.cr3 i := by
    intro i hpresent
    rw [hp.cr3]
    exact (hp.pde _ hcr3 h.refs.cr3_dir i).resolve_right
      fun hc => hc.2.2 hpresent
  refine ⟨fun i _ => hpde i, fun va hva f hf => ?_⟩
  obtain ⟨t, ht, hf⟩ := translate_eq_some.mp hf
  have hrole := h.refs.kernelTable hva.index ht
  have hpte := hp.pte t _ (hD t _ hrole) hrole (tableIndex va) (Set.notMem_empty _)
    (target_eq_some.mp hf).1
  have ht' := (congrArg target (hpde _ (target_eq_some.mp ht).1)).trans ht
  rw [translate_of_target ht', hpte, hf]

theorem Inv.keepsKernel_switch (h : Inv role live dirs pins k) (hd : d ∈ dirs) :
    KeepsKernel k.toMachine { k.toMachine with
      cr3 := d, mem := update k.mem d (kernelHalf k.mem k.cr3 d) } := by
  have hpde : ∀ i, KernelIndex i →
      update k.mem d (kernelHalf k.mem k.cr3 d) d i = k.mem k.cr3 i := by
    intro i hi
    rw [update_self, kernelHalf, if_pos hi]
  refine ⟨fun i hi _ => hpde i hi, fun va hva f hf => ?_⟩
  obtain ⟨t, ht, hf⟩ := translate_eq_some.mp hf
  have hrole := h.refs.kernelTable hva.index ht
  have hne : t ≠ d := by
    rintro rfl
    cases (h.refs.dirs t hd).1.symm.trans hrole
  rw [translate_of_target ((congrArg target (hpde _ hva.index)).trans ht),
    update_of_ne hne, hf]

/-! ## Frames of a directory -/

theorem mem_owned : g ∈ owned mem d ↔ ∃ i, i < 768 ∧ (target (mem d i) = some g ∨
    ∃ j e, lookup mem d i j = some e ∧ frameOf e = g) := by
  constructor
  · rintro ⟨i, hi, t, ht, rfl | ⟨j, hj⟩⟩
    · exact ⟨i, hi, .inl ht⟩
    · obtain ⟨hpresent, hframe⟩ := target_eq_some.mp hj
      refine ⟨i, hi, .inr ⟨j, mem t j, ?_, hframe⟩⟩
      exact lookup_eq_some.mpr ⟨t, ht, rfl, hpresent⟩
  · rintro ⟨i, hi, ht | ⟨j, e, he, rfl⟩⟩
    · exact ⟨i, hi, g, ht, .inl rfl⟩
    · obtain ⟨t, ht, rfl, hpresent⟩ := lookup_eq_some.mp he
      exact ⟨i, hi, t, ht, .inr ⟨j, hpresent.target⟩⟩

/-- **A page is mapped**: its frame and its page table are added. -/
theorem Linked.mem_owned {w : BitVec 32} (h : WellFormed m) (hlink : Linked m va m₁ t)
    (hva : va < kernelStart) (habsent : ¬ Present (m₁.mem t (tableIndex va))) (hw : Present w) :
    g ∈ owned (m₁.mem.write t (tableIndex va) w) m₁.cr3 ↔
      g ∈ owned m.mem m.cr3 ∨ g = t ∨ g = frameOf w := by
  have hi := dirIndex_lt hva
  have hne : dirIndex va ≠ 1023 := fun heq => absurd (heq ▸ hi) (by decide)
  have hne' : ∀ {i : Fin 1024}, i < 768 → i ≠ 1023 := by
    rintro i hi rfl
    exact absurd hi (by decide)
  obtain ⟨hdistinct, ht⟩ := hlink.distinct h
  have hdir : m₁.mem.write t (tableIndex va) w m₁.cr3 = m₁.mem m₁.cr3 :=
    Memory.write_of_ne (hdistinct.ne_cr3 hne ht).symm
  have hlookup : ∀ {i j}, i < 768 → lookup (m₁.mem.write t (tableIndex va) w) m₁.cr3 i j =
      if i = dirIndex va ∧ j = tableIndex va then some w else lookup m.mem m.cr3 i j := by
    intro i j hi
    rw [hdistinct.lookup_write hne ht, if_pos hw, hlink.lookup_eq h (hne' hi)]
  have hnone : lookup m.mem m.cr3 (dirIndex va) (tableIndex va) = none := by
    rw [← hlink.lookup_eq h hne, lookup, ht, Option.bind_some, if_neg habsent]
  rw [Vmm.mem_owned, Vmm.mem_owned]
  constructor
  · rintro ⟨i, hi, hg | ⟨j, e, he, rfl⟩⟩
    · rw [hdir, hlink.target_eq h] at hg
      split at hg
      · exact .inr (.inl (Option.some.inj hg).symm)
      · exact .inl ⟨i, hi, .inl hg⟩
    · rw [hlookup hi] at he
      split at he
      · exact .inr (.inr (congrArg frameOf (Option.some.inj he).symm))
      · exact .inl ⟨i, hi, .inr ⟨j, e, he, rfl⟩⟩
  · rintro (⟨i, hi, hg | ⟨j, e, he, rfl⟩⟩ | rfl | rfl)
    · refine ⟨i, hi, .inl ?_⟩
      rw [hdir]
      exact hlink.target_of_some h hg
    · refine ⟨i, hi, .inr ⟨j, e, ?_, rfl⟩⟩
      rw [hlookup hi, if_neg]
      · exact he
      · rintro ⟨rfl, rfl⟩
        cases hnone.symm.trans he
    · refine ⟨dirIndex va, hi, .inl ?_⟩
      rw [hdir]
      exact ht
    · refine ⟨dirIndex va, hi, .inr ⟨tableIndex va, w, ?_, rfl⟩⟩
      rw [hlookup hi, if_pos ⟨rfl, rfl⟩]

/-- The frames of a directory have roles that say so. -/
theorem Inv.role_owned (h : Inv role live dirs pins k) (hl : ∀ i, i < 768 → live d i)
    (hg : g ∈ owned k.mem d) : (role g).Owned := by
  obtain ⟨i, hi, hg⟩ := hg
  rcases h.role_under (hl i hi) hg with hr | ⟨_, _, -, hr⟩ <;> rw [hr] <;> trivial

/-- A switch concerns the kernel's half of a directory only. -/
theorem Inv.owned_switch {e : ℕ} (h : Inv role live dirs pins k) (hl : ∀ i, i < 768 → live d i)
    (he : role e = .directory) :
    owned (update k.mem e (kernelHalf k.mem k.cr3 e)) d = owned k.mem d := by
  have hunder : ∀ i, i < 768 →
      Under (update k.mem e (kernelHalf k.mem k.cr3 e)) d i = Under k.mem d i := by
    intro i hi
    refine Under_congr ?_ fun t ht => update_of_ne ?_ _ _
    · by_cases hd : d = e
      · subst hd
        have hnot : ¬ KernelIndex i := fun hc => hc.not_lt hi
        rw [update_self, kernelHalf, if_neg hnot]
      · rw [update_of_ne hd]
    · rintro rfl
      cases he.symm.trans ((h.refs.live d i (hl i hi)).2.2 t ht)
  ext g
  refine exists_congr fun i => and_congr_right fun hi => ?_
  rw [hunder i hi]

/-! ## Accounts -/

/-- The frames in use since the directory `d` has been cloned. -/
structure Account (role₀ : ℕ → Role) (m₀ : Machine) (d : ℕ) (role : ℕ → Role) (m : Machine) :
    Prop where
  pages : ∀ g, Pmm.Page m.regions g ↔ Pmm.Page m₀.regions g
  keep : ∀ g, g ≠ d → role₀ g ≠ .free → role g = role₀ g
  fresh : ∀ g, g ≠ d → role₀ g = .free → role g = .free ∨ (role g).Kernel ∨ g ∈ owned m.mem d
  owned : ∀ g ∈ owned m.mem d, g ≠ d ∧ role₀ g = .free
  kernel : KeepsKernel m₀ m
  /-- Other directories still refer to themselves. -/
  self : ∀ e, e ≠ d → role₀ e = .directory → m.mem e 1023 = m₀.mem e 1023

/-- **The directory has been cloned.** -/
theorem TasksInv.account (h : TasksInv role ts k) (h' : TasksInv role' (⟨a, d⟩ :: ts) k')
    (hd : d ∉ ts.map Task.cr3) (hroled : role d = .free ∨ role d = .kernelPage a)
    (hcloned : Cloned role k k' a d)
    (hp : Preserves {d} ∅ (owned k'.mem d) role k.toMachine role' k'.toMachine) :
    Account role k.toMachine d role' k'.toMachine := by
  have hdir : role' d = .directory := (h'.inv.refs.dirs d (.head _)).1
  refine ⟨hp.pages, fun g hg => hp.keep g hg, fun g hg hfree => ?_, fun g hg => ⟨?_, ?_⟩,
    h.inv.keepsKernel hp (fun hc => ?_) fun t i ht hc => ?_, fun e he hdir => ?_⟩
  · by_cases hgo : g ∈ Vmm.owned k'.mem d
    · exact .inr (.inr hgo)
    · exact (hp.fresh g hg hgo hfree).imp_right .inl
  · rintro rfl
    have hrole := h'.inv.role_owned (fun i hi => ⟨.head _, hi⟩) hg
    rw [hdir] at hrole
    exact hrole
  · obtain ⟨i, hi, t, ht, hg⟩ := hg
    have hcopy := hcloned.user i hi
    obtain ⟨hpresent, rfl⟩ := target_eq_some.mp ht
    obtain ⟨hfree, hentries⟩ := hcopy.frame (hcopy.present.mp hpresent)
    rcases hg with rfl | ⟨j, hj⟩
    · exact hfree
    · obtain ⟨hpresent', rfl⟩ := target_eq_some.mp hj
      exact ((hentries j).frame ((hentries j).present.mp hpresent')).1
  · exact hd (Set.mem_singleton_iff.mp hc ▸ h.inv.refs.cr3_mem)
  · rw [Set.mem_singleton_iff.mp hc] at ht
    rcases hroled with hr | hr <;> exact nomatch hr.symm.trans ht
  · exact (hp.pde e he hdir 1023).resolve_right fun hc => hc.2.1.ne rfl

namespace Account

/-- A task is switched to. -/
theorem switch {e : ℕ} (ha : Account role₀ m₀ d role k.toMachine) (h : Inv role live dirs pins k)
    (hl : ∀ i, i < 768 → live d i) (he : e ∈ dirs) :
    Account role₀ m₀ d role { k.toMachine with
      cr3 := e, mem := update k.mem e (kernelHalf k.mem k.cr3 e) } := by
  have howned := h.owned_switch hl (h.refs.dirs e he).1
  refine ⟨ha.pages, ha.keep, fun g hg hfree => ?_, fun g hg => ?_,
    ha.kernel.trans (h.keepsKernel_switch he), fun e' he' hdir => ?_⟩
  · rw [howned]
    exact ha.fresh g hg hfree
  · rw [howned] at hg
    exact ha.owned g hg
  · rw [← ha.self e' he' hdir]
    show update k.mem e _ e' 1023 = _
    by_cases heq : e' = e
    · rw [heq, update_self, kernelHalf, if_neg (by decide)]
    · rw [update_of_ne heq]

theorem free_of_free (ha : Account role₀ m₀ d role m) (hg : g ≠ d) (hfree : role g = .free) :
    role₀ g = .free := by
  by_contra hc
  exact hc ((ha.keep g hg hc).symm.trans hfree)

/-- **A page is mapped** in the directory. -/
theorem map (ha : Account role₀ m₀ k.cr3 role k.toMachine) (h : Inv role live dirs pins k)
    (hcur : Current live k.toMachine) (hva : va < kernelStart) (hflags : flags.toNat < 2 ^ 12)
    (halloc : allocFrame k.toMachine = .ok (m₁, f)) (hmap : vmmMap m₁ va f flags = .ok m) :
    ∃ role', Inv role' live dirs pins (k.set m) ∧ m.cr3 = k.cr3 ∧
      Account role₀ m₀ k.cr3 role' m := by
  obtain ⟨hal, h₁⟩ := h.alloc.of_ok halloc
  dsimp only at hal h₁
  obtain ⟨m₂, t, role', -, hlink, habsent, rfl, hpresent, hextends, hnew, ht, hf, h', hcr3⟩ :=
    h.map_frame hcur hva hflags halloc hmap
  have hw : WellFormed m₁ := h₁.wellFormed (hcur.congr hal.cr3)
  have hdir := h.refs.cr3_dir
  have hframe : frameOf (entry f flags) = f := frameOf_entry hal.aligned hal.lt hflags
  have hmem : m₁.mem = k.mem := by rw [hal.machine]
  have hpages : ∀ g, Pmm.Page m₂.regions g ↔ Pmm.Page m₁.regions g := by
    cases hlink with
    | old => exact fun _ => Iff.rfl
    | new _ halloc => exact (Pmm.pmmAlloc_some h₁.frames.layout halloc).page_iff
  have htable : t ∈ Vmm.owned k.mem k.cr3 ∨ role t = .free := by
    cases hlink with
    | old ht =>
      rw [hmem, hal.cr3] at ht
      exact .inl ⟨dirIndex va, dirIndex_lt hva, t, ht, .inl rfl⟩
    | new _ halloc =>
      have htakes := Pmm.pmmAlloc_some h₁.frames.layout halloc
      have hfree := h₁.frames.free t htakes.page htakes.free
      refine .inr ?_
      by_cases htf : t = f
      · exact htf ▸ hal.free
      · rw [← hfree, update_of_ne htf]
  have hfree : ∀ {g}, role g = .free → g ≠ k.cr3 ∧ role₀ g = .free := by
    intro g hg
    have hne : g ≠ k.cr3 := by
      rintro rfl
      exact nomatch hdir.symm.trans hg
    exact ⟨hne, ha.free_of_free hne hg⟩
  have howned : ∀ g, g ∈ Vmm.owned (m₂.mem.write t (tableIndex va) (entry f flags)) k.cr3 ↔
      g ∈ Vmm.owned k.mem k.cr3 ∨ g = t ∨ g = f := by
    intro g
    have hiff := hlink.mem_owned (g := g) hw hva habsent
      ((present_entry hal.aligned hal.lt hflags).mpr hpresent)
    rwa [hframe, hmem, hal.cr3, hcr3] at hiff
  refine ⟨role', h', hcr3, ⟨fun g => ?_, fun g hg hrole => ?_, fun g hg hg₀ => ?_, fun g hg => ?_,
    ha.kernel.trans ⟨fun i hi _ => ?_, fun va' hva' f' hf' => ?_⟩, fun e he hdir₀ => ?_⟩⟩
  · exact (hpages g).trans ((hal.takes.page_iff g).trans (ha.pages g))
  · rw [hextends g (by rw [ha.keep g hg hrole]; exact hrole), ha.keep g hg hrole]
  · rcases ha.fresh g hg hg₀ with hr | hr | hr
    · by_cases hgt : g = t ∨ g = f
      · exact .inr (.inr ((howned g).mpr (.inr hgt)))
      · exact .inl (hnew g hr (fun heq => hgt (.inl heq)) fun heq => hgt (.inr heq))
    · refine .inr (.inl ?_)
      rwa [hextends g fun hc => by rw [hc] at hr; exact hr]
    · exact .inr (.inr ((howned g).mpr (.inl hr)))
  · rcases (howned g).mp hg with hg | rfl | rfl
    · exact ha.owned g hg
    · exact htable.elim (ha.owned g) hfree
    · exact hfree hal.free
  · have hdt : k.cr3 ≠ t := by
      rintro rfl
      exact nomatch (h'.refs.dirs _ h.refs.cr3_mem).1.symm.trans ht
    have hi' : i ≠ dirIndex va := fun heq => hi.not_lt (heq ▸ dirIndex_lt hva)
    show m₂.mem.write t (tableIndex va) _ m₂.cr3 i = k.mem k.cr3 i
    rw [hcr3, Memory.write_of_ne hdt, hlink.mem_eq hdt fun _ => hi', hmem]
  · have hi := dirIndex_lt hva
    have hne : dirIndex va ≠ 1023 := fun heq => absurd (heq ▸ hi) (by decide)
    rw [hlink.translate_of_ne hw hne hva'.index.ne fun hc => hva'.index.not_lt (hc.1 ▸ hi), hmem,
      hal.cr3]
    exact hf'
  · rw [← ha.self e he hdir₀]
    have het : e ≠ t := by
      rintro rfl
      have hrole := ha.keep e he (by rw [hdir₀]; nofun)
      rw [hextends e (by rw [hrole, hdir₀]; nofun), hrole, hdir₀] at ht
      exact nomatch ht
    show m₂.mem.write t (tableIndex va) _ e 1023 = k.mem e 1023
    rw [Memory.write_of_ne het, hlink.mem_eq het fun heq => absurd (heq.trans hal.cr3) he, hmem]

/-- The second loop of `mmap`, when it comes to its end. -/
theorem mmapPages (ha : Account role₀ m₀ d role k.toMachine) (hd : k.cr3 = d)
    (h : Inv role live dirs pins k) (hcur : Current live k.toMachine) (hflags : flags.toNat < 2 ^ 12)
    (hpages : ∀ page ∈ pages, page < kernelStart)
    (hok : Vmm.mmapPages flags k.toMachine done pages = .ok (m, true)) :
    ∃ role', Inv role' live dirs pins (k.set m) ∧ m.cr3 = d ∧ Account role₀ m₀ d role' m := by
  induction pages generalizing k role done with
  | nil =>
    cases hok
    exact ⟨role, h, hd, ha⟩
  | cons page pages ih =>
    rw [List.forall_mem_cons] at hpages
    rcases mmapPages_cons_ok hok with ⟨_, _, _, hfalse⟩ | ⟨regions, f, m₂, halloc, hmap, hok⟩
    · cases hfalse
    · subst hd
      obtain ⟨role₂, h₂, hcr3₂, ha₂⟩ := ha.map h hcur hpages.1 hflags
        (allocFrame_eq_ok.mpr ⟨regions, halloc, rfl⟩) hmap
      exact ih (k := k.set m₂) ha₂ hcr3₂ h₂ (hcur.congr hcr3₂) hpages.2 hok

/-- **Memory is mapped on request.** -/
theorem mmap {addr size result : ℕ} (ha : Account role₀ m₀ d role k.toMachine) (hd : k.cr3 = d)
    (h : Inv role live dirs pins k) (hcur : Current live k.toMachine)
    (hok : syscallMmapHandler k.toMachine addr size flags = .ok (m, result)) (hresult : result ≠ 0) :
    ∃ role', Inv role' live dirs pins (k.set m) ∧ m.cr3 = d ∧ Account role₀ m₀ d role' m := by
  rcases syscallMmapHandler_eq_ok hok with ⟨-, rfl⟩ | ⟨mapped, hcheck, hloop, rfl⟩
  · exact absurd rfl hresult
  · cases mapped with
    | false => exact absurd rfl hresult
    | true => exact ha.mmapPages hd h hcur mmapFlags_lt (lt_of_mmapCheck hcheck) hloop

theorem mmaps (ha : Account role₀ m₀ d role k.toMachine) (hd : k.cr3 = d)
    (h : Inv role live dirs pins k) (hcur : Current live k.toMachine) (hm : Mmaps k.toMachine m) :
    ∃ role', Inv role' live dirs pins (k.set m) ∧ m.cr3 = d ∧ Account role₀ m₀ d role' m := by
  induction hm with
  | refl => exact ⟨role, h, hd, ha⟩
  | @tail m₁ _ _ _ _ _ _ hok hresult ih =>
    obtain ⟨role₁, h₁, hcr3, ha₁⟩ := ih
    exact ha₁.mmap (k := k.set m₁) hcr3 h₁ (hcur.congr (hcr3.trans hd.symm)) hok hresult

/-- **The directory is destroyed**: what is left are the frames of the kernel. -/
theorem destroyed (ha : Account role₀ m₀ d role m)
    (hd : role₀ d = .free ∨ role₀ d = .kernelPage a) (hd' : role' d = .kernelPage a)
    (hfreed : ∀ g ∈ Vmm.owned m.mem d, role' g = .free ∨ (role' g).Kernel)
    (hp : Preserves (insert d (Vmm.owned m.mem d)) ∅ ∅ role m role' m') (g : ℕ) :
    (role₀ g ≠ .free → role' g = role₀ g) ∧
      (role₀ g = .free → role' g = .free ∨ (role' g).Kernel) := by
  by_cases hgd : g = d
  · subst hgd
    refine ⟨fun hg => ?_, fun _ => .inr (by rw [hd']; trivial)⟩
    rw [hd', hd.resolve_left hg]
  · constructor
    · intro hg
      have hnot : g ∉ insert d (Vmm.owned m.mem d) := fun hc =>
        (Set.mem_insert_iff.mp hc).elim hgd fun hc => hg (ha.owned g hc).2
      rw [hp.keep g hnot (by rw [ha.keep g hgd hg]; exact hg), ha.keep g hgd hg]
    · intro hg
      by_cases hgo : g ∈ Vmm.owned m.mem d
      · exact hfreed g hgo
      · have hnot : g ∉ insert d (Vmm.owned m.mem d) := fun hc =>
          (Set.mem_insert_iff.mp hc).elim hgd hgo
        rcases ha.fresh g hgd hg with hr | hr | hr
        · exact hp.fresh g hnot (Set.notMem_empty _) hr
        · refine .inr ?_
          rwa [hp.keep g hnot fun hc => by rw [hc] at hr; exact hr]
        · exact absurd hr hgo

end Account

/-- Neither the current directory nor a page table of the kernel is among the frames that are
freed. -/
theorem TasksInv.keepsKernel_destroy (h : TasksInv role (task :: ts) k) (hne : task.cr3 ≠ k.cr3)
    (hp : Preserves (insert task.cr3 (owned k.mem task.cr3)) ∅ ∅ role k.toMachine role' m) :
    KeepsKernel k.toMachine m := by
  have howned : ∀ {g}, g ∈ owned k.mem task.cr3 → (role g).Owned :=
    h.inv.role_owned fun i hi => ⟨.head _, hi⟩
  have hdir : ∀ {d}, d ∈ (task :: ts).map Task.cr3 → role d = .directory := fun hd =>
    (h.inv.refs.dirs _ hd).1
  refine h.inv.keepsKernel hp (fun hc => ?_) fun t i ht hc => ?_
  · rcases Set.mem_insert_iff.mp hc with heq | hc
    · exact hne heq.symm
    · have hrole := howned hc
      rw [hdir h.inv.refs.cr3_mem] at hrole
      exact hrole
  · rcases Set.mem_insert_iff.mp hc with rfl | hc
    · exact nomatch (hdir (.head _)).symm.trans ht
    · have hrole := howned hc
      rw [ht] at hrole
      exact hrole

/-- A frame that was free and is the kernel's belongs to what the heap has grown by. -/
theorem TasksInv.grown (h₀ : TasksInv role₀ ts k) (h : TasksInv role ts k')
    (hkernel : KeepsKernel k.toMachine k'.toMachine) (hfree : ¬ Pmm.Taken k.regions f)
    (hrole₀ : role₀ f = .free) (hrole : (role f).Kernel) :
    Grown k.toMachine k'.toMachine f := by
  cases hr : role f with
  | kernelTable i =>
    obtain ⟨hi, ht⟩ := h.inv.kernel f i hr
    refine .inl ⟨i, hi, ?_, ht⟩
    rw [target_eq_none]
    intro hpresent
    rw [hkernel.pde i hi hpresent] at ht
    have hrole := h₀.inv.refs.kernelTable hi ht
    exact nomatch hrole₀.symm.trans hrole
  | kernelPage va =>
    have hbacks := h.inv.backs f va hr
    have hmapped : translate k'.mem k'.cr3 va = some f := hbacks.mapped (by rw [h.maps]; nofun)
    refine .inr ⟨va, hbacks.page, hmapped, fun g hg => ?_⟩
    obtain rfl := Option.some.inj ((hkernel.page va hbacks.page g hg).symm.trans hmapped)
    exact hfree
  | free | loose | directory | table | page =>
    rw [hr] at hrole
    exact hrole.elim

theorem Inv.usable (h : Inv role live dirs pins k) (hcur : Current live k.toMachine) :
    Usable k.toMachine where
  toRunning := (h.wellFormed hcur).toRunning
  layout := h.frames.layout
  tables i t ht hpage := by
    by_contra hfree
    have hrole := h.frames.free t hpage hfree
    by_cases hi : i = 1023
    · rw [hi, h.refs.self] at ht
      rw [← Option.some.inj ht, h.refs.cr3_dir] at hrole
      cases hrole
    · rw [h.pde_role hcur hi ht, pdeRole] at hrole
      split at hrole <;> cases hrole

end Rastapopoulos.Vmm
