import Rastapopoulos.Vmm.Transient

/-!
# Cloning

`vmm_clone_pagedir` makes a directory whose user's half has pages and page tables of its own. Each
frame gets its role as soon as it is empty: the directory and its page tables then have no entries
yet, and each entry that is written leads to a frame with the role for it. Entries and what they
lead to are copies (`EntryCopy`, `TableCopy`, `PageCopy`), and the directory that is cloned stays as
it is (`SameHalf`).
-/

namespace Rastapopoulos.Vmm

open Paging Function
open KernelHeap (pageSize)

variable {D X S : Set ℕ} {role role' : ℕ → Role} {live live' : ℕ → Fin 1024 → Prop}
  {dirs : List ℕ} {pins : List (ℕ × ℕ)} {k k' : Kernel} {m m' : Machine} {mem mem' : Memory}
  {a d f g s t va dst src result : ℕ} {i i₀ j : Fin 1024} {flags e e' : BitVec 32}
  {R R' : ℕ → ℕ → Prop}

/-! ## Entries -/

theorem mem_userPdes : i ∈ userPdes ↔ i < 768 := by simp [userPdes]

theorem nodup_userPdes : userPdes.Nodup := (List.nodup_finRange 1024).filter _

theorem mem_kernelPdes : i ∈ kernelPdes ↔ KernelIndex i := by simp [kernelPdes, KernelIndex]

/-! ## Copies -/

/-- Two entries have the same flags, and lead to frames that are related. -/
structure EntryCopy (R : ℕ → ℕ → Prop) (e e' : BitVec 32) : Prop where
  present : Present e' ↔ Present e
  flags : Present e → flagsOf e' = flagsOf e
  frame : Present e → R (frameOf e) (frameOf e')

theorem EntryCopy.imp (h : EntryCopy R e e')
    (hR : Present e → R (frameOf e) (frameOf e') → R' (frameOf e) (frameOf e')) :
    EntryCopy R' e e' :=
  ⟨h.present, h.flags, fun he => hR he (h.frame he)⟩

theorem EntryCopy.of_not (he : ¬ Present e) (he' : ¬ Present e') : EntryCopy R e e' :=
  ⟨iff_of_false he' he, fun hc => absurd hc he, fun hc => absurd hc he⟩

/-- The entry for another frame, with the same flags. -/
theorem entryCopy_ofNat (hf : f % pageSize = 0) (hlt : f < wordMod) (he : Present e) :
    target (BitVec.ofNat 32 f ||| flagsOf e) = some f ∧
      ∀ {R : ℕ → ℕ → Prop}, R (frameOf e) f → EntryCopy R e (BitVec.ofNat 32 f ||| flagsOf e) := by
  have hentry : BitVec.ofNat 32 f ||| flagsOf e = entry f (flagsOf e) := by
    rw [entry, ofNat_and_mask hf hlt]
  have htarget := target_entry hf hlt flagsOf_lt (present_flagsOf.mpr he)
  obtain ⟨hpresent, hframe⟩ := target_eq_some.mp htarget
  rw [hentry]
  refine ⟨htarget, fun hR => ⟨iff_of_true hpresent he, fun _ => flagsOf_entry hf hlt flagsOf_lt,
    fun _ => ?_⟩⟩
  rwa [hframe]

/-- A frame that was free has the content of a page. -/
def PageCopy (role : ℕ → Role) (mem mem' : Memory) (f f' : ℕ) : Prop :=
  role f' = .free ∧ mem' f' = mem f

/-- A frame that was free has the entries of a page table, for pages of its own. -/
def TableCopy (role : ℕ → Role) (mem mem' : Memory) (s t : ℕ) : Prop :=
  role t = .free ∧ ∀ j, EntryCopy (PageCopy role mem mem') (mem s j) (mem' t j)

/-- The user's half of a directory, with its page tables and pages, is the same. -/
structure SameHalf (d : ℕ) (mem mem' : Memory) : Prop where
  pde : ∀ i, i < 768 → mem' d i = mem d i
  table : ∀ i, i < 768 → ∀ t, target (mem d i) = some t → mem' t = mem t
  page : ∀ i, i < 768 → ∀ t, target (mem d i) = some t → ∀ j f, target (mem t j) = some f →
    mem' f = mem f

/-- The kernel's own work does not concern the user's half of a directory. -/
theorem Inv.sameHalf (h : Inv role live dirs pins k) (hlive : ∀ i, i < 768 → live d i)
    (hp : Preserves D X S role k.toMachine role' m) (hd : d ∉ D)
    (hD : ∀ g ∈ D, ¬ (role g).Owned ∨ role g = .loose) : SameHalf d k.mem m.mem := by
  have hnot : ∀ {g r}, role g = r → r.Owned → r ≠ .loose → g ∉ D := by
    rintro g r rfl howned hloose hg
    exact (hD g hg).elim (fun hc => hc howned) hloose
  have htable : ∀ {i}, i < 768 → ∀ t, target (k.mem d i) = some t → role t = .table d i :=
    fun hi => (h.refs.live d _ (hlive _ hi)).2.2
  refine ⟨fun i hi => ?_, fun i hi t ht => ?_, fun i hi t ht j f hf => ?_⟩
  · rcases hp.pde d hd (h.refs.live d i (hlive i hi)).2.1 i with hsame | hadded
    · exact hsame
    · exact absurd hi hadded.2.1.not_lt
  · have hrole := htable hi t ht
    exact hp.content t (hnot hrole trivial (by nofun)) (by rw [hrole]; trivial)
  · have hrole := h.refs.page t d i (htable hi t ht) j f hf
    exact hp.content f (hnot hrole trivial (by nofun)) (by rw [hrole]; trivial)

/-- Copies stay copies when their frames are left alone. -/
theorem TableCopy.congr {mem'' : Memory} (h : TableCopy role mem mem' s t) (ht : mem'' t = mem' t)
    (hpages : ∀ j f, target (mem' t j) = some f → mem'' f = mem' f) :
    TableCopy role mem mem'' s t := by
  refine ⟨h.1, fun j => ?_⟩
  rw [ht]
  refine (h.2 j).imp fun hpresent ⟨hfree, hmem⟩ => ⟨hfree, ?_⟩
  rw [hpages j _ ((h.2 j).present.mpr hpresent).target, hmem]

/-- The entries of a directory, with those of another one in the kernel's half. -/
def kernelHalf (mem : Memory) (cr3 d : ℕ) : Fin 1024 → BitVec 32 := fun i =>
  if KernelIndex i then mem cr3 i else mem d i

/-! ## Copying -/

/-- A page is copied to another frame. -/
theorem copyPage_eq (hne : g ≠ f)
    (hdst : ∀ mem : Memory, (∀ g', g' ≠ f → mem g' = m.mem g') → ∀ i : Fin 1024,
      translate mem m.cr3 (dst + 4 * i) = some f ∧ wordIndex (dst + 4 * i) = i)
    (hsrc : ∀ mem : Memory, (∀ g', g' ≠ f → mem g' = m.mem g') → ∀ i : Fin 1024,
      translate mem m.cr3 (src + 4 * i) = some g ∧ wordIndex (src + 4 * i) = i) :
    copyPage m dst src = .ok { m with mem := update m.mem f (m.mem g) } := by
  -- what is read does not depend on what has been written
  have hloop : ∀ (l : List (Fin 1024)) (mem : Memory), (∀ g', g' ≠ f → mem g' = m.mem g') →
      l.foldlM (fun m (i : Fin 1024) => do
        let w ← readWord m (src + 4 * i)
        writeWord m (dst + 4 * i) w) { m with mem := mem } =
      l.foldlM (fun m' (i : Fin 1024) => writeWord m' (dst + 4 * i) (m.mem g i))
        { m with mem := mem } := by
    intro l
    induction l with
    | nil => exact fun _ _ => rfl
    | cons i l ih =>
      intro mem hmem
      obtain ⟨hread, hidx⟩ := hsrc mem hmem i
      obtain ⟨hwrite, -⟩ := hdst mem hmem i
      have hread' : readWord { m with mem := mem } (src + 4 * i) = .ok (m.mem g i) := by
        rw [readWord_of hread, hidx]
        exact congrArg Except.ok (congrFun (hmem g hne) i)
      rw [List.foldlM_cons, List.foldlM_cons, hread', ok_bind, writeWord_of hwrite, ok_bind, ok_bind]
      exact ih _ fun g' hg' => (Memory.write_of_ne hg').trans (hmem g' hg')
  refine (hloop _ m.mem fun _ _ => rfl).trans ?_
  rw [foldlM_writeWord (c := m.mem g) hdst]
  simp

theorem Allocates.spends (h : Allocates role k m f) : Spends 0 1 k (k.set m) := by
  refine .set ?_
  rw [h.machine]
  exact .alloc h.alloc

/-- The frames that the copy of an entry takes. -/
def entryFrames (e : BitVec 32) : ℕ := if Present e then 1 else 0

/-- The pages of a page table. -/
def pageCount (mem : Memory) (s : ℕ) : ℕ :=
  ((List.finRange 1024).map fun j => entryFrames (mem s j)).sum

/-- The pages of the page table that an entry of a directory leads to. -/
def tablePages (mem : Memory) (e : BitVec 32) : ℕ :=
  if Present e then pageCount mem (frameOf e) else 0

/-- The frames that the copy of an entry of a directory takes. -/
def tableFrames (mem : Memory) (e : BitVec 32) : ℕ := entryFrames e + tablePages mem e

/-- The allocations of the heap that the copy of an entry of a directory takes. -/
def tableAnswers (mem : Memory) (e : BitVec 32) : ℕ := 2 * entryFrames e + 4 * tablePages mem e

/-- The frames that `vmm_clone_pagedir` takes, those that the heap grows by apart. -/
def forkFrames (k : Kernel) : ℕ :=
  (userPdes.map fun i => tableFrames k.mem (k.mem k.cr3 i)).sum

/-- The allocations of the heap in `vmm_clone_pagedir`. -/
def forkAnswers (k : Kernel) : ℕ :=
  1 + (userPdes.map fun i => tableAnswers k.mem (k.mem k.cr3 i)).sum

/-- The frames that an entry of a directory leads to. -/
def Under (mem : Memory) (d : ℕ) (i : Fin 1024) : Set ℕ :=
  {g | ∃ t, target (mem d i) = some t ∧ (g = t ∨ ∃ j, target (mem t j) = some g)}

theorem Under_congr (hd : mem' d i = mem d i)
    (ht : ∀ t, target (mem d i) = some t → mem' t = mem t) : Under mem' d i = Under mem d i := by
  ext g
  simp only [Under, hd]
  refine exists_congr fun t => and_congr_right fun htarget => ?_
  rw [ht t htarget]

/-- The frames of the user's half of a directory. -/
def owned (mem : Memory) (d : ℕ) : Set ℕ := {g | ∃ i, i < 768 ∧ g ∈ Under mem d i}

/-- The directory `d`, at `a`, is a clone of the current one. -/
structure Cloned (role : ℕ → Role) (k k' : Kernel) (a d : ℕ) : Prop where
  obtains : Obtains k k' a
  user : ∀ i, i < 768 → EntryCopy (TableCopy role k.mem k'.mem) (k.mem k.cr3 i) (k'.mem d i)
  kernel : ∀ i, KernelIndex i → k'.mem d i = k'.mem k'.cr3 i
  self : k'.mem d 1023 = entry d (vmmPagePresent ||| vmmPageWritable)

theorem SameHalf.tablePages (h : SameHalf d mem mem') (hi : i < 768) :
    Vmm.tablePages mem' (mem d i) = Vmm.tablePages mem (mem d i) := by
  unfold Vmm.tablePages
  split
  · rename_i hpresent
    rw [pageCount, h.table i hi _ hpresent.target, pageCount]
  · rfl

namespace Inv

/-- A store through a pin to a frame that is not the directory costs nothing. -/
theorem spends_write (hne : t ≠ k.cr3) (c : Fin 1024 → BitVec 32) :
    Spends 0 0 k (k.set { k.toMachine with mem := update k.mem t c }) := by
  refine .set ((Pays.refl _).congr (fun i => ?_) rfl)
  show target (update k.mem t c k.cr3 i) = _
  rw [update_of_ne hne.symm]

theorem ne_cr3 (h : Inv role live dirs pins k) (ht : role t ≠ .directory) : t ≠ k.cr3 :=
  fun heq => ht (heq ▸ h.refs.cr3_dir)

/-- **An entry of a page table is cloned.** -/
theorem cloneEntry (h : Inv role live dirs pins k) (hcur : Current live k.toMachine)
    (ht : role t = .table d i) (hdst : (dst, t) ∈ pins) (hi₀ : i₀ < 768)
    (hs : target (k.mem k.cr3 i₀) = some s) :
    Ends (Vmm.cloneEntry dst (getPagetable ⟨i₀, 0⟩) k j)
      (Starved (4 * entryFrames (k.mem s j)) (entryFrames (k.mem s j)) k) fun k' =>
      Same k k' ∧ Spends (4 * entryFrames (k.mem s j)) (entryFrames (k.mem s j)) k k' ∧
      (∀ j', j' ≠ j → k'.mem t j' = k.mem t j') ∧
      (¬ Present (k.mem s j) → k'.mem t j = k.mem t j) ∧
      (Present (k.mem s j) →
        EntryCopy (PageCopy role k.mem k'.mem) (k.mem s j) (k'.mem t j)) ∧
      ∃ role', role' t = .table d i ∧ Inv role' live dirs pins k' ∧
        Preserves {t} ∅ {g | target (k'.mem t j) = some g} role k.toMachine role' k'.toMachine := by
  have hread : readWord k.toMachine (getPagetable ⟨i₀, 0⟩ + 4 * j) = .ok (k.mem s j) :=
    readWord_pagetableEntry h.refs.self j hs
  rw [Vmm.cloneEntry, hread, ok_bind]
  set e := k.mem s j with he
  split
  · rename_i hpresent
    rw [entryFrames, if_pos hpresent]
    refine (h.alloc.mono (fun x hx => Starved.mono (n := 0) hx (by decide) (by decide))
      fun _ => id).bind ?_
    rintro ⟨m₁, f⟩ ⟨halloc, h₁⟩
    dsimp only at halloc h₁ ⊢
    have hsp₁ := halloc.spends
    have hcur₁ : Current live (k.set m₁).toMachine := hcur.congr halloc.cr3
    have hp₁ : Preserves {f} ∅ ∅ role k.toMachine (update role f .loose) m₁ :=
      .alloc halloc rfl
    set role₁ := update role f .loose
    have hf₁ : role₁ f = .loose := update_self ..
    -- the page and the new frame are mapped
    refine ((h₁.vmmTransientMap hcur₁ (frameOf_mod e) frameOf_lt (by decide) (by decide)).mono
      (fun x hx => (hsp₁.starved hx).mono (by decide) (by decide)) fun _ => id).bind ?_
    rintro ⟨k₂, srcBuf⟩ ⟨hsp₂, role₂, e₂, hop₂, h₂, hp₂⟩
    have hcur₂ := hcur₁.congr hop₂.cr3
    refine ((h₂.vmmTransientMap hcur₂ halloc.aligned halloc.lt (by decide) (by decide)).mono
      (fun x hx => ((hsp₁.trans hsp₂).starved hx).mono (by decide) (by decide)) fun _ => id).bind ?_
    rintro ⟨k₃, dstBuf⟩ ⟨hsp₃, role₃, e₃, hop₃, h₃, hp₃⟩
    dsimp only at hsp₃ hop₃ h₃ hp₃ ⊢
    have hext : ∀ g, role₁ g ≠ .free → role₃ g = role₁ g := by
      intro g hg
      have hg₂ := hp₂.keep g (Set.notMem_empty g) hg
      exact (hp₃.keep g (Set.notMem_empty g) (hg₂ ▸ hg)).trans hg₂
    have hf₃ : role₃ f = .loose := by rw [hext f (by simp [hf₁]), hf₁]
    -- the page is copied
    have hrole := (h.refs.live _ _ (hcur _ hi₀)).2.2 s hs
    have hpage : role (frameOf e) = .page s j :=
      h.refs.page s _ _ hrole j _ hpresent.target
    have hgf : ∀ {g}, role g ≠ .free → g ≠ f := fun hg heq => hg (heq ▸ halloc.free)
    have hkeep₁ : ∀ {g}, role g ≠ .free → role₁ g = role g := fun hg =>
      update_of_ne (hgf hg) _ _
    have hpage₁ : role₁ (frameOf e) = .page s j := (hkeep₁ (by simp [hpage])).trans hpage
    have hpage₂ : role₂ (frameOf e) = .page s j :=
      (hp₂.keep _ (Set.notMem_empty _) (by simp [hpage₁])).trans hpage₁
    have hcontent : k₃.mem (frameOf e) = k.mem (frameOf e) := by
      rw [hp₃.content _ (Set.notMem_empty _) (by rw [hpage₂]; trivial),
        hp₂.content _ (Set.notMem_empty _) (by rw [hpage₁]; trivial)]
      exact hp₁.content _ (hgf (by simp [hpage])) (by rw [hpage]; trivial)
    have hne := h₃.ne_cr3 (t := f) (by simp [hf₃])
    have hkernel : ∀ i, role₃ f ≠ .kernelTable i := by
      simp [hf₃]
    rw [copyPage_eq (hgf (by simp [hpage]))
      (fun _ hmem => h₃.translate_pin_of_eq (.head _) hne hkernel hmem)
      (fun _ hmem => h₃.translate_pin_of_eq (.tail _ (.head _)) hne
        hkernel hmem), ok_bind]
    have h₄ := h₃.update_data (c := k₃.mem (frameOf e)) (by simp [hf₃]) (by simp [hf₃])
      hkernel
    have hsp₄ := spends_write hne (k₃.mem (frameOf e))
    have hp₄ : Preserves {f} ∅ ∅ role₃ k₃.toMachine role₃ { k₃.toMachine with
        mem := update k₃.mem f (k₃.mem (frameOf e)) } :=
      .write (Set.mem_singleton f) _
    set k₄ := k₃.set { k₃.toMachine with mem := update k₃.mem f (k₃.mem (frameOf e)) }
    have hmem₄ : k₄.mem f = k₃.mem (frameOf e) := update_self ..
    -- and both maps are undone
    obtain ⟨k₅, hun₅, hs₅, hsp₅, h₅, hp₅, hmem₅⟩ :=
      h₂.vmmTransientUnmap hcur₂ hop₃ hp₃ h₄ (.set rfl) hp₄
    obtain ⟨k₆, hun₆, hs₆, hsp₆, h₆, hp₆, hmem₆⟩ := h₁.vmmTransientUnmap hcur₁ hop₂ hp₂ h₅ hs₅ hp₅
    rw [hun₅, ok_bind, hun₆, ok_bind]
    have hp := hp₁.trans hp₆
    -- the frame gets its role, and the entry is written
    have htf : t ≠ f := hgf (by simp [ht])
    have ht₆ : role₃ t = .table d i := by rw [hp.keep t htf (by simp [ht]), ht]
    have h₇ := h₆.relabel hf₃ (r := .page t j) trivial (by simp)
    have ht₇ : update role₃ f (.page t j) t = .table d i := by
      rw [update_of_ne htf, ht₆]
    obtain ⟨htarget, hcopy⟩ := entryCopy_ofNat halloc.aligned halloc.lt hpresent
    set w := BitVec.ofNat 32 f ||| flagsOf e
    rw [h₇.writeWord_pin hdst, ok_bind, pure_eq_ok]
    have hsp₇ := spends_write (h₆.ne_cr3 (t := t) (by simp [ht₆]))
      (update (k₆.mem t) j w)
    have hmem : ∀ {j'}, k₆.mem.write t j w t j' = if j' = j then w else k.mem t j' := by
      intro j'
      rw [Memory.write_apply]
      simp only [true_and]
      split
      · rfl
      · exact congrFun (hp.content t htf (by rw [ht]; trivial)) j'
    refine .ok ⟨(Same.set (k := k) halloc.cr3).trans (hs₆.trans (.set rfl)), ?_, fun j' hj' => ?_,
      fun hc => absurd hpresent hc, fun _ => ?_, _, ht₇, h₇.write_pte ht₇ fun g hg => ?_, ?_⟩
    · exact (((((hsp₁.trans hsp₂).trans hsp₃).trans hsp₄).trans hsp₅).trans hsp₆).trans hsp₇
    · exact hmem.trans (if_neg hj')
    · have hf₆ : k₆.mem.write t j w f = k.mem (frameOf e) := by
        rw [Memory.write_of_ne htf.symm, hmem₆ f (by rw [hf₃]; trivial),
          hmem₅ f (by rw [hf₃]; trivial), hmem₄, hcontent]
      show EntryCopy _ e (k₆.mem.write t j w t j)
      rw [Memory.write_same]
      exact hcopy ⟨halloc.free, hf₆⟩
    · obtain rfl := Option.some.inj (htarget.symm.trans hg)
      exact update_self ..
    · have hp₈ : Preserves {t, f} ∅ {g | target (k₆.mem.write t j w t j) = some g} role
          k.toMachine (update role₃ f (.page t j))
          { k₆.toMachine with mem := k₆.mem.write t j w } :=
        ((hp.mono (Set.subset_insert _ _) subset_rfl (Set.empty_subset _)).trans
          (.relabel (.inr rfl) _)).trans (.write (.inl rfl) _)
      refine hp₈.shrink (fun g hg => Or.symm hg) halloc.free (.inl ?_)
      show target (k₆.mem.write t j w t j) = some f
      rw [Memory.write_same, htarget]
  · rename_i habsent
    rw [entryFrames, if_neg habsent]
    exact .ok ⟨.refl k, .refl k, fun _ _ => rfl, fun _ => rfl, fun hc => absurd hc habsent, role, ht, h,
      .refl ..⟩

/-- **A page table is cloned**, into a frame in hand that gets its role. -/
theorem clonePagetable (h : Inv role live dirs pins k) (hcur : Current live k.toMachine)
    (ht : role t = .loose) (hdst : (dst, t) ∈ pins) (hi₀ : i₀ < 768)
    (hs : target (k.mem k.cr3 i₀) = some s) (d : ℕ) (i : Fin 1024) :
    Ends (Vmm.clonePagetable k dst (getPagetable ⟨i₀, 0⟩))
      (Starved (4 * pageCount k.mem s) (pageCount k.mem s) k) fun k' =>
      Same k k' ∧ Spends (4 * pageCount k.mem s) (pageCount k.mem s) k k' ∧
      (∀ j, EntryCopy (PageCopy role k.mem k'.mem) (k.mem s j) (k'.mem t j)) ∧
      ∃ role', role' t = .table d i ∧ Inv role' live dirs pins k' ∧
        Preserves {t} ∅ {g | ∃ j, target (k'.mem t j) = some g} role k.toMachine role'
          k'.toMachine := by
  have hne : t ≠ k.cr3 := h.ne_cr3 (by rw [ht]; nofun)
  rw [Vmm.clonePagetable, h.bzero_pin hdst hne (by rw [ht]; nofun), ok_bind]
  have h₁ : Inv role live dirs pins (k.set { k.toMachine with mem := k.mem.clear t }) :=
    h.update_data (by rw [ht]; nofun) (by rw [ht]; nofun) (by rw [ht]; nofun)
  have h₂ := h₁.relabel ht (r := .table d i) trivial fun _ j => by
    show target (k.mem.clear t t j) = none
    rw [Memory.clear_same]
    rfl
  have hp₂ : Preserves {t} ∅ {g | ∃ j, target (k.mem.clear t t j) = some g} role k.toMachine
      (update role t (.table d i)) { k.toMachine with mem := k.mem.clear t } :=
    (Preserves.write (Set.mem_singleton t) _).trans (.relabel (Set.mem_singleton t) _)
  have hhalf : ∀ {S role' m}, Preserves {t} ∅ S role k.toMachine role' m →
      SameHalf k.cr3 k.mem m.mem := fun hp =>
    h.sameHalf hcur hp (fun heq => hne (Set.mem_singleton_iff.mp heq).symm) fun g hg =>
      .inr (Set.mem_singleton_iff.mp hg ▸ ht)
  -- entries in the rest of the loop are still clear, and the others are copies
  have hsp₀ := spends_write hne fun _ => 0
  have hentries₀ : ∀ j, k.mem.clear t t j = 0 := fun _ => Memory.clear_same
  refine Ends.mono (Ends.foldlM (P := fun rest k' => rest.Nodup ∧ Same k k' ∧
    (∃ c, c + (rest.map fun j => entryFrames (k.mem s j)).sum = pageCount k.mem s ∧
      Spends (4 * c) c k k') ∧
    (∀ j, j ∈ rest ∧ k'.mem t j = 0 ∨
      j ∉ rest ∧ EntryCopy (PageCopy role k.mem k'.mem) (k.mem s j) (k'.mem t j)) ∧
    ∃ role', role' t = .table d i ∧ Inv role' live dirs pins k' ∧
      Preserves {t} ∅ {g | ∃ j, target (k'.mem t j) = some g} role k.toMachine role'
        k'.toMachine) (fun j rest k₁ hP => ?_) ?_) (fun _ => id) ?_
  · obtain ⟨hnodup, hs₁, ⟨c, hc, hsp₁⟩, hentries, role₁, ht₁, h₁, hp₁⟩ := hP
    obtain ⟨hj, hnodup⟩ := List.nodup_cons.mp hnodup
    have hhalf₁ := hhalf hp₁
    have hs' : target (k₁.mem k₁.cr3 i₀) = some s := by rw [hs₁.cr3, hhalf₁.pde i₀ hi₀, hs]
    have hsource : k₁.mem s = k.mem s := hhalf₁.table i₀ hi₀ s hs
    rw [List.map_cons, List.sum_cons] at hc
    have hcost : entryFrames (k₁.mem s j) = entryFrames (k.mem s j) := by rw [hsource]
    have hclone := h₁.cloneEntry (j := j) (hcur.congr hs₁.cr3) ht₁ hdst hi₀ hs'
    refine hclone.mono (fun e he => (hsp₁.starved he).mono (by omega) (by omega)) ?_
    rintro k₂ ⟨hs₂, hsp₂, hother, hsame, hcopy, role₂, ht₂, h₂, hp₂⟩
    have hzero : k₁.mem t j = 0 := by
      rcases hentries j with ⟨-, hzero⟩ | ⟨hc, -⟩
      · exact hzero
      · exact absurd (.head _) hc
    have hfree : ∀ {g}, role₁ g = .free → role g = .free :=
      hp₁.free_of_ne (by simp [ht₁])
    refine ⟨hnodup, hs₁.trans hs₂, ⟨c + entryFrames (k₁.mem s j), by omega, ?_⟩, fun j' => ?_, role₂,
      ht₂, h₂, ?_⟩
    · rw [Nat.mul_add]
      exact hsp₁.trans hsp₂
    · by_cases hjj : j' = j
      · subst hjj
        refine .inr ⟨hj, ?_⟩
        by_cases hpresent : Present (k₁.mem s j')
        · rw [← hsource]
          refine (hcopy hpresent).imp fun _ ⟨hfree₁, hmem⟩ => ⟨hfree hfree₁, hmem.trans ?_⟩
          exact hhalf₁.page i₀ hi₀ s hs j' _ (target_eq_some.mpr ⟨hsource ▸ hpresent, by rw [hsource]⟩)
        · rw [← hsource]
          refine .of_not hpresent ?_
          rw [hsame hpresent, hzero]
          decide
      · rw [hother j' hjj]
        refine (hentries j').imp (fun ⟨hmem, hzero⟩ => ⟨?_, hzero⟩) fun ⟨hmem, hcopied⟩ => ⟨?_, ?_⟩
        · exact (List.mem_cons.mp hmem).resolve_left hjj
        · exact fun hc => hmem (.tail _ hc)
        · -- a page that has been copied is left alone
          refine hcopied.imp fun hpresent ⟨hfree', hmem'⟩ => ⟨hfree', ?_⟩
          have hrole := h₁.refs.page t d i ht₁ j' _
            (hcopied.present.mpr hpresent).target
          rw [hp₂.content _ (fun hc => ?_) (by rw [hrole]; trivial), hmem']
          rw [Set.mem_singleton_iff.mp hc, ht₁] at hrole
          exact nomatch hrole
    · refine (hp₁.mono subset_rfl subset_rfl ?_).trans
        (hp₂.mono subset_rfl subset_rfl fun g hg => ⟨j, hg⟩)
      rintro g ⟨j', hg⟩
      refine ⟨j', ?_⟩
      rw [hother j']
      · exact hg
      · rintro rfl
        rw [hzero] at hg
        exact nomatch hg
  · exact ⟨List.nodup_finRange _, .set rfl, ⟨0, Nat.zero_add _, hsp₀⟩,
      fun j => .inl ⟨List.mem_finRange j, hentries₀ j⟩, _, update_self .., h₂, hp₂⟩
  · rintro k' ⟨-, hsame, ⟨c, hc, hsp⟩, hentries, hrest⟩
    rw [List.map_nil, List.sum_nil, Nat.add_zero] at hc
    rw [hc] at hsp
    exact ⟨hsame, hsp, fun j => (hentries j).elim (fun hc => absurd hc.1 List.not_mem_nil) And.right,
      hrest⟩

/-- **An entry of the directory is cloned**, into a directory that is under construction. -/
theorem clonePde (h : Inv role live dirs pins k) (hcur : Current live k.toMachine)
    (hd : role d = .directory) (hne : d ≠ k.cr3) (hresult : (result, d) ∈ pins) (hi : i < 768)
    (hzero : k.mem d i = 0) :
    Ends (Vmm.clonePde result k i)
      (Starved (tableAnswers k.mem (k.mem k.cr3 i)) (tableFrames k.mem (k.mem k.cr3 i)) k) fun k' =>
      Same k k' ∧
      Spends (tableAnswers k.mem (k.mem k.cr3 i)) (tableFrames k.mem (k.mem k.cr3 i)) k k' ∧
      (∀ i', i' ≠ i → k'.mem d i' = k.mem d i') ∧
      EntryCopy (TableCopy role k.mem k'.mem) (k.mem k.cr3 i) (k'.mem d i) ∧
      ∃ role', role' d = .directory ∧ Inv role' live dirs pins k' ∧
        Preserves {d} ∅ (Under k'.mem d i) role k.toMachine role' k'.toMachine := by
  rw [Vmm.clonePde, readWord_pagedirEntry h.refs.self, ok_bind]
  set pde := k.mem k.cr3 i with hpde
  set s := frameOf pde with hs
  split
  · rename_i hpresent
    have htarget : target (k.mem k.cr3 i) = some s := hpresent.target
    have hcosts : tableAnswers k.mem pde = 2 + 4 * pageCount k.mem s ∧
        tableFrames k.mem pde = 1 + pageCount k.mem s := by
      rw [tableAnswers, tableFrames, tablePages, entryFrames, if_pos hpresent, if_pos hpresent]
      exact ⟨rfl, rfl⟩
    rw [hcosts.1, hcosts.2]
    refine (h.alloc.mono (fun x hx => Starved.mono (n := 0) hx (by omega) (by omega))
      fun _ => id).bind ?_
    rintro ⟨m₁, f⟩ ⟨halloc, h₁⟩
    have hsp₁ := halloc.spends
    have hcur₁ : Current live (k.set m₁).toMachine := hcur.congr halloc.cr3
    have hp₁ : Preserves {f} ∅ ∅ role k.toMachine (update role f .loose) m₁ :=
      .alloc halloc (Set.mem_singleton f)
    set role₁ := update role f .loose
    have hf₁ : role₁ f = .loose := update_self ..
    refine ((h₁.vmmTransientMap hcur₁ halloc.aligned halloc.lt (by decide) (by decide)).mono
      (fun x hx => (hsp₁.starved hx).mono (by omega) (by omega)) fun _ => id).bind ?_
    rintro ⟨k₂, dst⟩ ⟨hsp₂, role₂, e₂, hop₂, h₂, hp₂⟩
    dsimp only at hsp₂ hop₂ h₂ hp₂ ⊢
    have hcur₂ := hcur₁.congr hop₂.cr3
    have hf₂ : role₂ f = .loose := by
      rw [hp₂.keep f (Set.notMem_empty _) (by rw [hf₁]; nofun), hf₁]
    -- the directory that is cloned is as before
    have hp₁₂ : Preserves {f} {dst} ∅ role k.toMachine role₂ k₂.toMachine :=
      (hp₁.mono subset_rfl (Set.empty_subset _) subset_rfl).trans
        (hp₂.mono (Set.empty_subset _) subset_rfl subset_rfl)
    have hnot : ∀ {g}, role g ≠ .free → g ∉ ({f} : Set ℕ) := by
      rintro g hg rfl
      exact hg halloc.free
    have hdir := h.refs.cr3_dir
    have hhalf : ∀ {X S role' m}, Preserves {f} X S role k.toMachine role' m →
        SameHalf k.cr3 k.mem m.mem := fun hp =>
      h.sameHalf hcur hp (hnot (by rw [hdir]; nofun)) fun g hg => .inl (by
        rw [Set.mem_singleton_iff.mp hg, halloc.free]
        exact id)
    have hhalf₂ := hhalf hp₁₂
    have hcr3₂ : k₂.cr3 = k.cr3 := hp₁₂.cr3
    have hs₂ : target (k₂.mem k₂.cr3 i) = some s := by rw [hcr3₂, hhalf₂.pde i hi, htarget]
    have hsource : k₂.mem s = k.mem s := hhalf₂.table i hi s htarget
    have hcount : pageCount k₂.mem s = pageCount k.mem s := by rw [pageCount, hsource, pageCount]
    -- the page table is cloned
    have hsp₁₂ := hsp₁.trans hsp₂
    refine ((h₂.clonePagetable hcur₂ hf₂ (.head _) hi hs₂ d i).mono
      (fun x hx => (hsp₁₂.starved hx).mono (by omega) (by omega)) fun _ => id).bind ?_
    rintro k₃ ⟨hs₃, hsp₃, hcopy₃, role₃, hf₃, h₃, hp₃⟩
    obtain ⟨k₄, hun, hs₄, hsp₄, h₄, hp₁₄, hmem₄⟩ := h₁.vmmTransientUnmap hcur₁ hop₂ hp₂ h₃ hs₃ hp₃
    rw [hun, ok_bind]
    have hp := (hp₁.mono subset_rfl subset_rfl (Set.empty_subset _)).trans hp₁₄
    have hcr3₄ : k₄.cr3 = k.cr3 := hp.cr3
    have hpde₄ : k₄.mem k₄.cr3 i = pde := by rw [hcr3₄, (hhalf hp).pde i hi]
    rw [readWord_pagedirEntry h₄.refs.self, ok_bind, hpde₄]
    obtain ⟨hw, hcopy⟩ := entryCopy_ofNat halloc.aligned halloc.lt hpresent
    set w := BitVec.ofNat 32 f ||| flagsOf pde
    rw [h₄.writeWord_pin hresult, ok_bind, pure_eq_ok]
    have hd₃ : role₃ d = .directory := by
      rw [hp.keep d (hnot (by rw [hd]; nofun)) (by rw [hd]; nofun), hd]
    have hfd : f ≠ d := fun heq => by rw [heq, hd₃] at hf₃; exact nomatch hf₃
    have hmemf : k₄.mem.write d i w f = k₃.mem f := by
      rw [Memory.write_of_ne hfd, hmem₄ f (by rw [hf₃]; trivial)]
    have hsp₅ := spends_write (k := k₄) (t := d) (hcr3₄.symm ▸ hne) (update (k₄.mem d) i w)
    refine .ok ⟨(Same.set (k := k) halloc.cr3).trans (hs₄.trans (.set rfl)), ?_, fun i' hi' => ?_, ?_,
      role₃, hd₃, h₄.write_pde hd₃ hi fun _ t ht => ?_, ?_⟩
    · have hsp := ((hsp₁₂.trans hsp₃).trans hsp₄).trans hsp₅
      have hn : 0 + 2 + 4 * pageCount k₂.mem s + 0 + 0 = 2 + 4 * pageCount k.mem s := by omega
      have hc : 1 + 0 + pageCount k₂.mem s + 0 + 0 = 1 + pageCount k.mem s := by omega
      rw [hn, hc] at hsp
      exact hsp
    · show k₄.mem.write d i w d i' = k.mem d i'
      rw [Memory.write_of_index_ne hi']
      exact (hp.pde d (hnot (by rw [hd]; nofun)) hd i').resolve_right fun hc => hne hc.1
    · show EntryCopy (TableCopy role k.mem (k₄.mem.write d i w)) pde (k₄.mem.write d i w d i)
      rw [Memory.write_same]
      refine hcopy ⟨halloc.free, fun j => ?_⟩
      rw [hmemf, ← hs, ← hsource]
      refine (hcopy₃ j).imp fun hpresent₂ ⟨hfree, hmem⟩ =>
        ⟨hp₁₂.free_of_ne (by simp [hf₂]) hfree, ?_⟩
      · have hrole := h₃.refs.page f d i hf₃ j _
          ((hcopy₃ j).present.mpr hpresent₂).target
        have hgd : frameOf (k₃.mem f j) ≠ d := fun heq => by
          rw [heq, hd₃] at hrole
          exact nomatch hrole
        rw [Memory.write_of_ne hgd, hmem₄ _ (by rw [hrole]; trivial), hmem]
        exact hhalf₂.page i hi s htarget j _
          (target_eq_some.mpr ⟨hsource ▸ hpresent₂, by rw [hsource]⟩)
    · obtain rfl := Option.some.inj (hw.symm.trans ht)
      exact hf₃
    · have hp₅ : Preserves {d, f} ∅ (Under (k₄.mem.write d i w) d i) role k.toMachine role₃
          { k₄.toMachine with mem := k₄.mem.write d i w } := by
        refine (hp.mono (Set.subset_insert _ _) subset_rfl ?_).trans
          (.write (Set.mem_insert ..) _)
        rintro g ⟨j, hg⟩
        refine ⟨f, by rw [Memory.write_same, hw], .inr ⟨j, ?_⟩⟩
        rwa [hmemf]
      refine hp₅.shrink (fun g hg => Or.symm hg) halloc.free (.inl ⟨f, ?_, .inl rfl⟩)
      rw [Memory.write_same, hw]
  · rename_i habsent
    rw [tableAnswers, tableFrames, tablePages, entryFrames, if_neg habsent, if_neg habsent]
    refine .ok ⟨.refl k, .refl k, fun _ _ => rfl, .of_not habsent ?_, role, hd, h, .refl ..⟩
    rw [hzero]
    decide

/-- **The kernel's half is copied** into a directory. -/
theorem copyPdes (h : Inv role live dirs pins k) (hd : role d = .directory)
    (hresult : (result, d) ∈ pins) :
    kernelPdes.foldlM (copyPde result) k.toMachine =
      .ok { k.toMachine with mem := update k.mem d (kernelHalf k.mem k.cr3 d) } ∧
    Inv role live dirs pins
      (k.set { k.toMachine with mem := update k.mem d (kernelHalf k.mem k.cr3 d) }) := by
  have hnodup : kernelPdes.Nodup := (List.nodup_finRange 1024).filter _
  have hloop := exists_foldlM (f := copyPde result) (l := kernelPdes) (b := k.toMachine)
    (P := fun rest m => rest.Nodup ∧ (∀ i ∈ rest, KernelIndex i) ∧
      (∃ c, m = { k.toMachine with mem := update k.mem d c } ∧
        ∀ i, c i = if KernelIndex i ∧ i ∉ rest then k.mem k.cr3 i else k.mem d i) ∧
      Inv role live dirs pins (k.set m)) ?_ ⟨hnodup, fun _ => mem_kernelPdes.mp,
        ⟨k.mem d, by rw [update_eq_self], fun i => by
          rw [if_neg fun hc => hc.2 (mem_kernelPdes.mpr hc.1)]⟩, h⟩
  · obtain ⟨m, hm, -, -, ⟨c, rfl, hc⟩, h'⟩ := hloop
    obtain rfl : c = kernelHalf k.mem k.cr3 d := by
      funext i
      rw [hc, kernelHalf]
      simp
    exact ⟨hm, h'⟩
  · rintro i rest m ⟨hnodup, hrest, ⟨c, rfl, hc⟩, h₁⟩
    rw [List.nodup_cons] at hnodup
    rw [List.forall_mem_cons] at hrest
    -- the entry that is read is not one that has been written
    have hread : update k.mem d c k.cr3 i = k.mem k.cr3 i := by
      by_cases heq : k.cr3 = d
      · rw [heq, update_self, hc, heq, ite_self]
      · rw [update_of_ne heq]
    have hread' : readWord { k.toMachine with mem := update k.mem d c } (pagedirEntry i) =
        .ok (k.mem k.cr3 i) :=
      (readWord_pagedirEntry h₁.refs.self i).trans (congrArg _ hread)
    have h₂ := h₁.write_kernel_pde hd hrest.1
    rw [copyPde, hread']
    refine ⟨_, h₁.writeWord_pin hresult i (k.mem k.cr3 i), hnodup.2, hrest.2,
      ⟨update c i (k.mem k.cr3 i), ?_, fun i' => ?_⟩, hread ▸ h₂⟩
    · simp [Memory.write, Kernel.set]
    · by_cases hi' : i' = i
      · subst hi'
        rw [update_self, if_pos ⟨hrest.1, hnodup.1⟩]
      · rw [update_of_ne hi', hc]
        simp [hi']

/-- **The user's half is cloned**, into a directory that is clear. -/
theorem clonePdes {role₁ : ℕ → Role} {live₁ : ℕ → Fin 1024 → Prop} {dirs₁ : List ℕ}
    {pins₁ : List (ℕ × ℕ)} (k₁ : Kernel) (h : Inv role live dirs pins k)
    (hcur : Current live k.toMachine) (hd : d ≠ k.cr3 ∧ ¬ (role d).Owned)
    (hp₁ : Preserves {d} ∅ (owned k₁.mem d) role k.toMachine role₁ k₁.toMachine)
    (hsp₁ : Spends 1 0 k k₁) (h₁ : Inv role₁ live₁ dirs₁ pins₁ k₁)
    (hcur₁ : Current live₁ k₁.toMachine) (hd₁ : role₁ d = .directory) (hresult : (a, d) ∈ pins₁)
    (hlive : ∀ i, i < 768 → live₁ d i) (hzero : ∀ i, k₁.mem d i = 0) :
    Ends (userPdes.foldlM (Vmm.clonePde a) k₁) (Starved (forkAnswers k) (forkFrames k) k) fun k' =>
      Same k₁ k' ∧ Spends (forkAnswers k) (forkFrames k) k k' ∧
      (∀ i, i < 768 → EntryCopy (TableCopy role k.mem k'.mem) (k.mem k.cr3 i) (k'.mem d i)) ∧
      ∃ role', role' d = .directory ∧ Inv role' live₁ dirs₁ pins₁ k' ∧
        Preserves {d} ∅ (owned k'.mem d) role k.toMachine role' k'.toMachine := by
  -- entries in the rest of the loop are still clear, and the others are copies
  refine Ends.mono (Ends.foldlM (P := fun rest k' => rest.Nodup ∧ (∀ i ∈ rest, i < 768) ∧
    Same k₁ k' ∧
    (∃ n c, n + (rest.map fun i => tableAnswers k.mem (k.mem k.cr3 i)).sum = forkAnswers k ∧
      c + (rest.map fun i => tableFrames k.mem (k.mem k.cr3 i)).sum = forkFrames k ∧
      Spends n c k k') ∧
    (∀ i, i < 768 → i ∈ rest ∧ k'.mem d i = 0 ∨
      i ∉ rest ∧ EntryCopy (TableCopy role k.mem k'.mem) (k.mem k.cr3 i) (k'.mem d i)) ∧
    ∃ role', role' d = .directory ∧ Inv role' live₁ dirs₁ pins₁ k' ∧
      Preserves {d} ∅ (owned k'.mem d) role k.toMachine role' k'.toMachine)
    (fun i rest k₂ hP => ?_) ?_) (fun _ => id) ?_
  · obtain ⟨hnodup, hrest, hs₂, ⟨n, c, hn, hc, hsp₂⟩, hentries, role₂, hd₂, h₂, hp₂⟩ := hP
    obtain ⟨hmem, hnodup⟩ := List.nodup_cons.mp hnodup
    obtain ⟨hi, hrest⟩ := List.forall_mem_cons.mp hrest
    rw [List.map_cons, List.sum_cons] at hn hc
    have hhalf : SameHalf k.cr3 k.mem k₂.mem := h.sameHalf hcur hp₂
      (fun heq => hd.1 (Set.mem_singleton_iff.mp heq).symm) fun g hg =>
        .inl (Set.mem_singleton_iff.mp hg ▸ hd.2)
    have hcr3 : k₂.cr3 = k.cr3 := hp₂.cr3
    have hpde : k₂.mem k₂.cr3 i = k.mem k.cr3 i := by rw [hcr3, hhalf.pde i hi]
    have hpages := hhalf.tablePages hi
    have hanswers : tableAnswers k₂.mem (k.mem k.cr3 i) = tableAnswers k.mem (k.mem k.cr3 i) := by
      rw [tableAnswers, hpages, tableAnswers]
    have hframes : tableFrames k₂.mem (k.mem k.cr3 i) = tableFrames k.mem (k.mem k.cr3 i) := by
      rw [tableFrames, hpages, tableFrames]
    have hzero₂ : k₂.mem d i = 0 := by
      rcases hentries i hi with ⟨-, hzero⟩ | ⟨hc, -⟩
      · exact hzero
      · exact absurd (.head _) hc
    have hclone := h₂.clonePde (hcur₁.congr hs₂.cr3) hd₂ (hcr3 ▸ hd.1) hresult hi hzero₂
    rw [hpde] at hclone
    refine hclone.mono (fun e he => (hsp₂.starved he).mono (by omega) (by omega)) ?_
    rintro k₃ ⟨hs₃, hsp₃, hother, hcopy, role₃, hd₃, h₃, hp₃⟩
    have hfree : ∀ {g}, role₂ g = .free → role g = .free :=
      hp₂.free_of_ne (by simp [hd₂])
    -- page tables that have been copied, and their pages, are left alone
    have hkeep : ∀ {g}, role₂ g ≠ .directory → (role₂ g).Content → k₃.mem g = k₂.mem g :=
      fun hg hcontent => hp₃.content _
        (fun hgd => hg (by rw [Set.mem_singleton_iff.mp hgd, hd₂])) hcontent
    have htable : ∀ {i' t}, i' < 768 → target (k₂.mem d i') = some t → k₃.mem t = k₂.mem t ∧
        ∀ j f, target (k₂.mem t j) = some f → k₃.mem f = k₂.mem f := by
      intro i' t hi' ht
      have hrole := (h₂.refs.live d i' (hlive i' hi')).2.2 t ht
      refine ⟨hkeep (by rw [hrole]; nofun) (by rw [hrole]; trivial), fun j f hf => ?_⟩
      have hrole' := h₂.refs.page t d i' hrole j f hf
      exact hkeep (by rw [hrole']; nofun) (by rw [hrole']; trivial)
    refine ⟨hnodup, hrest, hs₂.trans hs₃, ⟨_, _, ?_, ?_, hsp₂.trans hsp₃⟩, fun i' hi' => ?_, role₃, hd₃,
      h₃, ?_⟩
    · omega
    · omega
    · by_cases hii : i' = i
      · subst hii
        refine .inr ⟨hmem, hcopy.imp fun hpresent ⟨hfree', hcopied⟩ => ⟨hfree hfree', fun j => ?_⟩⟩
        have ht : target (k.mem k.cr3 i') = some (frameOf (k.mem k.cr3 i')) :=
          hpresent.target
        have hsource := hhalf.table i' hi' _ ht
        rw [← hsource]
        refine (hcopied j).imp fun hpresent' ⟨hfree', hmem'⟩ => ⟨hfree hfree', hmem'.trans ?_⟩
        exact hhalf.page i' hi' _ ht j _ (target_eq_some.mpr ⟨hsource ▸ hpresent', by rw [hsource]⟩)
      · rw [hother i' hii]
        refine (hentries i' hi').imp (fun ⟨hin, hzero⟩ => ⟨?_, hzero⟩) fun ⟨hin, hcopied⟩ => ⟨?_, ?_⟩
        · exact (List.mem_cons.mp hin).resolve_left hii
        · exact fun hc => hin (.tail _ hc)
        · refine hcopied.imp fun hpresent hcopy' => ?_
          obtain ⟨ht, hpages'⟩ := htable hi'
            (hcopied.present.mpr hpresent).target
          exact hcopy'.congr ht hpages'
    · refine (hp₂.mono subset_rfl subset_rfl ?_).trans
        (hp₃.mono subset_rfl subset_rfl fun g hg => ⟨i, hi, hg⟩)
      rintro g ⟨i', hi', t, ht, hg⟩
      have hii : i' ≠ i := by
        rintro rfl
        rw [hzero₂] at ht
        exact nomatch ht
      refine ⟨i', hi', t, by rw [hother i' hii, ht], ?_⟩
      rw [(htable hi' ht).1]
      exact hg
  · exact ⟨nodup_userPdes, fun _ => mem_userPdes.mp, .refl _, ⟨1, 0, rfl, Nat.zero_add _, hsp₁⟩,
      fun i hi => .inl ⟨mem_userPdes.mpr hi, hzero i⟩, role₁, hd₁, h₁, hp₁⟩
  · rintro k' ⟨-, -, hsame, ⟨n, c, hn, hc, hsp⟩, hentries, hrest⟩
    rw [List.map_nil, List.sum_nil, Nat.add_zero] at hn hc
    rw [hn, hc] at hsp
    exact ⟨hsame, hsp, fun i hi => (hentries i hi).elim
      (fun hc => absurd hc.1 List.not_mem_nil) And.right, hrest⟩

/-- **A page of the heap becomes a directory**, with no entries. -/
theorem clearDirectory (h : Inv role live dirs pins k) (hp : (a, d) ∈ pins)
    (hd : role d = .kernelPage a) (hheld : a ∈ k.held)
    (hmaps : ∀ x ∈ k.transientMaps, x.address ≠ a) :
    bzero k.toMachine a = .ok { k.toMachine with mem := k.mem.clear d } ∧
      Inv (update role d .directory) (fun e i => live e i ∨ e = d ∧ i < 768) (d :: dirs) pins
        (k.set { k.toMachine with mem := k.mem.clear d }) := by
  have hdir : role d ≠ .directory := by
    rw [hd]
    nofun
  have hkernel : ∀ i, role d ≠ .kernelTable i := by
    rw [hd]
    nofun
  refine ⟨h.bzero_pin hp (h.ne_cr3 hdir) hkernel, ?_⟩
  have h₁ : Inv role live dirs pins (k.set { k.toMachine with mem := k.mem.clear d }) :=
    h.update_data hdir (by rw [hd]; nofun) hkernel
  have hempty : ∀ i, target (k.mem.clear d d i) = none := fun i => by
    rw [Memory.clear_same]
    rfl
  have h₂ := h₁.relabel_of (h₁.refs.unref_kernelPage hd hheld hmaps) (by rw [hd]; nofun)
    (r := .directory) (by nofun) (by nofun) nofun (by nofun) (by simp)
  have hd₂ : update role d .directory d = .directory := update_self ..
  exact (h₂.add_dir hd₂ fun i _ => hempty i).enliven fun e i hl => hl.imp_right fun ⟨he, hi⟩ =>
    ⟨hi, he ▸ hd₂, he ▸ hempty i⟩

/-- **A directory gets the kernel's half**, and the entry that leads to itself. -/
theorem shareKernel (h : Inv role live dirs pins k) (hcur : Current live k.toMachine)
    (hp : (a, d) ∈ pins) (hd : role d = .directory) :
    ∃ c, (do
      let m ← kernelPdes.foldlM (copyPde a) k.toMachine
      let pa ← vmmGetPhysical m a
      let m ← writeWord m (a + 4 * (1023 : Fin 1024))
        (BitVec.ofNat 32 pa ||| vmmPagePresent ||| vmmPageWritable)
      return (k.set m, a)) =
        .ok (k.set { k.toMachine with mem := update k.mem d c }, a) ∧
      (∀ i, i < 768 → c i = k.mem d i) ∧ (∀ i, KernelIndex i → c i = k.mem k.cr3 i) ∧
      c 1023 = entry d (vmmPagePresent ||| vmmPageWritable) ∧
      Inv role live dirs pins (k.set { k.toMachine with mem := update k.mem d c }) := by
  obtain ⟨hcopy, h₁⟩ := h.copyPdes hd hp
  set m₁ := { k.toMachine with mem := update k.mem d (kernelHalf k.mem k.cr3 d) }
  obtain ⟨-, -, htr⟩ := h₁.refs.pins _ hp
  have hcur₁ : Current live m₁ := hcur
  have hphysical : vmmGetPhysical m₁ a = .ok d := h₁.vmmGetPhysical_pin hcur₁ hp
  have hw : BitVec.ofNat 32 d ||| vmmPagePresent ||| vmmPageWritable =
      entry d (vmmPagePresent ||| vmmPageWritable) := by
    rw [BitVec.or_assoc, entry, ofNat_and_mask (translate_mod htr) (translate_lt htr)]
  set w := entry d (vmmPagePresent ||| vmmPageWritable)
  have hlast : target w = some d :=
    target_entry (translate_mod htr) (translate_lt htr) (by decide) (by decide)
  have h₂ := h₁.write_last hd hlast
  have hwrite : writeWord m₁ (a + 4 * (1023 : Fin 1024)) w =
      .ok { m₁ with mem := m₁.mem.write d 1023 w } := h₁.writeWord_pin hp 1023 w
  have hmem : m₁.mem.write d 1023 w =
      update k.mem d (update (kernelHalf k.mem k.cr3 d) 1023 w) := by
    rw [Memory.write, update_idem, show m₁.mem d = _ from update_self ..]
  refine ⟨update (kernelHalf k.mem k.cr3 d) 1023 w, ?_, fun i hi => ?_, fun i hi => ?_,
    update_self .., ?_⟩
  · rw [hcopy, ok_bind, hphysical, ok_bind, hw, hwrite, ok_bind, pure_eq_ok, hmem]
  · rw [update_of_ne fun heq => absurd (heq ▸ hi) (by decide), kernelHalf,
      if_neg fun hc => hc.not_lt hi]
  · rw [update_of_ne hi.ne, kernelHalf, if_pos hi]
  · rw [← hmem]
    exact h₂

/-- **A directory is cloned.** -/
theorem vmmClonePagedir (h : Inv role live dirs pins k) (hcur : Current live k.toMachine) :
    Ends (Vmm.vmmClonePagedir k) (Starved (forkAnswers k) (forkFrames k) k) fun r =>
      Spends (forkAnswers k) (forkFrames k) k r.1 ∧ ∃ role' d, d ∉ dirs ∧
      (role d = .free ∨ role d = .kernelPage r.2) ∧ Cloned role k r.1 r.2 d ∧
      Inv role' (fun e i => live e i ∨ e = d ∧ i < 768) (d :: dirs) ((r.2, d) :: pins) r.1 ∧
      Preserves {d} ∅ (owned r.1.mem d) role k.toMachine role' r.1.toMachine := by
  have hstart : Starved 1 0 k ≤ Starved (forkAnswers k) (forkFrames k) k := fun e he =>
    he.mono (Nat.le_add_right ..) (Nat.zero_le _)
  refine ((h.kmallocA hcur).mono hstart fun _ => id).bind ?_
  rintro ⟨k₁, a⟩ ⟨hob, hsp₁, role₁, d, hd₁, h₁, hp₁⟩
  dsimp only at hob hsp₁ hd₁ h₁ hp₁ ⊢
  have hp : (a, d) ∈ (a, d) :: pins := .head _
  have hne : d ≠ k₁.cr3 := h₁.ne_cr3 (by rw [hd₁]; nofun)
  have hroled : role d = .free ∨ role d = .kernelPage a := by
    by_cases hfree : role d = .free
    · exact .inl hfree
    · exact .inr ((hp₁.keep d (Set.notMem_empty _) hfree).symm.trans hd₁)
  -- the directory is empty when it gets its role
  obtain ⟨hzero, h₂⟩ := h₁.clearDirectory hp hd₁ (hob.held ▸ .head _) fun x hx =>
    h.maps_ne hob.new x (hob.maps ▸ hx)
  rw [hzero, ok_bind]
  have hd₂ : update role₁ d .directory d = .directory := update_self ..
  have hcur₂ : Current (fun e i => live e i ∨ e = d ∧ i < 768) k₁.toMachine := fun i hi =>
    .inl (hcur.congr hob.cr3 i hi)
  have hsp₂ := hsp₁.trans (spends_write hne fun _ => 0)
  have hp₂ : Preserves {d} ∅ (owned (k₁.mem.clear d) d) role k.toMachine
      (update role₁ d .directory) { k₁.toMachine with mem := k₁.mem.clear d } :=
    ((hp₁.mono (Set.empty_subset _) subset_rfl (Set.empty_subset _)).trans
      (.write (Set.mem_singleton d) _)).trans (.relabel (Set.mem_singleton d) _)
  have hempty : ∀ i, k₁.mem.clear d d i = 0 := fun _ => Memory.clear_same
  refine (clonePdes (k₁.set { k₁.toMachine with mem := k₁.mem.clear d }) h hcur ?_ hp₂ hsp₂ h₂
    hcur₂ hd₂ hp (fun i hi => .inr ⟨rfl, hi⟩) hempty).bind ?_
  · rw [hob.cr3.symm.trans rfl]
    exact ⟨hne, fun hc => by rcases hroled with hr | hr <;> rw [hr] at hc <;> exact hc⟩
  rintro k₅ ⟨hs₅, hsp₅, hentries, role₅, hd₅, h₅, hp₅⟩
  obtain ⟨c, hok, huser, hkernel, hlast, h₆⟩ := h₅.shareKernel (hcur₂.congr hs₅.cr3) hp hd₅
  rw [hok]
  have hne₅ : d ≠ k₅.cr3 := hs₅.cr3.symm ▸ hne
  -- page tables and pages have not been touched
  have hmem : ∀ {g}, role₅ g ≠ .directory → update k₅.mem d c g = k₅.mem g := by
    intro g hg
    exact update_of_ne (fun heq : g = d => hg (heq ▸ hd₅)) _ _
  have hdir : update k₅.mem d c d = c := update_self ..
  have htable : ∀ {i t}, i < 768 → target (k₅.mem d i) = some t → role₅ t = .table d i :=
    fun hi => (h₅.refs.live d _ (.inr ⟨rfl, hi⟩)).2.2 _
  refine .ok ⟨?_, role₅, d, fun hmem => ?_, hroled, ⟨?_, fun i hi => ?_, fun i hi => ?_, ?_⟩, h₆, ?_⟩
  · have hsp := hsp₅.trans (spends_write hne₅ c)
    simp only [Nat.add_zero] at hsp
    exact hsp
  · rw [(h₁.refs.dirs d hmem).1] at hd₁
    exact nomatch hd₁
  · exact ⟨hob.page, hob.new, hs₅.cr3.trans hob.cr3, hs₅.held.trans hob.held,
      hs₅.maps.trans hob.maps⟩
  · show EntryCopy (TableCopy role k.mem (update k₅.mem d c)) _
      (update k₅.mem d c d i)
    rw [hdir, huser i hi]
    refine (hentries i hi).imp fun hpresent hcopied => ?_
    have hrole := htable hi ((hentries i hi).present.mpr hpresent).target
    refine hcopied.congr (hmem (by rw [hrole]; nofun)) fun j f hf => hmem ?_
    rw [h₅.refs.page _ d i hrole j f hf]
    nofun
  · show update k₅.mem d c d i = update k₅.mem d c k₅.cr3 i
    rw [hdir, hkernel i hi, update_of_ne hne₅.symm]
  · exact (congrFun hdir 1023).trans hlast
  · refine (hp₅.mono subset_rfl subset_rfl ?_).trans
      (.write (Set.mem_singleton d) _)
    rintro g ⟨i, hi, t, ht, hg⟩
    refine ⟨i, hi, t, ?_, ?_⟩
    · exact (congrArg target ((congrFun hdir i).trans (huser i hi))).trans ht
    · have hmemt := hmem (g := t) (by rw [htable hi ht]; nofun)
      refine hg.imp_right fun ⟨j, hj⟩ => ⟨j, ?_⟩
      exact (congrArg target (congrFun hmemt j)).trans hj

end Inv

end Rastapopoulos.Vmm
