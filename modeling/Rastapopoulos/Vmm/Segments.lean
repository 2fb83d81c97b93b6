import Rastapopoulos.Vmm.Mmap

/-!
# Pages and their contents

The steps that `load_elf` takes for a segment: pages are mapped to new frames, bytes are stored into
them, and their flags are changed. What the steps come to is said of the address space: which pages
there are (`Populates`, `Owns`), and which bytes are at which addresses (`Machine.byteAt`).
-/

namespace Rastapopoulos.Vmm

open Paging Function
open KernelHeap (pageSize)

variable {m m' m₀ m₁ m₂ : Machine} {mem : Memory} {frame : ℕ → ℕ} {va len n f g b : ℕ}
  {bytes : ℕ → BitVec 8} {flags : BitVec 32} {page : Page} {ps ps' : List Page} {l : List ℕ}

/-! ## Bytes -/

/-- The byte at an address. -/
def Machine.byteAt (m : Machine) (va : ℕ) : Option (BitVec 8) :=
  (translate m.mem m.cr3 va).map fun f => m.mem.byte f (va % pageSize)

/-- The frame is neither the directory nor one of its page tables. -/
def Leaf (m : Machine) (f : ℕ) : Prop := f ≠ m.cr3 ∧ ∀ d, target (m.mem m.cr3 d) ≠ some f

theorem Settled.leaf (h : Settled m f) : Leaf m f := ⟨h.1, h.2.1⟩

variable {p : ℕ × BitVec 32} {a t va : ℕ}

theorem translate_of_space (h : m.space page = some p) :
    translate m.mem m.cr3 page.1 = some p.1 := by
  obtain ⟨t, ht, hpresent, hframe, -⟩ := exists_of_space h
  rw [translate_of_target ht]
  exact target_eq_some.mpr ⟨hpresent, hframe⟩

/-- All bytes of a page are in its frame. -/
theorem translate_page (va : ℕ) :
    translate mem f va = translate mem f (va / pageSize * pageSize) := by
  have hd : dirIndex (va / pageSize * pageSize) = dirIndex va := by
    unfold dirIndex pageSize
    congr 1
    omega
  have hj : tableIndex (va / pageSize * pageSize) = tableIndex va := by
    unfold tableIndex pageSize
    congr 1
    omega
  rw [Paging.translate, Paging.translate, hd, hj]

/-! ## Stores -/

/-- The numbers of the pages that a store goes to. -/
def pageNumbers (va len : ℕ) : List ℕ :=
  if len = 0 then []
  else List.range' (va / pageSize) ((va + len - 1) / pageSize - va / pageSize + 1)

/-- All bytes of the store are in these pages. -/
def Within (pages : List ℕ) (va len : ℕ) : Prop :=
  ∀ n ∈ pageNumbers va len, n * pageSize % wordMod ∈ pages

instance (pages : List ℕ) (va len : ℕ) : Decidable (Within pages va len) :=
  inferInstanceAs (Decidable (∀ n ∈ pageNumbers va len, _))

theorem mem_pageNumbers : n ∈ pageNumbers va len ↔ ∃ a, va ≤ a ∧ a < va + len ∧ a / pageSize = n := by
  unfold pageNumbers pageSize
  split
  · simp only [List.not_mem_nil, false_iff]
    omega
  · rw [List.mem_range'_1]
    constructor
    · intro hn
      exact ⟨max va (n * 4096), by omega, by omega, by omega⟩
    · omega

theorem nodup_pageNumbers : (pageNumbers va len).Nodup := by
  unfold pageNumbers
  split
  · exact List.nodup_nil
  · exact List.nodup_range'

theorem store_eq : store m va len bytes = (pageNumbers va len).foldlM (storePage va len bytes) m := by
  unfold store pageNumbers
  split <;> rfl

/-- The memory after a store to the pages with these numbers, which are in the frames `frame`. -/
def fillPages (frame : ℕ → ℕ) (va len : ℕ) (bytes : ℕ → BitVec 8) (mem : Memory) (l : List ℕ) :
    Memory :=
  l.foldl (fun mem n => mem.fill (frame n) (bytesOn va len bytes n)) mem

theorem fillPages_of_ne (h : ∀ n ∈ l, g ≠ frame n) : fillPages frame va len bytes mem l g = mem g := by
  induction l generalizing mem with
  | nil => rfl
  | cons n l ih =>
    obtain ⟨hn, hl⟩ := List.forall_mem_cons.mp h
    exact (ih hl).trans (Memory.fill_of_ne hn)

/-- Pages in different frames. -/
theorem byte_fillPages (hinj : Set.InjOn frame {n | n ∈ l}) (hnodup : l.Nodup) (hn : n ∈ l)
    (hb : b < pageSize) : (fillPages frame va len bytes mem l).byte (frame n) b =
      (bytesOn va len bytes n b).getD (mem.byte (frame n) b) := by
  induction l generalizing mem with
  | nil => cases hn
  | cons n' l ih =>
    obtain ⟨hn', hnodup⟩ := List.nodup_cons.mp hnodup
    have hsub : Set.InjOn frame {n | n ∈ l} := hinj.mono fun n hn => .tail _ hn
    have hfold : fillPages frame va len bytes mem (n' :: l) =
        fillPages frame va len bytes (mem.fill (frame n') (bytesOn va len bytes n')) l := rfl
    rw [hfold]
    rcases List.mem_cons.mp hn with rfl | hmem
    · have hother : ∀ k ∈ l, frame n ≠ frame k := fun k hk heq =>
        hn' (hinj (.head _) (.tail _ hk) heq ▸ hk)
      rw [Memory.byte, fillPages_of_ne hother]
      exact Memory.byte_fill hb
    · have hne : frame n ≠ frame n' := fun heq => hn'
        (hinj (.tail _ hmem) (.head _) heq ▸ hmem)
      rw [ih hsub hnodup hmem, Memory.byte, Memory.fill_of_ne hne]
      rfl

/-- **A store to pages that are mapped**, to frames that translation does not read. -/
theorem foldlM_storePage
    (hframe : ∀ n ∈ l, translate m.mem m.cr3 (n * pageSize % wordMod) = some (frame n))
    (hleaf : ∀ n ∈ l, Leaf m (frame n)) :
    l.foldlM (storePage va len bytes) m =
      .ok { m with mem := fillPages frame va len bytes m.mem l } := by
  induction l generalizing m with
  | nil => rfl
  | cons n l ih =>
    obtain ⟨hn, hl⟩ := List.forall_mem_cons.mp hframe
    obtain ⟨⟨hcr3, htables⟩, hleaf⟩ := List.forall_mem_cons.mp hleaf
    have hdir : m.mem.fill (frame n) (bytesOn va len bytes n) m.cr3 = m.mem m.cr3 :=
      Memory.fill_of_ne hcr3.symm
    rw [List.foldlM_cons, storePage, hn, ok_bind, ih]
    · rfl
    · intro k hk
      exact (translate_fill hcr3 htables).trans (hl k hk)
    · intro k hk
      refine ⟨(hleaf k hk).1, fun d => ?_⟩
      show target (m.mem.fill (frame n) (bytesOn va len bytes n) m.cr3 d) ≠ _
      rw [hdir]
      exact (hleaf k hk).2 d

/-! ## Changes of data -/

/-- At most the contents of these frames have changed, and they are data. -/
structure Touches (F : Set ℕ) (m m' : Machine) : Prop where
  eq : m' = { m with mem := m'.mem }
  leaf : ∀ f ∈ F, Leaf m f
  same : ∀ f ∉ F, m'.mem f = m.mem f

namespace Touches

variable {F : Set ℕ}

theorem refl (hF : ∀ f ∈ F, Leaf m f) : Touches F m m := ⟨rfl, hF, fun _ _ => rfl⟩

variable (h : Touches F m m')

include h

theorem cr3 : m'.cr3 = m.cr3 := by rw [h.eq]

theorem regions : m'.regions = m.regions := by rw [h.eq]

theorem dir : m'.mem m'.cr3 = m.mem m.cr3 := by
  rw [h.cr3]
  exact h.same _ fun hmem => (h.leaf _ hmem).1 rfl

theorem table {d : Fin 1024} (ht : target (m.mem m.cr3 d) = some f) : m'.mem f = m.mem f :=
  h.same _ fun hmem => (h.leaf _ hmem).2 d ht

theorem lookup_eq (va : ℕ) : lookup m'.mem m'.cr3 (dirIndex va) (tableIndex va) =
    lookup m.mem m.cr3 (dirIndex va) (tableIndex va) := by
  rw [lookup, lookup, h.dir]
  cases ht : target (m.mem m.cr3 (dirIndex va)) with
  | none => rfl
  | some t => rw [Option.bind_some, Option.bind_some, h.table ht]

theorem translate_eq (va : ℕ) : translate m'.mem m'.cr3 va = translate m.mem m.cr3 va := by
  rw [translate_eq_lookup, translate_eq_lookup, h.lookup_eq]

theorem space : m'.space = m.space := by
  funext page
  rw [Machine.space, Machine.space, h.lookup_eq]

theorem leaf_iff : Leaf m' f ↔ Leaf m f := by rw [Leaf, Leaf, h.dir, h.cr3]

theorem trans (h' : Touches F m' m₂) : Touches F m m₂ := by
  refine ⟨?_, h.leaf, fun f hf => (h'.same f hf).trans (h.same f hf)⟩
  rw [h'.eq, h.eq]

theorem usable (hm : Usable m) : Usable m' where
  paging := by
    rw [h.eq]
    exact hm.paging
  distinct := by
    refine ⟨?_, ?_⟩
    · rw [h.dir, h.cr3]
      exact hm.distinct.self
    · rw [h.dir]
      exact hm.distinct.inj
  layout := by
    rw [h.regions]
    exact hm.layout
  tables := by
    rw [h.dir, h.regions]
    exact hm.tables

end Touches

/-! ## Stores to mapped pages -/

/-- The frame of the page with a number. -/
def Machine.frameAt (m : Machine) (n : ℕ) : ℕ :=
  (translate m.mem m.cr3 (n * pageSize % wordMod)).getD 0

/-- The machine after a store. -/
def Machine.filled (m : Machine) (va len : ℕ) (bytes : ℕ → BitVec 8) : Machine :=
  { m with mem := fillPages m.frameAt va len bytes m.mem (pageNumbers va len) }

section Mapped

variable {F : Set ℕ} (hF : ∀ f ∈ F, Leaf m f)
  (hmapped : ∀ n ∈ pageNumbers va len,
    ∃ f ∈ F, translate m.mem m.cr3 (n * pageSize % wordMod) = some f)

include hF hmapped

omit hF in
theorem frameAt_mem (hn : n ∈ pageNumbers va len) : m.frameAt n ∈ F ∧
    translate m.mem m.cr3 (n * pageSize % wordMod) = some (m.frameAt n) := by
  obtain ⟨f, hf, htr⟩ := hmapped n hn
  rw [Machine.frameAt, htr]
  exact ⟨hf, rfl⟩

theorem store_ok : store m va len bytes = .ok (m.filled va len bytes) := by
  rw [store_eq]
  exact foldlM_storePage (fun n hn => (frameAt_mem hmapped hn).2)
    fun n hn => hF _ (frameAt_mem hmapped hn).1

theorem touches_filled : Touches F m (m.filled va len bytes) := by
  refine ⟨rfl, hF, fun f hf => fillPages_of_ne fun n hn heq => hf ?_⟩
  rw [heq]
  exact (frameAt_mem hmapped hn).1

/-- What is at an address after the store, if its frame is in the store for this page only. -/
theorem byteAt_filled (ha : a < wordMod) (htr : translate m.mem m.cr3 a = some f)
    (hinj : Set.InjOn m.frameAt {n | n ∈ pageNumbers va len})
    (halone : ∀ n ∈ pageNumbers va len, m.frameAt n = f → n = a / pageSize) :
    (m.filled va len bytes).byteAt a =
      some (if va ≤ a ∧ a < va + len then bytes (a - va) else m.mem.byte f (a % pageSize)) := by
  have hb : a % pageSize < pageSize := Nat.mod_lt a (by decide)
  have hsum : a / pageSize * pageSize + a % pageSize = a := Nat.div_add_mod' a pageSize
  have htr' : translate (m.filled va len bytes).mem (m.filled va len bytes).cr3 a = some f :=
    ((touches_filled hF hmapped).translate_eq a).trans htr
  rw [Machine.byteAt, htr', Option.map_some]
  congr 1
  by_cases hn : a / pageSize ∈ pageNumbers va len
  · have hframe : m.frameAt (a / pageSize) = f := by
      have hlt : a / pageSize * pageSize < wordMod := Nat.lt_of_le_of_lt (Nat.div_mul_le_self ..) ha
      rw [translate_page] at htr
      rw [Machine.frameAt, Nat.mod_eq_of_lt hlt, htr]
      rfl
    have hbyte : (m.filled va len bytes).mem.byte (m.frameAt (a / pageSize)) (a % pageSize) = _ :=
      byte_fillPages hinj nodup_pageNumbers hn hb
    rw [hframe] at hbyte
    refine hbyte.trans ?_
    rw [bytesOn, hsum]
    split <;> rfl
  · have hout : ¬ (va ≤ a ∧ a < va + len) := fun hin =>
      hn (mem_pageNumbers.mpr ⟨a, hin.1, hin.2, rfl⟩)
    have hsame : (m.filled va len bytes).mem f = m.mem f :=
      fillPages_of_ne fun n hmem heq => hn (halone n hmem heq.symm ▸ hmem)
    rw [if_neg hout, Memory.byte, hsame]
    rfl

end Mapped

/-! ## New pages -/

/-- A page table that the program may use, also for writing. -/
def Open (e : BitVec 32) : Prop :=
  Present e → e &&& vmmPageUser ≠ 0 ∧ e &&& vmmPageWritable ≠ 0

/-- The pages have been mapped to frames of their own, which were free. -/
structure Populates (m : Machine) (ps : List Page) (m' : Machine) : Prop where
  usable : Usable m'
  mapped : ∀ page ∈ ps, ∃ p, m'.space page = some p ∧ Free m.regions p.1 ∧ Settled m' p.1
  distinct : ∀ page ∈ ps, ∀ page' ∈ ps,
    (m'.space page).map Prod.fst = (m'.space page').map Prod.fst → page = page'
  others : ∀ page ∉ ps, m'.space page = m.space page
  settled : ∀ f, Settled m f → m'.mem f = m.mem f ∧ Settled m' f
  free : ∀ f, Free m'.regions f → Free m.regions f
  pays : Pays 0 (ps.map Subtype.val) m m'
  pde : ∀ d, Open (m.mem m.cr3 d) → Open (m'.mem m'.cr3 d)

namespace Populates

theorem refl (h : Usable m) : Populates m [] m :=
  ⟨h, fun _ hp => (by cases hp), fun _ hp => (by cases hp), fun _ _ => rfl, fun _ hf => ⟨rfl, hf⟩,
    fun _ hf => hf, .refl m, fun _ hd => hd⟩

theorem trans (h : Populates m ps m₁) (h' : Populates m₁ ps' m')
    (hdisjoint : ∀ page ∈ ps, page ∉ ps') : Populates m (ps ++ ps') m' := by
  have hold : ∀ page ∈ ps, m'.space page = m₁.space page := fun page hp =>
    h'.others page (hdisjoint page hp)
  -- the frames of the later pages were free when those of the earlier ones were not
  have hne : ∀ page ∈ ps, ∀ page' ∈ ps',
      (m'.space page).map Prod.fst ≠ (m'.space page').map Prod.fst := by
    intro page hp page' hp' heq
    obtain ⟨p, hp₁, -, hsettled⟩ := h.mapped page hp
    obtain ⟨p', hp₁', hfree, -⟩ := h'.mapped page' hp'
    rw [hold page hp, hp₁, hp₁'] at heq
    have hframe : p.1 = p'.1 := Option.some.inj heq
    exact hsettled.2.2 (hframe ▸ hfree)
  refine ⟨h'.usable, fun page hp => ?_, fun page hp page' hp' heq => ?_, fun page hp => ?_,
    fun f hf => ?_, fun f hf => h.free f (h'.free f hf), ?_, fun d hd => h'.pde d (h.pde d hd)⟩
  · rcases List.mem_append.mp hp with hp | hp
    · obtain ⟨p, hspace, hfree, hsettled⟩ := h.mapped page hp
      exact ⟨p, (hold page hp).trans hspace, hfree, (h'.settled p.1 hsettled).2⟩
    · obtain ⟨p, hspace, hfree, hsettled⟩ := h'.mapped page hp
      exact ⟨p, hspace, h.free p.1 hfree, hsettled⟩
  · rcases List.mem_append.mp hp with hp | hp <;> rcases List.mem_append.mp hp' with hp' | hp'
    · rw [hold page hp, hold page' hp'] at heq
      exact h.distinct page hp page' hp' heq
    · exact absurd heq (hne page hp page' hp')
    · exact absurd heq.symm (hne page' hp' page hp)
    · exact h'.distinct page hp page' hp' heq
  · rw [List.mem_append, not_or] at hp
    exact (h'.others page hp.2).trans (h.others page hp.1)
  · obtain ⟨hmem, hsettled⟩ := h.settled f hf
    obtain ⟨hmem', hsettled'⟩ := h'.settled f hsettled
    exact ⟨hmem'.trans hmem, hsettled'⟩
  · rw [List.map_append]
    exact h.pays.trans h'.pays

/-- The frames that are needed for more pages. -/
theorem supply_append (h : Populates m ps m') (pages : List ℕ) :
    Pmm.provides (framesNeeded m (ps.map Subtype.val ++ pages)) m.regions =
      Pmm.provides (framesNeeded m' pages) m'.regions := by
  rw [framesNeeded_append h.pays.added, ← Nat.zero_add (framesNeeded m _)]
  exact h.pays.supply _

end Populates

/-- The flags of a page while its contents are stored. -/
abbrev loadFlags : BitVec 32 := vmmPagePresent ||| vmmPageWritable

theorem heapGrow_eq_ok : heapGrow m va = .ok m' ↔ ∃ regions f,
    Pmm.pmmAlloc m.regions = .ok (regions, some f) ∧
      vmmMap { m with regions := regions } va f loadFlags = .ok m' := by
  rw [heapGrow, bind_eq_ok]
  constructor
  · rintro ⟨⟨m₁, f⟩, hframe, hmap⟩
    obtain ⟨regions, halloc, rfl⟩ := allocFrame_eq_ok.mp hframe
    exact ⟨regions, f, halloc, hmap⟩
  · rintro ⟨regions, f, halloc, hmap⟩
    exact ⟨(_, f), allocFrame_eq_ok.mpr ⟨regions, halloc, rfl⟩, hmap⟩

/-- A frame that has just been allocated. -/
theorem Usable.settled_alloc (h : Usable m) {regions : List Pmm.Region}
    (halloc : Pmm.pmmAlloc m.regions = .ok (regions, some f)) :
    Free m.regions f ∧ Settled { m with regions := regions } f ∧
      (∀ g, Free regions g → Free m.regions g) := by
  have htakes := Pmm.pmmAlloc_some h.layout halloc
  have htables : ∀ d, target (m.mem m.cr3 d) ≠ some f := fun d hd =>
    htakes.free (h.tables d f hd htakes.page)
  refine ⟨⟨htakes.page, htakes.free⟩, ⟨fun heq => ?_, htables, fun hfree => ?_⟩, fun g hg => ?_⟩
  · exact htables 1023 (heq ▸ h.distinct.self)
  · exact hfree.2 ((htakes.taken_iff f).mpr (.inl rfl))
  · exact ⟨(htakes.page_iff g).mp hg.1, fun hc => hg.2 ((htakes.taken_iff g).mpr (.inr hc))⟩

theorem open_entry (hf : f % pageSize = 0) (hlt : f < wordMod) : Open (entry f pdeFlags) := by
  intro _
  have hflags : flagsOf (entry f pdeFlags) = pdeFlags := flagsOf_entry hf hlt (by decide)
  have hand : ∀ e w : BitVec 32, w &&& 0xFFF = w → e &&& w = flagsOf e &&& w := fun e w hw => by
    rw [flagsOf, BitVec.and_assoc, BitVec.and_comm 0xFFF w, hw]
  rw [hand _ vmmPageUser (by decide), hand _ vmmPageWritable (by decide), hflags]
  decide

/-- A page table that has been added is open. -/
theorem Linked.pde (h : WellFormed m) (hlink : Linked m va m' t) (d : Fin 1024)
    (hd : Open (m.mem m.cr3 d)) : Open (m'.mem m'.cr3 d) := by
  cases hlink with
  | old ht => exact hd
  | @new t regions ht halloc =>
    obtain ⟨-, hpage, hlt⟩ := pmmAlloc_clear h.sound halloc
    show Open ((m.mem.write m.cr3 (dirIndex va) (entry t pdeFlags)).clear t m.cr3 d)
    rw [Memory.clear_of_ne (new_table h halloc).2.2, Memory.write_apply]
    split
    · exact open_entry hpage hlt
    · exact hd

/-- **A page is mapped to a new frame.** -/
theorem populates_of_vmmMap {regions : List Pmm.Region} (hflags : flags.toNat < 2 ^ 12)
    (hpresent : flags &&& vmmPagePresent ≠ 0) (h : Usable m)
    (halloc : Pmm.pmmAlloc m.regions = .ok (regions, some f))
    (hmap : vmmMap { m with regions := regions } page.1 f flags = .ok m') :
    Populates m [page] m' := by
  obtain ⟨hfree, hsettled, hless⟩ := h.settled_alloc halloc
  have hmaps := maps_of_turn hflags hpresent h halloc hmap
  refine ⟨hmaps.usable, fun page' hp => ?_, fun p hp p' hp' _ => ?_, fun page' hp => ?_,
    fun g hg => hmaps.settled g ⟨hg.1, hg.2.1, fun hc => hg.2.2 (hless g hc)⟩, fun g hg => ?_,
    ⟨?_, ?_⟩, fun d hd => ?_⟩
  · obtain rfl := List.mem_singleton.mp hp
    refine ⟨(f, flags), ?_, hfree, (hmaps.settled f hsettled).2⟩
    rw [hmaps.space, update_self]
  · exact (List.mem_singleton.mp hp).trans (List.mem_singleton.mp hp').symm
  · have hne : page' ≠ page := fun heq => hp (heq ▸ List.mem_singleton_self _)
    rw [hmaps.space, update_of_ne hne]
    rfl
  · exact hless g ⟨(hmaps.pages g).mp hg.1, fun hc => hg.2 (hmaps.taken g hc)⟩
  · intro d
    rw [List.map_singleton, List.map_singleton, List.mem_singleton]
    exact hmaps.missing d
  · intro n
    have hsum : 0 + (tableCost m page.1 + 1) + n = tableCost m page.1 + n + 1 := by omega
    rw [List.map_singleton, framesNeeded_singleton, hsum, Pmm.provides_of_alloc halloc]
    exact hmaps.supply n
  · have hw := (h.alloc halloc).1.wellFormed
    obtain ⟨-, -, -, m₂, t, hlink, -, rfl⟩ := vmmMap_ok hw hmap
    obtain ⟨hdistinct, ht⟩ := hlink.distinct hw
    show Open (m₂.mem.write t (tableIndex page.1) (entry f flags) m₂.cr3 d)
    rw [Memory.write_of_ne (hdistinct.ne_cr3 page.dirIndex_ne ht).symm]
    exact hlink.pde hw d hd

/-- The frames that are not page tables were none before, and they hold what they held. -/
def KeepsData (m m' : Machine) : Prop := ∀ f, Leaf m' f → Leaf m f ∧ m'.mem f = m.mem f

theorem KeepsData.refl (m : Machine) : KeepsData m m := fun _ hf => ⟨hf, rfl⟩

theorem KeepsData.trans (h : KeepsData m m₁) (h' : KeepsData m₁ m') : KeepsData m m' := by
  intro f hf
  obtain ⟨hleaf₁, hmem₁⟩ := h' f hf
  obtain ⟨hleaf, hmem⟩ := h f hleaf₁
  exact ⟨hleaf, hmem₁.trans hmem⟩

/-- A store to a page table. -/
theorem keepsData_write {d j : Fin 1024} {w : BitVec 32} (h : Distinct m.mem m.cr3) (hd : d ≠ 1023)
    (ht : target (m.mem m.cr3 d) = some t) : KeepsData m { m with mem := m.mem.write t j w } := by
  rintro f ⟨hcr3, htables⟩
  have hdir : m.mem.write t j w m.cr3 = m.mem m.cr3 :=
    Memory.write_of_ne (h.ne_cr3 hd ht).symm
  change ∀ d, target (m.mem.write t j w m.cr3 d) ≠ some f at htables
  rw [hdir] at htables
  exact ⟨⟨hcr3, htables⟩, Memory.write_of_ne fun heq => htables d (heq ▸ ht)⟩

theorem Linked.keepsData (h : WellFormed m) (hlink : Linked m va m' t) : KeepsData m m' := by
  rintro f ⟨hcr3, htables⟩
  rw [hlink.cr3_eq] at hcr3
  refine ⟨⟨hcr3, fun d hd => htables d (hlink.target_of_some h hd)⟩, ?_⟩
  funext d
  refine hlink.mem_eq (fun heq => ?_) fun heq => absurd heq hcr3
  exact htables _ (heq ▸ (hlink.distinct h).2)

/-- **`vmm_map`** writes to page tables only. -/
theorem keepsData_of_vmmMap {pa : ℕ} (h : Usable m) (hok : vmmMap m page.1 pa flags = .ok m') :
    KeepsData m m' := by
  obtain ⟨-, -, -, m₁, t, hlink, -, rfl⟩ := vmmMap_ok h.wellFormed hok
  obtain ⟨hdistinct, ht⟩ := hlink.distinct h.wellFormed
  exact (hlink.keepsData h.wellFormed).trans (keepsData_write hdistinct page.dirIndex_ne ht)

section Loop

variable (hflags : flags.toNat < 2 ^ 12) (hpresent : flags &&& vmmPagePresent ≠ 0) (h : Usable m)
  (hps : Unmapped m ps)

include hflags hpresent h hps

/-- **The loop maps its pages to new frames**, with these flags, and it does not write to these. -/
theorem populates_of_mmapPages {done : List ℕ}
    (hok : mmapPages flags m done (ps.map Subtype.val) = .ok (m', true)) :
    Populates m ps m' ∧ KeepsData m m' ∧ (∀ page ∈ ps, (m'.space page).map Prod.snd = some flags) ∧
      (∀ q, Pmm.Taken m.regions q → Pmm.Taken m'.regions q) ∧
      ∀ q, Pmm.Page m'.regions q ↔ Pmm.Page m.regions q := by
  induction ps generalizing m done with
  | nil =>
    cases hok
    exact ⟨.refl h, .refl _, List.forall_mem_nil _, fun _ => id, fun _ => Iff.rfl⟩
  | cons page ps ih =>
    rcases mmapPages_cons_ok hok with ⟨_, _, _, hfalse⟩ | ⟨regions, f, m₁, halloc, hmap, hok⟩
    · cases hfalse
    have hmaps := maps_of_turn hflags hpresent h halloc hmap
    have hone : Populates m [page] m₁ :=
      populates_of_vmmMap hflags hpresent h halloc hmap
    have hkeeps : KeepsData { m with regions := regions } m₁ :=
      keepsData_of_vmmMap (h.alloc halloc).1 hmap
    obtain ⟨hrest, hkeeps', hflags', htaken, hpages⟩ := ih hmaps.usable (hps.tail hmaps) hok
    have htakes := Pmm.pmmAlloc_some h.layout halloc
    have hnot := (List.nodup_cons.mp hps.nodup).1
    refine ⟨hone.trans hrest fun page' hp => List.mem_singleton.mp hp ▸ hnot,
      KeepsData.trans (m := m) hkeeps hkeeps', List.forall_mem_cons.mpr ⟨?_, hflags'⟩,
      fun q hq => htaken q (hmaps.taken q ((htakes.taken_iff q).mpr (.inr hq))),
      fun q => (hpages q).trans ((hmaps.pages q).trans (htakes.page_iff q))⟩
    rw [hrest.others page hnot, hmaps.space, update_self]
    rfl

end Loop

/-- **A loop over new pages** that comes to its end. -/
theorem populates_of_foldlM (h : Usable m) (hl : ∀ va ∈ l, va < 0xFFC00000)
    (hok : l.foldlM heapGrow m = .ok m') :
    ∃ ps, l = ps.map Subtype.val ∧ Unmapped m ps ∧ Populates m ps m' := by
  induction l generalizing m with
  | nil =>
    cases hok
    exact ⟨[], rfl, ⟨List.nodup_nil, fun _ hp => by cases hp⟩, .refl h⟩
  | cons va l ih =>
    obtain ⟨hva, hl⟩ := List.forall_mem_cons.mp hl
    rw [List.foldlM_cons, bind_eq_ok] at hok
    obtain ⟨m₁, hgrow, hok⟩ := hok
    obtain ⟨regions, f, halloc, hmap⟩ := heapGrow_eq_ok.mp hgrow
    have hw := (h.alloc halloc).1.wellFormed
    obtain ⟨ha, -, -, m₂, t, hlink, habsent, -⟩ := vmmMap_ok hw hmap
    let page : Page := ⟨va, ha, hva⟩
    have hnone : m.space page = none := (hlink.space_eq_none_iff hw).mpr habsent
    have hpage : Populates m [page] m₁ :=
      populates_of_vmmMap (by decide) (by decide) h halloc hmap
    obtain ⟨ps, rfl, hunmapped, hps⟩ := ih hpage.usable hl hok
    have hnot : page ∉ ps := by
      intro hp
      obtain ⟨p, hspace, -⟩ := hpage.mapped page (List.mem_singleton_self _)
      rw [hunmapped.none page hp] at hspace
      cases hspace
    refine ⟨page :: ps, rfl, ⟨List.nodup_cons.mpr ⟨hnot, hunmapped.nodup⟩, fun page' hp => ?_⟩,
      hpage.trans hps fun page' hp => List.mem_singleton.mp hp ▸ hnot⟩
    rcases List.mem_cons.mp hp with rfl | hp'
    · exact hnone
    · rw [← hpage.others page' fun hc => hnot (List.mem_singleton.mp hc ▸ hp')]
      exact hunmapped.none page' hp'

/-- The loop of `load_elf` is the second loop of `syscall_mmap_handler`, as long as there are
frames. -/
theorem foldlM_heapGrow_iff {done : List ℕ} : l.foldlM heapGrow m = .ok m' ↔
    mmapPages loadFlags m done l = .ok (m', true) := by
  induction l generalizing m done with
  | nil => simp [mmapPages]
  | cons va l ih =>
    rw [List.foldlM_cons, bind_eq_ok]
    constructor
    · rintro ⟨m₁, hgrow, hok⟩
      obtain ⟨regions, f, halloc, hmap⟩ := heapGrow_eq_ok.mp hgrow
      rw [mmapPages, alloc, halloc]
      show vmmMap { m with regions := regions } va f loadFlags >>= _ = _
      rw [hmap]
      exact ih.mp hok
    · intro hok
      rcases mmapPages_cons_ok hok with ⟨_, _, _, hfalse⟩ | ⟨regions, f, m₁, halloc, hmap, hok⟩
      · cases hfalse
      · exact ⟨m₁, heapGrow_eq_ok.mpr ⟨regions, f, halloc, hmap⟩, ih.mpr hok⟩

theorem exists_foldlM_heapGrow (h : Usable m) (hps : Unmapped m ps)
    (hsupply : Pmm.provides (framesNeeded m (ps.map Subtype.val)) m.regions = true) :
    ∃ m', (ps.map Subtype.val).foldlM heapGrow m = .ok m' := by
  obtain ⟨m', hok⟩ : ∃ m', mmapPages loadFlags m [] (ps.map Subtype.val) = .ok (m', true) :=
    mmapPages_of_supply (by decide) (by decide) h hps hsupply
  exact ⟨m', foldlM_heapGrow_iff.mpr hok⟩

/-- A check has failed, of `load_elf` or of a function that it calls. -/
def Fault.IsCheck (e : Fault) : Prop := e = .assertion ∨ e = .abort

variable {e : Fault}

theorem allocFrame_isCheck (he : allocFrame m = .error e) : e.IsCheck := by
  rw [allocFrame, alloc] at he
  cases halloc : Pmm.pmmAlloc m.regions with
  | error e' =>
    rw [halloc] at he
    cases e' with
    | assertion => exact .inl (Except.error.inj he).symm
    | abort => exact .inr (Except.error.inj he).symm
  | ok r =>
    obtain ⟨regions, found⟩ := r
    rw [halloc] at he
    cases found with
    | none => exact .inl (Except.error.inj he).symm
    | some f => cases he

theorem vmmMap_isCheck {pa : ℕ} (h : Usable m) (hpa : pa % pageSize = 0)
    (hpresent : flags &&& vmmPagePresent ≠ 0) (he : vmmMap m va pa flags = .error e) :
    e.IsCheck := by
  rcases vmmMap_error h.wellFormed hpa hpresent he with ⟨-, rfl⟩ | ⟨_, -, -, rfl⟩ | ⟨-, halloc⟩
  · exact .inl rfl
  · exact .inr rfl
  · exact allocFrame_isCheck halloc

/-- **A loop over new pages** stops only if a check fails. -/
theorem foldlM_heapGrow_isCheck (h : Usable m) (hl : ∀ va ∈ l, va < 0xFFC00000)
    (he : l.foldlM heapGrow m = .error e) : e.IsCheck := by
  refine (Ends.foldlM (P := fun l m => Usable m ∧ ∀ va ∈ l, va < 0xFFC00000)
    (fun va l m ⟨h, hl⟩ => ⟨fun {m'} hok => ?_, fun {e} herr => ?_⟩) ⟨h, hl⟩).of_error he
  · obtain ⟨hva, hl⟩ := List.forall_mem_cons.mp hl
    have hone : [va].foldlM heapGrow m = .ok m' := by
      rw [List.foldlM_cons, hok]
      rfl
    obtain ⟨ps, -, -, hps⟩ := populates_of_foldlM h (List.forall_mem_singleton.mpr hva) hone
    exact ⟨hps.usable, hl⟩
  · rw [heapGrow, bind_eq_error] at herr
    rcases herr with herr | ⟨⟨m₁, f⟩, hframe, hmap⟩
    · exact allocFrame_isCheck herr
    · obtain ⟨regions, halloc, rfl⟩ := allocFrame_eq_ok.mp hframe
      obtain ⟨h₁, hpage, -⟩ := h.alloc halloc
      exact vmmMap_isCheck h₁ hpage (by decide) hmap

/-! ## New pages and their contents -/

/-- The frames of some pages. -/
def Machine.framesOf (m : Machine) (ps : List Page) : Set ℕ :=
  {f | ∃ page ∈ ps, ∃ p, m.space page = some p ∧ p.1 = f}

/-- The flags of the pages have been changed. -/
structure Remaps (m : Machine) (ps : List Page) (flags : BitVec 32) (m' : Machine) : Prop where
  usable : Usable m'
  regions : m'.regions = m.regions
  cr3 : m'.cr3 = m.cr3
  dir : m'.mem m.cr3 = m.mem m.cr3
  leaf : ∀ f, Leaf m f → m'.mem f = m.mem f
  space : ∀ page, m'.space page =
    if page ∈ ps then (m.space page).map fun p => (p.1, flags) else m.space page

/-- A page has been given new flags. -/
theorem exists_vmmRemap (h : Usable m) (hspace : m.space page = some p)
    (hflags : flags.toNat < 2 ^ 12) (hpresent : flags &&& vmmPagePresent ≠ 0) :
    ∃ m', vmmRemap m page.1 flags = .ok m' ∧ Remaps m [page] flags m' := by
  obtain ⟨m', hok, -, hupdate⟩ := vmmRemap_space h.wellFormed hspace hflags hpresent
  obtain ⟨-, t, ht, -, rfl⟩ := vmmRemap_ok h.wellFormed hok
  refine ⟨_, hok, h.write page.dirIndex_ne ht, rfl, rfl, ?_, fun f hf => ?_, fun page' => ?_⟩
  · exact Memory.write_of_ne (h.distinct.ne_cr3 page.dirIndex_ne ht).symm
  · exact Memory.write_of_ne fun heq => hf.2 _ (heq ▸ ht)
  · rw [hupdate]
    by_cases heq : page' = page
    · rw [heq, update_self, if_pos (List.mem_singleton_self _), hspace]
      rfl
    · rw [update_of_ne heq, if_neg (by simpa using heq)]

namespace Remaps

theorem refl (h : Usable m) : Remaps m [] flags m :=
  ⟨h, rfl, rfl, rfl, fun _ _ => rfl, fun _ => rfl⟩

section

variable (h : Remaps m ps flags m')

include h

theorem leaf_iff : Leaf m' f ↔ Leaf m f := by rw [Leaf, Leaf, h.cr3, h.dir]

theorem map_fst (page : Page) : (m'.space page).map Prod.fst = (m.space page).map Prod.fst := by
  rw [h.space]
  split
  · rw [Option.map_map]
    rfl
  · rfl

theorem trans (h' : Remaps m' ps' flags m₂) : Remaps m (ps ++ ps') flags m₂ := by
  refine ⟨h'.usable, h'.regions.trans h.regions, h'.cr3.trans h.cr3, ?_, fun f hf => ?_,
    fun page => ?_⟩
  · rw [← h.cr3, h'.dir, h.cr3, h.dir]
  · exact (h'.leaf f (h.leaf_iff.mpr hf)).trans (h.leaf f hf)
  · rw [h'.space, h.space]
    by_cases hp : page ∈ ps <;> by_cases hp' : page ∈ ps'
    · rw [if_pos hp', if_pos hp, if_pos (List.mem_append_left _ hp), Option.map_map]
      rfl
    · rw [if_neg hp', if_pos hp, if_pos (List.mem_append_left _ hp)]
    · rw [if_pos hp', if_neg hp, if_pos (List.mem_append_right _ hp')]
    · rw [if_neg hp', if_neg hp, if_neg fun hc => (List.mem_append.mp hc).elim hp hp']

end

end Remaps

/-- **The loop that changes the flags.** -/
theorem exists_remaps (h : Usable m) (hmapped : ∀ page ∈ ps, ∃ p, m.space page = some p)
    (hflags : flags.toNat < 2 ^ 12) (hpresent : flags &&& vmmPagePresent ≠ 0) :
    ∃ m', (ps.map Subtype.val).foldlM (fun m page => vmmRemap m page flags) m = .ok m' ∧
      Remaps m ps flags m' := by
  induction ps generalizing m with
  | nil => exact ⟨m, rfl, .refl h⟩
  | cons page ps ih =>
    obtain ⟨⟨p, hp⟩, hrest⟩ := List.forall_mem_cons.mp hmapped
    obtain ⟨m₁, hremap, hone⟩ := exists_vmmRemap h hp hflags hpresent
    obtain ⟨m', hloop, hall⟩ : ∃ m', (ps.map Subtype.val).foldlM
        (fun m page => vmmRemap m page flags) m₁ = .ok m' ∧ Remaps m₁ ps flags m' := by
      refine ih hone.usable fun page' hp' => ?_
      obtain ⟨p', hp'⟩ := hrest page' hp'
      rw [hone.space]
      split
      · exact ⟨(p'.1, flags), by rw [hp']; rfl⟩
      · exact ⟨p', hp'⟩
    refine ⟨m', ?_, hone.trans hall⟩
    rw [List.map_cons, List.foldlM_cons, hremap]
    exact hloop

namespace Populates

section Contents

variable (h : Populates m ps m')

include h

theorem of_mem_framesOf (hf : f ∈ m'.framesOf ps) : Free m.regions f ∧ Leaf m' f := by
  obtain ⟨page, hp, p, hspace, rfl⟩ := hf
  obtain ⟨p', hspace', hfree, hsettled⟩ := h.mapped page hp
  obtain rfl := Option.some.inj (hspace.symm.trans hspace')
  exact ⟨hfree, hsettled.leaf⟩

/-- The same directory, and the same frames for the pages. -/
theorem congr (husable : Usable m₂) (hregions : m₂.regions = m'.regions) (hcr3 : m₂.cr3 = m'.cr3)
    (hdir : m₂.mem m₂.cr3 = m'.mem m'.cr3)
    (hfst : ∀ page, (m₂.space page).map Prod.fst = (m'.space page).map Prod.fst)
    (hothers : ∀ page ∉ ps, m₂.space page = m'.space page)
    (hmem : ∀ f ∉ m'.framesOf ps, Leaf m' f → m₂.mem f = m'.mem f) : Populates m ps m₂ := by
  have hsettled : ∀ {f}, Settled m' f → Settled m₂ f := by
    intro f hf
    rwa [Settled, hdir, hcr3, hregions]
  refine ⟨husable, fun page hp => ?_, fun page hp page' hp' heq => ?_,
    fun page hp => (hothers page hp).trans (h.others page hp), fun f hf => ?_,
    fun f hf => h.free f (hregions ▸ hf), h.pays.congr (fun d => by rw [hdir]) hregions,
    fun d hd => hdir ▸ h.pde d hd⟩
  · obtain ⟨p, hspace, hfree, hp'⟩ := h.mapped page hp
    have heq := hfst page
    rw [hspace] at heq
    obtain ⟨p', hspace', heq⟩ := Option.map_eq_some_iff.mp heq
    exact ⟨p', hspace', heq.symm ▸ hfree, hsettled (heq.symm ▸ hp')⟩
  · rw [hfst, hfst] at heq
    exact h.distinct page hp page' hp' heq
  · obtain ⟨hsame, hf'⟩ := h.settled f hf
    exact ⟨(hmem f (fun hc => hf.2.2 (h.of_mem_framesOf hc).1) hf'.leaf).trans hsame, hsettled hf'⟩

/-- Stores to the pages. -/
theorem touches (ht : Touches (m'.framesOf ps) m' m₂) : Populates m ps m₂ :=
  h.congr (ht.usable h.usable) ht.regions ht.cr3 ht.dir (fun _ => by rw [ht.space])
    (fun _ _ => by rw [ht.space]) fun f hf _ => ht.same f hf

/-- Other flags for some of the pages. -/
theorem remaps (hr : Remaps m' ps' flags m₂) (hsub : ∀ page ∈ ps', page ∈ ps) :
    Populates m ps m₂ :=
  h.congr hr.usable hr.regions hr.cr3 (by rw [hr.cr3, hr.dir]) hr.map_fst
    (fun page hp => by rw [hr.space, if_neg fun hc => hp (hsub page hc)]) fun f _ => hr.leaf f

variable (hin : Within (ps.map Subtype.val) va len)

include hin

theorem mapped_of_within (hn : n ∈ pageNumbers va len) :
    ∃ f ∈ m'.framesOf ps, translate m'.mem m'.cr3 (n * pageSize % wordMod) = some f := by
  obtain ⟨page, hp, heq⟩ := List.mem_map.mp (hin n hn)
  obtain ⟨p, hspace, -⟩ := h.mapped page hp
  exact ⟨p.1, ⟨page, hp, p, hspace, rfl⟩, by rw [← heq, translate_of_space hspace]⟩

/-- **A store to the pages.** -/
theorem store : Vmm.store m' va len bytes = .ok (m'.filled va len bytes) ∧
    Touches (m'.framesOf ps) m' (m'.filled va len bytes) := by
  have hleaf : ∀ f ∈ m'.framesOf ps, Leaf m' f := fun f hf => (h.of_mem_framesOf hf).2
  exact ⟨store_ok hleaf fun n hn => h.mapped_of_within hin hn,
    touches_filled hleaf fun n hn => h.mapped_of_within hin hn⟩

/-- What is in the pages after the store. -/
theorem byteAt_store (hle : va + len ≤ wordMod) (ha : a < wordMod)
    (hpage : a / pageSize * pageSize ∈ ps.map Subtype.val) :
    (m'.filled va len bytes).byteAt a =
      if va ≤ a ∧ a < va + len then some (bytes (a - va)) else m'.byteAt a := by
  have hleaf : ∀ f ∈ m'.framesOf ps, Leaf m' f := fun f hf => (h.of_mem_framesOf hf).2
  have hmapped : ∀ n ∈ pageNumbers va len, ∃ f ∈ m'.framesOf ps,
      translate m'.mem m'.cr3 (n * pageSize % wordMod) = some f :=
    fun n hn => h.mapped_of_within hin hn
  -- pages that are in the same frame have the same number
  have hsame : ∀ n n' f, n * pageSize % wordMod ∈ ps.map Subtype.val → n * pageSize < wordMod →
      n' * pageSize % wordMod ∈ ps.map Subtype.val → n' * pageSize < wordMod →
      translate m'.mem m'.cr3 (n * pageSize % wordMod) = some f →
      translate m'.mem m'.cr3 (n' * pageSize % wordMod) = some f → n = n' := by
    intro n n' f hn hlt hn' hlt' htr htr'
    obtain ⟨page, hp, heq⟩ := List.mem_map.mp hn
    obtain ⟨page', hp', heq'⟩ := List.mem_map.mp hn'
    obtain ⟨p, hspace, -⟩ := h.mapped page hp
    obtain ⟨p', hspace', -⟩ := h.mapped page' hp'
    rw [← heq, translate_of_space hspace] at htr
    rw [← heq', translate_of_space hspace'] at htr'
    have hpages : page = page' := by
      refine h.distinct page hp page' hp' ?_
      rw [hspace, hspace', Option.map_some, Option.map_some, htr, htr']
    rw [Nat.mod_eq_of_lt hlt] at heq
    rw [Nat.mod_eq_of_lt hlt'] at heq'
    have hmul : n * pageSize = n' * pageSize := by rw [← heq, ← heq', hpages]
    exact Nat.eq_of_mul_eq_mul_right (by decide) hmul
  have hbound : ∀ n ∈ pageNumbers va len, n * pageSize < wordMod := by
    intro n hn
    obtain ⟨a, -, hlt, rfl⟩ := mem_pageNumbers.mp hn
    exact Nat.lt_of_le_of_lt (Nat.div_mul_le_self ..) (hlt.trans_le hle)
  have hinj : Set.InjOn m'.frameAt {n | n ∈ pageNumbers va len} := by
    intro n hn n' hn' heq
    have htr := (frameAt_mem hmapped hn).2
    have htr' := (frameAt_mem hmapped hn').2
    rw [← heq] at htr'
    exact hsame n n' _ (hin n hn) (hbound n hn) (hin n' hn') (hbound n' hn') htr htr'
  have hlt : a / pageSize * pageSize < wordMod := Nat.lt_of_le_of_lt (Nat.div_mul_le_self ..) ha
  obtain ⟨page, hp, heq⟩ := List.mem_map.mp hpage
  obtain ⟨p, hspace, -⟩ := h.mapped page hp
  have htr : translate m'.mem m'.cr3 a = some p.1 := by
    rw [translate_page, ← heq, translate_of_space hspace]
  rw [byteAt_filled hleaf hmapped ha htr hinj]
  · rw [Machine.byteAt, htr]
    split <;> rfl
  · intro n hn hframe
    have htr' := (frameAt_mem hmapped hn).2
    rw [hframe] at htr'
    rw [translate_page] at htr
    rw [← Nat.mod_eq_of_lt hlt] at hpage htr
    exact hsame n _ _ (hin n hn) (hbound n hn) hpage hlt htr' htr

end Contents

end Populates

/-- Other flags do not change what is in a page. -/
theorem Remaps.byteAt_eq (h : Remaps m ps flags m')
    (hspace : m.space page = some p) (hleaf : Leaf m p.1) (ha : a / pageSize * pageSize = page.1) :
    m'.byteAt a = m.byteAt a := by
  have hfst := h.map_fst page
  rw [hspace] at hfst
  obtain ⟨p', hspace', heq⟩ := Option.map_eq_some_iff.mp hfst
  have htr : translate m.mem m.cr3 a = some p.1 := by
    rw [translate_page, ha, translate_of_space hspace]
  have htr' : translate m'.mem m'.cr3 a = some p.1 := by
    rw [translate_page, ha, translate_of_space hspace', heq]
  rw [Machine.byteAt, Machine.byteAt, htr, htr', Option.map_some, Option.map_some, Memory.byte,
    Memory.byte, h.leaf _ hleaf]

/-- **Bytes are stored into new pages, twice, and the flags of some of them are changed.** -/
theorem Populates.exists_finish {size : ℕ} (h : Populates m ps m') (zero copy : ℕ → BitVec 8)
    (hsub : ∀ page ∈ ps', page ∈ ps) (hin : Within (ps.map Subtype.val) va len)
    (hin' : Within (ps.map Subtype.val) va size) (hflags : flags.toNat < 2 ^ 12)
    (hpresent : flags &&& vmmPagePresent ≠ 0) :
    Vmm.store m' va len zero = .ok (m'.filled va len zero) ∧
      Vmm.store (m'.filled va len zero) va size copy =
        .ok ((m'.filled va len zero).filled va size copy) ∧
      Populates m ps (m'.filled va len zero) ∧
      Populates m ps ((m'.filled va len zero).filled va size copy) ∧
      ∃ m₂, (ps'.map Subtype.val).foldlM (fun m page => vmmRemap m page flags)
          ((m'.filled va len zero).filled va size copy) = .ok m₂ ∧
        Populates m ps m₂ ∧ Remaps ((m'.filled va len zero).filled va size copy) ps' flags m₂ := by
  obtain ⟨hstore, htouches⟩ := h.store hin
  have h₁ := h.touches htouches
  obtain ⟨hstore', htouches'⟩ := h₁.store hin'
  have h₂ := h₁.touches htouches'
  have hmapped : ∀ page ∈ ps', ∃ p,
      ((m'.filled va len zero).filled va size copy).space page = some p := fun page hp => by
    obtain ⟨p, hspace, -⟩ := h₂.mapped page (hsub page hp)
    exact ⟨p, hspace⟩
  obtain ⟨m₂, hremap, hremaps⟩ := exists_remaps h₂.usable hmapped hflags hpresent
  exact ⟨hstore, hstore', h₁, h₂, m₂, hremap, h₂.remaps hremaps hsub, hremaps⟩

end Rastapopoulos.Vmm
