import Rastapopoulos.Foundations.Keyed
import Rastapopoulos.Vmm.Segments

/-!
# Sequences of transient maps

Transient maps are made and undone in any order. A call takes a page of the kernel heap, remembers
what is mapped there and maps another frame in its place; the node that remembers it is found again
by the address. Meanwhile the heap may grow, and pages come into use and go out of use.

The run lemma `covered_of_runs` says what holds after any sequence of calls: each page that is
covered has the frame that was asked for, and the address space *underneath*, with all covers taken
off, has only grown (`under`).
-/

namespace Rastapopoulos.Vmm

open Paging Function
open KernelHeap (pageSize)

/-- A page that is mapped transiently: its frame and flags, and those it had before. -/
abbrev TransientCover := Cover Page (ℕ × BitVec 32)

/-- Calls of `vmm_transient_map`, for frames of a page and flags of twelve bits, and of
`vmm_transient_unmap`, each for an address that has been mapped and not unmapped since. Of the two
lists the first has the maps that are still there, and the second those that have been undone. What
was mapped at an address before is reported when `kmalloc_a` has returned it. -/
inductive TransientRuns (k₀ : Kernel) : List TransientCover → List TransientCover → Kernel → Prop
  | start : TransientRuns k₀ [] [] k₀
  | map {covers closed : List TransientCover} {k k₁ k' : Kernel} {page : Page}
      {frame oldFrame : ℕ} {flags oldFlags : BitVec 32} :
      TransientRuns k₀ covers closed k →
      frame % pageSize = 0 → frame < wordMod → flags.toNat < 2 ^ 12 →
      kmallocA k = .ok (k₁, page.1) →
      vmmGetPhysical k₁.toMachine page.1 = .ok oldFrame →
      vmmGetFlags k₁.toMachine page.1 = .ok oldFlags →
      vmmTransientMap k frame flags = .ok (k', page.1) →
      TransientRuns k₀
        (covers ++ [⟨page, (frame, vmmPagePresent ||| flags), (oldFrame, oldFlags)⟩]) closed k'
  | unmap {covers closed : List TransientCover} {k k' : Kernel} {c : TransientCover} :
      TransientRuns k₀ covers closed k → c ∈ covers →
      vmmTransientUnmap k c.key.1 = .ok k' →
      TransientRuns k₀ (covers.eraseP fun d => d.key = c.key) (c :: closed) k'

/-- The maps are where they should be, those that were undone have left what was there before, and
no call fails whose allocations return. -/
structure Undoes (covers closed : List TransientCover) (k : Kernel) : Prop where
  distinct : (covers.map Cover.key).Nodup
  mapped : ∀ c ∈ covers, translate k.mem k.cr3 c.key.1 = some c.value.1
  restored : ∀ c ∈ closed, (∀ d ∈ covers, d.key ≠ c.key) →
    vmmGetPhysical k.toMachine c.key.1 = .ok c.old.1 ∧
      vmmGetFlags k.toMachine c.key.1 = .ok c.old.2
  map_returns : ∀ (frame : ℕ) (flags : BitVec 32) (k₁ k₂ : Kernel) (a node : ℕ),
    frame % pageSize = 0 → frame < wordMod → flags.toNat < 2 ^ 12 →
    kmallocA k = .ok (k₁, a) → kmalloc k₁ = .ok (k₂, node) →
    ∃ k', vmmTransientMap k frame flags = .ok (k', a)
  unmap_returns : ∀ c ∈ covers, ∃ k', vmmTransientUnmap k c.key.1 = .ok k'

variable {m : Machine} {k k₁ k₂ k₀ k' : Kernel} {page : Page} {covers closed : List TransientCover}
  {c : TransientCover} {a node frame : ℕ} {flags : BitVec 32}

/-! ## The heap -/

/-- What is mapped stays when the heap grows. -/
structure Grows (k k' : Kernel) : Prop where
  usable : Usable k'.toMachine
  held : k'.held = k.held
  maps : k'.transientMaps = k.transientMaps
  space : Retains k.space k'.space

theorem grows_of_kmalloc (h : Usable k.toMachine) (hok : kmalloc k = .ok (k', a)) : Grows k k' := by
  rw [kmalloc] at hok
  cases hanswers : k.answers with
  | nil =>
    rw [hanswers] at hok
    cases hok
  | cons answer answers =>
    rw [hanswers] at hok
    obtain ⟨hnew, hok⟩ := check_bind_eq_ok.mp hok
    obtain ⟨m, hgrow, hok⟩ := bind_eq_ok.mp hok
    cases hok
    obtain ⟨ps, -, hunmapped, hps⟩ :=
      populates_of_foldlM h (fun va hva => (hnew.2 va hva).1.2.1) hgrow
    refine ⟨hps.usable, rfl, rfl, fun page v hv => ?_⟩
    refine (hps.others page fun hp => ?_).trans hv
    rw [hunmapped.none page hp] at hv
    cases hv

theorem kmallocA_eq_ok : kmallocA k = .ok (k₁, a) ↔ ∃ k', kmalloc k = .ok (k', a) ∧
    (KernelPage a ∧ a ∉ k'.held ∧ (translate k'.mem k'.cr3 a).isSome) ∧ k₁ = k'.hold a := by
  rw [kmallocA, bind_eq_ok]
  constructor
  · rintro ⟨⟨k', a'⟩, hok, hrest⟩
    obtain ⟨hcheck, hrest⟩ := check_bind_eq_ok.mp hrest
    cases hrest
    exact ⟨k', hok, hcheck, rfl⟩
  · rintro ⟨k', hok, hcheck, rfl⟩
    exact ⟨(k', a), hok, check_bind_eq_ok.mpr ⟨hcheck, rfl⟩⟩

/-! ## One page is mapped in the place of another -/

theorem exchange_space {p : ℕ × BitVec 32} {pa : ℕ} (h : Usable m) (hs : m.space page = some p)
    (hpa : pa % pageSize = 0) (hlt : pa < wordMod) (hflags : flags.toNat < 2 ^ 12)
    (hpresent : flags &&& vmmPagePresent ≠ 0) :
    ∃ m₁ m', vmmUnmap m page.1 = .ok m₁ ∧ vmmMap m₁ page.1 pa flags = .ok m' ∧ Usable m' ∧
      m'.space = update m.space page (some (pa, flags)) := by
  obtain ⟨t, ht, hp, -, -⟩ := exists_of_space hs
  obtain ⟨m₁, hunmap, hmap⟩ := exchange h.toRunning page.2.1 page.dirIndex_ne hpa hpresent ht hp
  refine ⟨m₁, _, hunmap, hmap, h.write page.dirIndex_ne ht, ?_⟩
  rw [space_write h.distinct ht, space_entry hpa hlt hflags hpresent]

theorem present_or (flags : BitVec 32) : (vmmPagePresent ||| flags) &&& vmmPagePresent ≠ 0 := by
  intro h
  have hbit := congrArg (fun w : BitVec 32 => w.getLsbD 0) h
  simp [vmmPagePresent] at hbit

theorem or_lt (hflags : flags.toNat < 2 ^ 12) : (vmmPagePresent ||| flags).toNat < 2 ^ 12 := by
  rw [BitVec.toNat_or]
  exact Nat.or_lt_two_pow (by decide) hflags

/-- The entry that a page is mapped by. -/
theorem entry_of_space {p : ℕ × BitVec 32} (hs : m.space page = some p) :
    ∃ e, Present e ∧ p = (frameOf e, flagsOf e) := by
  obtain ⟨t, -, hp, hf, hfl⟩ := exists_of_space hs
  exact ⟨_, hp, Prod.ext hf.symm hfl.symm⟩

/-! ## The calls -/

/-- The node that remembers what was mapped. -/
def nodeOf (c : TransientCover) : TransientMap := ⟨c.old.1, c.old.2, c.key.1⟩

structure Covered (covers closed : List TransientCover) (k : Kernel) : Prop where
  usable : Usable k.toMachine
  maps : k.transientMaps = covers.map nodeOf
  nodup : (covers.map Cover.key).Nodup
  held : ∀ c ∈ covers, c.key.1 ∈ k.held
  value : ∀ c ∈ covers, k.space c.key = some c.value
  old : ∀ c ∈ covers, ∃ e, Present e ∧ c.old = (frameOf e, flagsOf e)
  closed : ∀ c ∈ closed, under covers k.space c.key = some c.old

theorem Covered.grow (h : Covered covers closed k) (hg : Grows k k') : Covered covers closed k' where
  usable := hg.usable
  maps := hg.maps.trans h.maps
  nodup := h.nodup
  held c hc := hg.held ▸ h.held c hc
  value c hc := hg.space _ _ (h.value c hc)
  old := h.old
  closed c hc := under_retains hg.space _ _ (h.closed c hc)

theorem Covered.hold (h : Covered covers closed k) (a : ℕ) : Covered covers closed (k.hold a) :=
  { h with held := fun c hc => .tail _ (h.held c hc) }

/-- **A page is covered**, if its allocation and that of the node return. -/
theorem Covered.map (h : Covered covers closed k) (hframe : frame % pageSize = 0)
    (hlt : frame < wordMod) (hflags : flags.toNat < 2 ^ 12) (hA : kmallocA k = .ok (k₁, a))
    (hnode : kmalloc k₁ = .ok (k₂, node)) :
    ∃ page : Page, page.1 = a ∧ ∃ p k', vmmGetPhysical k₁.toMachine a = .ok p.1 ∧
      vmmGetFlags k₁.toMachine a = .ok p.2 ∧ vmmTransientMap k frame flags = .ok (k', a) ∧
      Covered (covers ++ [⟨page, (frame, vmmPagePresent ||| flags), p⟩]) closed k' := by
  obtain ⟨k', hok, ⟨hpage, hnew, hmapped⟩, rfl⟩ := kmallocA_eq_ok.mp hA
  have hk' := h.grow (grows_of_kmalloc h.usable hok)
  have hgrows := grows_of_kmalloc (hk'.hold a).usable hnode
  have hk₂ := (hk'.hold a).grow hgrows
  let page : Page := ⟨a, hpage.2.2, hpage.2.1⟩
  -- what is mapped there
  obtain ⟨p, hp⟩ : ∃ p, k'.space page = some p := by
    rw [translate_eq_lookup, Option.isSome_map] at hmapped
    obtain ⟨e, he⟩ := Option.isSome_iff_exists.mp hmapped
    exact ⟨_, congrArg _ he⟩
  have hp₂ : k₂.space page = some p := hgrows.space page p hp
  have hfree : ∀ d ∈ covers, d.key ≠ page := by
    intro d hd heq
    have hheld := hk'.held d hd
    rw [heq] at hheld
    exact hnew hheld
  have hreport := report_of_space hk'.usable.toRunning page
  have hreport₂ := report_of_space hk₂.usable.toRunning page
  rw [hp] at hreport
  rw [hp₂] at hreport₂
  obtain ⟨m₁, m₂, hunmap, hmap, husable, hspace⟩ :=
    exchange_space hk₂.usable hp₂ hframe hlt (or_lt hflags) (present_or flags)
  refine ⟨page, rfl, p, { k₂.set m₂ with transientMaps := k₂.transientMaps ++ [⟨p.1, p.2, a⟩] },
    hreport.1, hreport.2, ?_, ?_⟩
  · have hphysical : vmmGetPhysical k₂.toMachine a = .ok p.1 := hreport₂.1
    have hgetflags : vmmGetFlags k₂.toMachine a = .ok p.2 := hreport₂.2
    have hunmap' : vmmUnmap k₂.toMachine a = .ok m₁ := hunmap
    have hmap' : vmmMap m₁ a frame (vmmPagePresent ||| flags) = .ok m₂ := hmap
    rw [vmmTransientMap, hA, ok_bind]
    dsimp only
    rw [hnode, ok_bind]
    dsimp only
    rw [hphysical, ok_bind, hgetflags, ok_bind, hunmap', ok_bind, hmap', ok_bind, pure_eq_ok]
  · have hunder := under_append (c := ⟨page, (frame, vmmPagePresent ||| flags), p⟩) hfree hp₂
    refine ⟨husable, ?_, ?_, fun d hd => ?_, fun d hd => ?_, fun d hd => ?_, fun d hd => ?_⟩
    · rw [List.map_append, ← hk₂.maps]
      rfl
    · rw [List.map_append, List.nodup_append]
      refine ⟨h.nodup, List.nodup_singleton _, fun key hkey key' hkey' => ?_⟩
      obtain ⟨d, hd, rfl⟩ := List.mem_map.mp hkey
      rw [List.mem_singleton.mp hkey']
      exact hfree d hd
    · rcases List.mem_append.mp hd with hd | hd
      · exact hk₂.held d hd
      · rw [List.mem_singleton.mp hd]
        exact hgrows.held ▸ List.mem_cons_self
    · show m₂.space d.key = some d.value
      rw [hspace]
      rcases List.mem_append.mp hd with hd | hd
      · rw [update_of_ne (hfree d hd)]
        exact hk₂.value d hd
      · rw [List.mem_singleton.mp hd]
        exact update_self ..
    · rcases List.mem_append.mp hd with hd | hd
      · exact h.old d hd
      · rw [List.mem_singleton.mp hd]
        exact entry_of_space hp
    · show under _ m₂.space d.key = some d.old
      rw [hspace, hunder]
      exact hk₂.closed d hd

/-- **A page is uncovered.** -/
theorem Covered.unmap (h : Covered covers closed k) (hc : c ∈ covers) :
    ∃ k', vmmTransientUnmap k c.key.1 = .ok k' ∧
      Covered (covers.eraseP fun d => d.key = c.key) (c :: closed) k' := by
  have hsame : ∀ d : TransientCover, (nodeOf d).address = c.key.1 ↔ d.key = c.key := by
    intro d
    exact Subtype.ext_iff.symm
  have hfind : k.transientMaps.find? (fun map => map.address = c.key.1) = some (nodeOf c) := by
    rw [h.maps, List.find?_map, Function.comp_def]
    simp only [hsame]
    rw [(find?_key_iff h.nodup).mpr ⟨hc, rfl⟩]
    rfl
  have herase : k.transientMaps.eraseP (fun map => map.address = c.key.1) =
      (covers.eraseP fun d => d.key = c.key).map nodeOf := by
    rw [h.maps, List.eraseP_map, Function.comp_def]
    simp only [hsame]
  obtain ⟨e, he, hold⟩ := h.old c hc
  have hframe : c.old.1 = frameOf e := congrArg Prod.fst hold
  have hflags : c.old.2 = flagsOf e := congrArg Prod.snd hold
  have hpresent : c.old.2 &&& vmmPagePresent ≠ 0 := by
    rw [hflags]
    exact present_flagsOf.mpr he
  obtain ⟨m₁, m₂, hunmap, hmap, husable, hspace⟩ := exchange_space h.usable (h.value c hc)
    (hframe ▸ frameOf_mod e) (hframe ▸ frameOf_lt) (hflags ▸ flagsOf_lt) hpresent
  refine ⟨{ (k.set m₂).release c.key.1 with
    transientMaps := k.transientMaps.eraseP fun map => map.address = c.key.1 }, ?_, ?_⟩
  · rw [vmmTransientUnmap, hfind]
    dsimp only [nodeOf]
    rw [hunmap, ok_bind, hmap, ok_bind, pure_eq_ok]
  · have hunder := under_eraseP (s := k.space) h.nodup hc
    refine ⟨husable, herase, nodup_eraseP_key h.nodup, fun d hd => ?_, fun d hd => ?_,
      fun d hd => ?_, fun d hd => ?_⟩
    · obtain ⟨hd, hne⟩ := (mem_eraseP_key h.nodup).mp hd
      exact (List.mem_erase_of_ne fun heq => hne (Subtype.ext heq)).mpr (h.held d hd)
    · obtain ⟨hd, hne⟩ := (mem_eraseP_key h.nodup).mp hd
      show m₂.space d.key = some d.value
      rw [hspace, update_of_ne hne]
      exact h.value d hd
    · exact h.old d ((mem_eraseP_key h.nodup).mp hd).1
    · show under _ m₂.space d.key = some d.old
      rw [hspace, hunder]
      rcases List.mem_cons.mp hd with rfl | hd
      · exact under_of_mem h.nodup hc
      · exact h.closed d hd

/-! ## Runs -/

theorem exists_of_vmmTransientMap (hok : vmmTransientMap k frame flags = .ok (k', a)) :
    ∃ k₁ k₂ node, kmallocA k = .ok (k₁, a) ∧ kmalloc k₁ = .ok (k₂, node) := by
  rw [vmmTransientMap, bind_eq_ok] at hok
  obtain ⟨⟨k₁, a'⟩, hA, hok⟩ := hok
  obtain ⟨⟨k₂, node⟩, hnode, hok⟩ := bind_eq_ok.mp hok
  simp only [bind_eq_ok] at hok
  obtain ⟨_, -, _, -, _, -, _, -, hok⟩ := hok
  cases hok
  exact ⟨k₁, k₂, node, hA, hnode⟩

/-- **A run** keeps the books. -/
theorem covered_of_runs (hk₀ : Usable k₀.toMachine) (hmaps : k₀.transientMaps = [])
    (h : TransientRuns k₀ covers closed k) : Covered covers closed k := by
  induction h with
  | start => exact ⟨hk₀, hmaps, List.nodup_nil, by simp, by simp, by simp, by simp⟩
  | @map covers closed k k₁ k' page frame oldFrame flags oldFlags _ hframe hlt hflags hA hphys
      hfl hok ih =>
    obtain ⟨k₁', k₂, node, hA', hnode⟩ := exists_of_vmmTransientMap hok
    cases hA.symm.trans hA'
    obtain ⟨page', hpage, p, k'', hphys', hfl', hok', hcovered⟩ :=
      ih.map hframe hlt hflags hA hnode
    obtain rfl := Subtype.ext hpage
    cases hphys.symm.trans hphys'
    cases hfl.symm.trans hfl'
    cases hok.symm.trans hok'
    exact hcovered
  | @unmap covers closed k k' c _ hc hok ih =>
    obtain ⟨k'', hok', hcovered⟩ := ih.unmap hc
    cases hok.symm.trans hok'
    exact hcovered

/-- Every call that returns is a step of a run. -/
theorem TransientRuns.exists_map (h : TransientRuns k₀ covers closed k) (hk₀ : Usable k₀.toMachine)
    (hmaps : k₀.transientMaps = []) (hframe : frame % pageSize = 0) (hlt : frame < wordMod)
    (hflags : flags.toNat < 2 ^ 12) (hok : vmmTransientMap k frame flags = .ok (k', a)) :
    ∃ c : TransientCover, c.key.1 = a ∧ TransientRuns k₀ (covers ++ [c]) closed k' := by
  obtain ⟨k₁, k₂, node, hA, hnode⟩ := exists_of_vmmTransientMap hok
  obtain ⟨page, rfl, p, k'', hphys, hfl, -, -⟩ :=
    (covered_of_runs hk₀ hmaps h).map hframe hlt hflags hA hnode
  exact ⟨_, rfl, .map h hframe hlt hflags hA hphys hfl hok⟩

/-- **Transient maps undo themselves**, in whatever order they are made and undone. -/
theorem transient_maps_undone (hk₀ : Usable k₀.toMachine) (hmaps : k₀.transientMaps = [])
    (h : TransientRuns k₀ covers closed k) : Undoes covers closed k := by
  have hcovered := covered_of_runs hk₀ hmaps h
  refine ⟨hcovered.nodup, fun c hc => ?_, fun c hc hnone => ?_, ?_, fun c hc => ?_⟩
  · exact translate_of_space (hcovered.value c hc)
  · have hspace : k.space c.key = some c.old :=
      (under_of_forall_ne hnone).symm.trans (hcovered.closed c hc)
    have hreport := report_of_space hcovered.usable.toRunning c.key
    rwa [hspace] at hreport
  · intro frame flags k₁ k₂ a node hframe hlt hflags hA hnode
    obtain ⟨_, -, _, k', -, -, hok, -⟩ := hcovered.map hframe hlt hflags hA hnode
    exact ⟨k', hok⟩
  · obtain ⟨k', hok, -⟩ := hcovered.unmap hc
    exact ⟨k', hok⟩

/-- Two pages of the heap, at `0xC0400000` and `0xC0401000`. -/
def twoPages : Kernel where
  mem := fun f i =>
    if f = 0x1000 then (if i = 1023 then 0x1003 else if i = 769 then 0x2003 else 0)
    else if f = 0x2000 then (if i = 0 then 0x3003 else if i = 1 then 0x4003 else 0)
    else 0
  cr3 := 0x1000
  pagingEnabled := true
  regions := []
  answers := [⟨[], 0xC0400000⟩, ⟨[], 0⟩, ⟨[], 0xC0401000⟩, ⟨[], 0⟩]
  held := []
  transientMaps := []

theorem twoPages_usable : Usable twoPages.toMachine := by
  have htarget : ∀ d, target (twoPages.mem 0x1000 d) =
      if d = 1023 then some 0x1000 else if d = 769 then some 0x2000 else none := by
    decide +kernel
  refine ⟨⟨rfl, htarget 1023, fun d d' t hd hd' => ?_⟩, ⟨by simp [twoPages], by simp [twoPages],
    List.Pairwise.nil⟩, ?_⟩
  · rw [show twoPages.cr3 = 0x1000 from rfl, htarget] at hd hd'
    grind
  · intro d t _ hpage
    obtain ⟨region, hr, -⟩ := hpage
    cases hr

/-- Two transient maps, of which the first is undone first. -/
theorem twoPages_undone : ∃ c d k, TransientRuns twoPages [] [d, c] k ∧
    c.key.1 = 0xC0400000 ∧ d.key.1 = 0xC0401000 ∧ Undoes [] [d, c] k := by
  have hcalls : (do
      let r ← vmmTransientMap twoPages 0x5000 3
      let r' ← vmmTransientMap r.1 0x6000 2
      let k ← vmmTransientUnmap r'.1 0xC0400000
      let _ ← vmmTransientUnmap k 0xC0401000
      return (r.2, r'.2)) = .ok (0xC0400000, 0xC0401000) := by decide +kernel
  simp only [bind_eq_ok] at hcalls
  obtain ⟨⟨k₁, a⟩, hmap, ⟨k₂, b⟩, hmap', k₃, hunmap, k₄, hunmap', hpages⟩ := hcalls
  cases hpages
  obtain ⟨c, hc, hrun₁⟩ := TransientRuns.start.exists_map twoPages_usable rfl (by decide) (by decide)
    (by decide) hmap
  obtain ⟨d, hd, hrun₂⟩ := hrun₁.exists_map twoPages_usable rfl (by decide) (by decide) (by decide)
    hmap'
  rw [← hc] at hunmap
  rw [← hd] at hunmap'
  have hrun₃ := TransientRuns.unmap hrun₂ (by simp) hunmap
  have hrun₄ := TransientRuns.unmap hrun₃ (by simp) hunmap'
  simp only [List.nil_append, List.singleton_append, List.eraseP_cons, decide_true, cond_true] at hrun₄
  exact ⟨c, d, k₄, hrun₄, hc, hd, transient_maps_undone twoPages_usable rfl hrun₄⟩

end Rastapopoulos.Vmm
