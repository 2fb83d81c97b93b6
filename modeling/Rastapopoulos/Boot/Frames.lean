import Mathlib.Data.List.Nodup
import Rastapopoulos.Boot.Basic
import Rastapopoulos.Pmm.Ownership

/-!
# The frames of the kernel heap

Through all stages of the boot, the frames that back the kernel heap are in use as far as the frame
manager knows of them, from the end of the reservation loops on, and so are those of the kernel
image. So `pmm_alloc` does not return them. No reservation hits a page that has been reserved
before: the loops over low memory and the image reserve pages below the heap, each once, and a page
that the heap takes is above all that has been reserved (`frames_owned`).
-/

namespace Rastapopoulos.Boot

open KernelHeap (pageSize)

open Pmm (Region Layout Page Taken Takes pmmExists pmmReserve pmmReserved pmmAlloc pmmFree)

variable {p : Placement} {s s' : Kernel} {regions regions' : List Region} {page frame : ℕ}

/-! ## Loops -/

theorem mem_loopPages {first limit : ℕ} :
    page ∈ loopPages first limit ↔ ∃ i, page = first + i * pageSize ∧ page < limit := by
  simp only [loopPages, List.mem_map, List.mem_range]
  constructor
  · rintro ⟨i, hi, rfl⟩
    refine ⟨i, rfl, ?_⟩
    unfold pageSize at *
    omega
  · rintro ⟨i, rfl, hlt⟩
    refine ⟨i, ?_, rfl⟩
    unfold pageSize at *
    omega

theorem nodup_loopPages (first limit : ℕ) : (loopPages first limit).Nodup := by
  refine List.Nodup.map (fun i j hij => ?_) List.nodup_range
  have hmul : i * pageSize = j * pageSize := Nat.add_left_cancel hij
  exact Nat.eq_of_mul_eq_mul_right (by decide) hmul

/-! ## Single reservations -/

theorem reserve_ok (h : reserve regions page = .ok regions') :
    pmmReserve regions page = .ok regions' := by
  unfold reserve at h
  split at h
  · rename_i hok
    cases h
    exact hok
  · split at h <;> exact nomatch h

/-- The reservation of a page that is free. -/
theorem reserve_ne_alreadyReserved (hl : Layout regions) (hfree : ¬ Taken regions page) :
    reserve regions page ≠ .error .alreadyReserved := by
  unfold reserve
  split
  · simp
  · split
    · rename_i h
      by_cases hp : page % pageSize = 0
      · rw [Pmm.pmmExists_eq hl hp] at h
        have hpage : Page regions page := of_decide_eq_true (Except.ok.inj h.1)
        rw [Pmm.pmmReserved_eq hl hpage] at h
        exact absurd (of_decide_eq_true (Except.ok.inj h.2)) hfree
      · rw [pmmExists, check_of_not _ hp] at h
        cases h.1
    · simp

def Reservation.target : Reservation → ℕ
  | .always page => page
  | .unlessReserved page => page

/-- The page is taken, if it exists, and nothing else has changed. -/
structure Settles (regions : List Region) (page : ℕ) (regions' : List Region) : Prop where
  layout : Layout regions'
  page_iff : ∀ q, Page regions' q ↔ Page regions q
  taken_iff : ∀ q, Taken regions' q ↔ q = page ∧ Page regions page ∨ Taken regions q

theorem Settles.of_takes (h : Takes regions page regions') : Settles regions page regions' :=
  ⟨h.layout, h.page_iff, fun q => by simp only [h.taken_iff, h.page, and_true]⟩

theorem Settles.refl (hl : Layout regions) (h : Page regions page → Taken regions page) :
    Settles regions page regions := by
  refine ⟨hl, fun _ => Iff.rfl, fun q => ⟨.inr, ?_⟩⟩
  rintro (⟨rfl, hpage⟩ | htaken)
  · exact h hpage
  · exact htaken

variable {reservation : Reservation} {mem : ℕ → KernelHeap.BlockHeader}

namespace Reservation

theorem apply_always (hl : Layout regions) (page : ℕ) (halign : page % pageSize = 0) :
    (always page).apply regions =
      if Page regions page then reserve regions page else .ok regions := by
  rw [apply, Pmm.pmmExists_eq hl halign]
  by_cases hpage : Page regions page
  · simp [hpage]
  · simp [hpage]

theorem apply_unlessReserved (hl : Layout regions) (page : ℕ) (halign : page % pageSize = 0) :
    (unlessReserved page).apply regions =
      if Page regions page ∧ ¬ Taken regions page then reserve regions page else .ok regions := by
  rw [apply, Pmm.pmmExists_eq hl halign]
  by_cases hpage : Page regions page
  · by_cases htaken : Taken regions page
    · simp [hpage, Pmm.pmmReserved_eq hl hpage]
    · simp [hpage, Pmm.pmmReserved_eq hl hpage]
  · simp [hpage]

theorem apply_ok (hl : Layout regions)
    (halign : reservation.target % pageSize = 0) (h : reservation.apply regions = .ok regions') :
    Settles regions reservation.target regions' := by
  cases reservation with
  | always page =>
    rw [apply_always hl page halign] at h
    split at h
    · exact .of_takes (Pmm.pmmReserve_ok hl (reserve_ok h))
    · rename_i hpage
      cases h
      exact .refl hl fun hp => absurd hp hpage
  | unlessReserved page =>
    rw [apply_unlessReserved hl page halign] at h
    split at h
    · exact .of_takes (Pmm.pmmReserve_ok hl (reserve_ok h))
    · rename_i hpage
      cases h
      exact .refl hl fun hp => by_contra fun htaken => hpage ⟨hp, htaken⟩

theorem apply_ne_alreadyReserved (hl : Layout regions) (halign : reservation.target % pageSize = 0)
    (hfree : ∀ page, reservation = .always page → ¬ Taken regions page) :
    reservation.apply regions ≠ .error .alreadyReserved := by
  cases reservation with
  | always page =>
    rw [apply_always hl page halign]
    split
    · exact reserve_ne_alreadyReserved hl (hfree page rfl)
    · exact nofun
  | unlessReserved page =>
    rw [apply_unlessReserved hl page halign]
    split
    · rename_i hpage
      exact reserve_ne_alreadyReserved hl hpage.2
    · exact nofun

end Reservation

/-! ## Where the heap is -/

theorem Kernel.addPage_heapSize (s : Kernel) (regions : List Region) (frame : ℕ) :
    (s.addPage regions frame).heapSize = addW s.heapSize pageSize := rfl

theorem Kernel.addPage_frames (s : Kernel) (regions : List Region) (frame : ℕ) :
    (s.addPage regions frame).frames = frame :: s.frames := rfl

theorem Kernel.addPage_heapStart (s : Kernel) (regions : List Region) (frame : ℕ) :
    (s.addPage regions frame).heapStart = s.heapStart := rfl

/-- The frame of the first page of the heap. -/
def Kernel.firstFrame (s : Kernel) : ℕ := s.heapStart - kernelBaseAddr

/-- The frame behind the last page. -/
def Kernel.nextFrame (s : Kernel) : ℕ := s.heapStart + s.heapSize - kernelBaseAddr

theorem Kernel.first_le_next (s : Kernel) : s.firstFrame ≤ s.nextFrame :=
  Nat.sub_le_sub_right (Nat.le_add_right _ _) _

/-- The heap starts at a page boundary above the kernel image, and there is a bound on its size. -/
structure Fits (p : Placement) (s : Kernel) : Prop where
  start_mod : s.heapStart % pageSize = 0
  size_mod : s.heapSize % pageSize = 0
  above : p.kernelEnd ≤ s.heapStart
  max_eq : s.heapStart + s.maxSize = 0xC0400000
  limit : s.heapStart + s.heapSize ≤ 0xC0500000

namespace Fits

theorem of_eq (h : Fits p s) (hstart : s'.heapStart = s.heapStart)
    (hsize : s'.heapSize = s.heapSize) (hmax : s'.maxSize = s.maxSize) : Fits p s' :=
  ⟨hstart ▸ h.start_mod, hsize ▸ h.size_mod, hstart ▸ h.above, hstart ▸ hmax ▸ h.max_eq,
    hstart ▸ hsize ▸ h.limit⟩

theorem mib_le (h : Fits p s) : kernelBaseAddr + 0x100000 ≤ s.heapStart :=
  p.mib_le.trans (p.start_le.trans h.above)

theorem addW_eq (h : Fits p s) : addW s.heapStart s.heapSize = s.heapStart + s.heapSize :=
  addW_of_lt (h.limit.trans_lt (by decide))

theorem physical_next (h : Fits p s) :
    physical (addW s.heapStart s.heapSize) = s.nextFrame := by
  have hlimit := h.limit
  have hmib := h.mib_le
  rw [h.addW_eq, physical, subW_of_le (by unfold wordMod; omega) (by unfold kernelBaseAddr at *; omega)]
  rfl

theorem physical_first (h : Fits p s) :
    physical (s.heapStart / pageSize * pageSize) = s.firstFrame := by
  have hlimit := h.limit
  have hmib := h.mib_le
  rw [Nat.div_mul_cancel (Nat.dvd_of_mod_eq_zero h.start_mod), physical,
    subW_of_le (by unfold wordMod; omega) (by unfold kernelBaseAddr at *; omega)]
  rfl

theorem next_mod (h : Fits p s) : s.nextFrame % pageSize = 0 := by
  have hstart := h.start_mod
  have hsize := h.size_mod
  unfold Kernel.nextFrame pageSize kernelBaseAddr at *
  omega

/-- Below the maximal size there is room for another page. -/
theorem addPage (h : Fits p s) (hmax : ¬ s.maxSize ≤ s.heapSize) (regions : List Region)
    (frame : ℕ) : Fits p (s.addPage regions frame) ∧
      (s.addPage regions frame).firstFrame = s.firstFrame ∧
      s.nextFrame < (s.addPage regions frame).nextFrame := by
  have hmaxeq := h.max_eq
  have hlt : s.heapStart + (s.heapSize + 4096) ≤ 0xC0500000 := by omega
  have hsize : addW s.heapSize pageSize = s.heapSize + 4096 :=
    addW_of_lt (by unfold pageSize wordMod; omega)
  refine ⟨⟨h.start_mod, ?_, h.above, h.max_eq, ?_⟩, rfl, ?_⟩
  · rw [s.addPage_heapSize, hsize, Nat.add_mod, h.size_mod]
    rfl
  · rwa [s.addPage_heapSize, hsize]
  · have hbase : kernelBaseAddr ≤ s.heapStart + s.heapSize :=
      (Nat.le_add_right _ _).trans (h.mib_le.trans (Nat.le_add_right _ _))
    rw [Kernel.nextFrame, Kernel.nextFrame, s.addPage_heapSize, hsize]
    exact Nat.sub_lt_sub_right hbase (Nat.add_lt_add_left (Nat.lt_add_of_pos_right (by decide)) _)

end Fits

/-! ## What the stages have in common and what they do not -/

/-- Before paging, the heap's frames are the addresses of its pages, less the base. -/
structure Linear (s : Kernel) : Prop where
  frames : ∀ frame ∈ s.frames, s.firstFrame ≤ frame ∧ frame < s.nextFrame ∧ frame % pageSize = 0
  others : s.others = []

/-- The frame manager is up, `todo` is what is left of the loops, and paging is off. -/
structure Booting (p : Placement) (s : Kernel) (todo : List Reservation) : Prop where
  layout : Layout s.regions
  below : ∀ frame, Taken s.regions frame → frame < s.nextFrame
  nodup : todo.Nodup
  aligned : ∀ reservation ∈ todo, reservation.target % pageSize = 0
  always : ∀ page, .always page ∈ todo → page < s.firstFrame ∧ ¬ Taken s.regions page
  unlessReserved : ∀ page, .unlessReserved page ∈ todo → s.firstFrame ≤ page ∧ page < s.nextFrame
  image : ∀ frame ∈ p.imagePages, Page s.regions frame →
    Taken s.regions frame ∨ .always frame ∈ todo
  frames : ∀ frame ∈ s.frames, Page s.regions frame →
    Taken s.regions frame ∨ .unlessReserved frame ∈ todo

/-- The frames of the heap and of the image are taken, and so are those in other use. -/
structure Running (p : Placement) (s : Kernel) : Prop where
  layout : Layout s.regions
  image : ∀ frame ∈ p.imagePages, Page s.regions frame → Taken s.regions frame
  frames : ∀ frame ∈ s.frames, Page s.regions frame → Taken s.regions frame
  others : ∀ frame ∈ s.others, Taken s.regions frame ∧ frame ∉ p.imagePages ∧ frame ∉ s.frames
  nodup : s.others.Nodup

/-- The invariant of each stage. -/
inductive Stands (p : Placement) (s : Kernel) : Stage → Prop
  | early (h : Linear s) : Stands p s .early
  | memory (h : Linear s) (hl : Layout s.regions)
      (htaken : ∀ frame, Taken s.regions frame → s.firstFrame ≤ frame ∧ frame < s.nextFrame) :
      Stands p s .memory
  | reserving {todo : List Reservation} (h : Linear s) (hb : Booting p s todo) :
      Stands p s (.reserving todo)
  | paging (h : Running p s) : Stands p s .paging

structure Inv (p : Placement) (s : Kernel) : Prop where
  fits : Fits p s
  stands : Stands p s s.stage

theorem Inv.of_paging (hf : Fits p s) (hstage : s.stage = .paging) (h : Running p s) : Inv p s :=
  ⟨hf, hstage ▸ .paging h⟩

/-- The heap gets the next frame. -/
theorem Linear.addPage (h : Linear s) (hf : Fits p s) (hmax : ¬ s.maxSize ≤ s.heapSize)
    (regions : List Region) : Linear (s.addPage regions s.nextFrame) := by
  obtain ⟨-, hfirst, hlt⟩ := hf.addPage hmax regions s.nextFrame
  refine ⟨fun frame hframe => ?_, h.others⟩
  rcases List.mem_cons.mp hframe with heq | hframe
  · rw [heq]
    exact ⟨s.first_le_next, hlt, hf.next_mod⟩
  · obtain ⟨hle, hnext, hmod⟩ := h.frames frame hframe
    exact ⟨hle, hnext.trans hlt, hmod⟩

namespace Booting

variable {todo : List Reservation}

/-- The next frame is not taken, and the heap takes it. -/
theorem addPage (h : Booting p s todo) (hf : Fits p s) (hmax : ¬ s.maxSize ≤ s.heapSize)
    (ht : Takes s.regions s.nextFrame regions) :
    Booting p (s.addPage regions s.nextFrame) todo := by
  obtain ⟨-, hfirst, hlt⟩ := hf.addPage hmax regions s.nextFrame
  refine ⟨ht.layout, fun frame htaken => ?_, h.nodup, h.aligned, fun page hpage => ?_,
    fun page hpage => ?_, fun frame hframe hpage => ?_, fun frame hframe hpage => ?_⟩
  · rcases (ht.taken_iff frame).mp htaken with heq | htaken
    · rw [heq]
      exact hlt
    · exact (h.below frame htaken).trans hlt
  · obtain ⟨hbelow, hfree⟩ := h.always page hpage
    refine ⟨hbelow, fun htaken => ?_⟩
    rcases (ht.taken_iff page).mp htaken with heq | htaken
    · rw [heq] at hbelow
      exact Nat.not_lt.mpr s.first_le_next hbelow
    · exact hfree htaken
  · exact (h.unlessReserved page hpage).imp_right fun hpage => hpage.trans hlt
  · exact (h.image frame hframe ((ht.page_iff frame).mp hpage)).imp_left fun htaken =>
      (ht.taken_iff frame).mpr (.inr htaken)
  · rcases List.mem_cons.mp hframe with heq | hframe
    · exact .inl ((ht.taken_iff _).mpr (.inl heq))
    · exact (h.frames frame hframe ((ht.page_iff frame).mp hpage)).imp_left fun htaken =>
        (ht.taken_iff frame).mpr (.inr htaken)

/-- One turn of the loops. -/
theorem next (h : Booting p s (reservation :: todo))
    (hs : Settles s.regions reservation.target regions) :
    Booting p { s with stage := .reserving todo, regions := regions } todo := by
  have hkeep : ∀ frame, Taken s.regions frame → Taken regions frame :=
    fun frame htaken => (hs.taken_iff frame).mpr (.inr htaken)
  -- what stood at the head of the list is taken now
  have hdone : ∀ frame, Page regions frame → reservation.target = frame → Taken regions frame :=
    fun frame hpage heq =>
      (hs.taken_iff frame).mpr (.inl ⟨heq.symm, heq ▸ (hs.page_iff frame).mp hpage⟩)
  have hnot := List.nodup_cons.mp h.nodup
  refine ⟨hs.layout, fun frame htaken => ?_, hnot.2,
    fun r hr => h.aligned r (.tail _ hr), fun page hpage => ?_,
    fun page hpage => h.unlessReserved page (.tail _ hpage),
    fun frame hframe hpage => ?_, fun frame hframe hpage => ?_⟩
  · rcases (hs.taken_iff frame).mp htaken with ⟨rfl, -⟩ | htaken
    · cases reservation with
      | always page =>
        exact (h.always page (.head _)).1.trans_le s.first_le_next
      | unlessReserved page => exact (h.unlessReserved page (.head _)).2
    · exact h.below frame htaken
  · obtain ⟨hbelow, hfree⟩ := h.always page (.tail _ hpage)
    refine ⟨hbelow, fun htaken => ?_⟩
    rcases (hs.taken_iff page).mp htaken with ⟨heq, hexists⟩ | htaken
    · cases reservation with
      | always page' =>
        have heq' : page = page' := heq
        exact hnot.1 (heq' ▸ hpage)
      | unlessReserved page' =>
        have heq' : page = page' := heq
        exact Nat.not_lt.mpr (h.unlessReserved page' (.head _)).1 (heq' ▸ hbelow)
    · exact hfree htaken
  · rcases h.image frame hframe ((hs.page_iff frame).mp hpage) with htaken | hmem
    · exact .inl (hkeep frame htaken)
    · rcases List.mem_cons.mp hmem with heq | hmem
      · exact .inl (hdone frame hpage (by rw [← heq]; rfl))
      · exact .inr hmem
  · rcases h.frames frame hframe ((hs.page_iff frame).mp hpage) with htaken | hmem
    · exact .inl (hkeep frame htaken)
    · rcases List.mem_cons.mp hmem with heq | hmem
      · exact .inl (hdone frame hpage (by rw [← heq]; rfl))
      · exact .inr hmem

end Booting

/-! ## The loops of `kmain` -/

theorem always_mem_reservations {heapStart heapSize : ℕ} :
    .always page ∈ reservations p heapStart heapSize ↔ page ∈ lowPages ∨ page ∈ p.imagePages := by
  simp [reservations]

section Reservations

variable (hf : Fits p s)

include hf

theorem Fits.physical_eq {address : ℕ} (hle : kernelBaseAddr ≤ address)
    (hlt : address ≤ s.heapStart) : physical address = address - kernelBaseAddr :=
  subW_of_le ((hlt.trans ((Nat.le_add_right _ _).trans hf.limit)).trans_lt (by decide)) hle

/-- The pages of the image are above low memory and below the heap. -/
theorem mem_imagePages (h : page ∈ p.imagePages) :
    page % pageSize = 0 ∧ 0x100000 ≤ page ∧ page < s.firstFrame := by
  obtain ⟨i, rfl, hlt⟩ := mem_loopPages.mp h
  have hmib := p.mib_le
  have hbase : kernelBaseAddr ≤ p.kernelStart := (Nat.le_add_right _ _).trans hmib
  rw [hf.physical_eq hbase (p.start_le.trans hf.above)] at *
  rw [hf.physical_eq (hbase.trans p.start_le) hf.above] at hlt
  refine ⟨?_, ?_, hlt.trans_le (Nat.sub_le_sub_right hf.above _)⟩
  · rw [← Nat.add_mul, Nat.mul_mod_left]
  · have h1 : 0x100000 ≤ p.kernelStart - kernelBaseAddr := Nat.le_sub_of_add_le' hmib
    have h2 := Nat.div_le_div_right (c := pageSize) h1
    have h3 := Nat.mul_le_mul_right pageSize h2
    exact h3.trans (Nat.le_add_right _ _)

omit hf in
theorem mem_lowPages (h : page ∈ lowPages) : page % pageSize = 0 ∧ page < 0x100000 := by
  rcases List.mem_append.mp h with h | h
  · obtain ⟨i, rfl, hlt⟩ := mem_loopPages.mp h
    unfold pageSize at *
    omega
  · obtain ⟨i, rfl, hlt⟩ := mem_loopPages.mp h
    unfold pageSize at *
    omega

theorem nodup_reservations : (reservations p s.heapStart s.heapSize).Nodup := by
  have hlow : lowPages.Nodup := by decide +kernel
  have halways : (lowPages ++ p.imagePages).Nodup := by
    refine List.nodup_append.mpr ⟨hlow, nodup_loopPages _ _, fun a ha b hb hab => ?_⟩
    exact Nat.not_lt.mpr (mem_imagePages hf hb).2.1 (hab ▸ (mem_lowPages ha).2)
  refine List.nodup_append.mpr ⟨halways.map fun _ _ h => Reservation.always.inj h,
    (nodup_loopPages _ _).map fun _ _ h => Reservation.unlessReserved.inj h, ?_⟩
  intro a ha b hb hab
  obtain ⟨_, -, rfl⟩ := List.mem_map.mp ha
  obtain ⟨_, -, rfl⟩ := List.mem_map.mp hb
  exact nomatch hab

theorem unlessReserved_mem_reservations :
    .unlessReserved page ∈ reservations p s.heapStart s.heapSize ↔
      s.firstFrame ≤ page ∧ page < s.nextFrame ∧ page % pageSize = 0 := by
  simp only [reservations, List.mem_append, List.mem_map, reduceCtorEq, and_false, exists_false,
    false_or, Reservation.unlessReserved.injEq, exists_eq_right, mem_loopPages, hf.physical_first,
    hf.physical_next]
  have hmod : s.firstFrame % pageSize = 0 := by
    have hstart := hf.start_mod
    unfold Kernel.firstFrame kernelBaseAddr pageSize at *
    omega
  constructor
  · rintro ⟨i, rfl, hlt⟩
    exact ⟨Nat.le_add_right _ _, hlt, by rw [Nat.add_mul_mod_self_right, hmod]⟩
  · rintro ⟨hle, hlt, hpage⟩
    refine ⟨(page - s.firstFrame) / pageSize, ?_, hlt⟩
    unfold pageSize at *
    omega

/-- What `kernel_heap_info` finds covers the heap. -/
theorem booting_reservations (h : Linear s) (hl : Layout s.regions)
    (htaken : ∀ frame, Taken s.regions frame → s.firstFrame ≤ frame ∧ frame < s.nextFrame) :
    Booting p { s with stage := .reserving (reservations p s.heapStart s.heapSize) }
      (reservations p s.heapStart s.heapSize) := by
  refine ⟨hl, fun frame hframe => (htaken frame hframe).2, nodup_reservations hf,
    fun reservation hmem => ?_, fun page hpage => ?_, fun page hpage => ?_,
    fun frame hframe _ => .inr (always_mem_reservations.mpr (.inr hframe)),
    fun frame hframe _ => .inr ((unlessReserved_mem_reservations hf).mpr (h.frames frame hframe))⟩
  · cases reservation with
    | always page =>
      rcases always_mem_reservations.mp hmem with hlow | himage
      · exact (mem_lowPages hlow).1
      · exact (mem_imagePages hf himage).1
    | unlessReserved page => exact ((unlessReserved_mem_reservations hf).mp hmem).2.2
  · have hbelow : page < s.firstFrame := by
      rcases always_mem_reservations.mp hpage with hlow | himage
      · exact (mem_lowPages hlow).2.trans_le (Nat.le_sub_of_add_le' hf.mib_le)
      · exact (mem_imagePages hf himage).2.2
    exact ⟨hbelow, fun ht => Nat.not_lt.mpr (htaken page ht).1 hbelow⟩
  · obtain ⟨hle, hlt, -⟩ := (unlessReserved_mem_reservations hf).mp hpage
    exact ⟨hle, hlt⟩

end Reservations

/-! ## After paging has been enabled -/

namespace Running

/-- The state when the loops have run. -/
theorem of_booting (hlin : Linear s) (hb : Booting p s []) : Running p s := by
  refine ⟨hb.layout, fun frame hframe hpage => ?_, fun frame hframe hpage => ?_,
    fun frame hframe => ?_, ?_⟩
  · exact (hb.image frame hframe hpage).resolve_right List.not_mem_nil
  · exact (hb.frames frame hframe hpage).resolve_right List.not_mem_nil
  · rw [hlin.others] at hframe
    exact nomatch hframe
  · rw [hlin.others]
    exact List.nodup_nil

/-- A frame that was free is handed out: it is none of those of the heap and of the image. -/
theorem not_mem (h : Running p s) (ht : Takes s.regions frame regions) :
    frame ∉ s.frames ∧ frame ∉ p.imagePages :=
  ⟨fun hmem => ht.free (h.frames frame hmem ht.page),
    fun hmem => ht.free (h.image frame hmem ht.page)⟩

/-- The heap gets it. -/
theorem addPage (h : Running p s) (ht : Takes s.regions frame regions) :
    Running p (s.addPage regions frame) := by
  have hkeep : ∀ q, Taken s.regions q → Taken regions q :=
    fun q htaken => (ht.taken_iff q).mpr (.inr htaken)
  refine ⟨ht.layout, fun q hq hpage => hkeep q (h.image q hq ((ht.page_iff q).mp hpage)),
    fun q hq hpage => ?_, fun q hq => ?_, h.nodup⟩
  · rcases List.mem_cons.mp hq with rfl | hq
    · exact (ht.taken_iff q).mpr (.inl rfl)
    · exact hkeep q (h.frames q hq ((ht.page_iff q).mp hpage))
  · obtain ⟨htaken, himage, hframes⟩ := h.others q hq
    refine ⟨hkeep q htaken, himage, ?_⟩
    rw [s.addPage_frames, List.mem_cons, not_or]
    exact ⟨fun heq => ht.free (heq ▸ htaken), hframes⟩

/-- Someone else gets it. -/
theorem alloc (h : Running p s) (ht : Takes s.regions frame regions) :
    Running p { s with regions := regions, others := frame :: s.others } := by
  have hkeep : ∀ q, Taken s.regions q → Taken regions q :=
    fun q htaken => (ht.taken_iff q).mpr (.inr htaken)
  refine ⟨ht.layout, fun q hq hpage => hkeep q (h.image q hq ((ht.page_iff q).mp hpage)),
    fun q hq hpage => hkeep q (h.frames q hq ((ht.page_iff q).mp hpage)), fun q hq => ?_, ?_⟩
  · rcases List.mem_cons.mp hq with rfl | hq
    · exact ⟨(ht.taken_iff q).mpr (.inl rfl), (h.not_mem ht).2, (h.not_mem ht).1⟩
    · obtain ⟨htaken, hnot⟩ := h.others q hq
      exact ⟨hkeep q htaken, hnot⟩
  · exact List.nodup_cons.mpr ⟨fun hmem => ht.free (h.others frame hmem).1, h.nodup⟩

/-- And gives it back. -/
theorem free (h : Running p s) (hmem : frame ∈ s.others)
    (hfree : Pmm.Frees s.regions frame regions) :
    Running p { s with regions := regions, others := s.others.erase frame } := by
  obtain ⟨-, himage, hframes⟩ := h.others frame hmem
  have hkeep : ∀ q, q ≠ frame → Taken s.regions q → Taken regions q :=
    fun q hne htaken => (hfree.taken_iff q).mpr ⟨hne, htaken⟩
  refine ⟨hfree.layout, fun q hq hpage => ?_, fun q hq hpage => ?_, fun q hq => ?_,
    h.nodup.erase _⟩
  · exact hkeep q (fun heq => himage (heq ▸ hq)) (h.image q hq ((hfree.page_iff q).mp hpage))
  · exact hkeep q (fun heq => hframes (heq ▸ hq)) (h.frames q hq ((hfree.page_iff q).mp hpage))
  · obtain ⟨hne, hq⟩ := (List.Nodup.mem_erase_iff h.nodup).mp hq
    obtain ⟨htaken, hnot⟩ := h.others q hq
    exact ⟨hkeep q hne htaken, hnot⟩

end Running

/-! ## Runs -/

theorem boot_ok (h : boot mem p = .ok s) :
    p.multibootEnd < 0xC0400000 ∧ s.stage = .early ∧
      s.heapStart = alignUp p.multibootEnd pageSize ∧ s.heapSize = pageSize * 64 ∧
      s.maxSize = subW 0xC0400000 s.heapStart ∧
      s.frames = (loopPages s.heapStart (addW s.heapStart s.heapSize)).map physical ∧
      s.others = [] := by
  simp only [boot, KernelHeap.kmallocInit, KernelHeap.heapInit, bind_eq_ok, check_eq_ok,
    mapError_eq_ok, pure_inj] at h
  obtain ⟨-, hend, _, ⟨-, -, -, -, rfl⟩, rfl⟩ := h
  refine ⟨hend, rfl, rfl, rfl, rfl, ?_, rfl⟩
  simp only [Kernel.frames, List.map_map]
  rfl

/-- The heap that `kmalloc_init` makes. -/
theorem fits_of_boot (h : boot mem p = .ok s) : Fits p s := by
  obtain ⟨hend, -, hstart, hsize, hmax, -, -⟩ := boot_ok h
  have hround : s.heapStart = (p.multibootEnd + 4095) / 4096 * 4096 :=
    hstart.trans (alignUp_two_pow (k := 12) (by decide) (by unfold wordMod; omega))
  have hle : s.heapStart ≤ 0xC0400000 := by omega
  have habove : p.multibootEnd ≤ s.heapStart := by omega
  rw [subW_of_le (by decide) hle] at hmax
  refine ⟨?_, ?_, p.end_le.trans habove, ?_, ?_⟩
  · rw [hround]
    exact Nat.mul_mod_left _ _
  · rw [hsize]
    exact Nat.mul_mod_right _ _
  · rw [hmax, Nat.add_sub_cancel' hle]
  · rw [hsize]
    exact (Nat.add_le_add_right hle _).trans (by decide)

theorem linear_of_boot (h : boot mem p = .ok s) :
    Linear s := by
  have hf := fits_of_boot h
  obtain ⟨-, -, -, -, -, hframes, hothers⟩ := boot_ok h
  refine ⟨fun frame hframe => ?_, hothers⟩
  rw [hframes] at hframe
  obtain ⟨page, hpage, rfl⟩ := List.mem_map.mp hframe
  obtain ⟨i, rfl, hlt⟩ := mem_loopPages.mp hpage
  rw [hf.addW_eq] at hlt
  have hbase : kernelBaseAddr ≤ s.heapStart + i * pageSize :=
    ((Nat.le_add_right _ _).trans hf.mib_le).trans (Nat.le_add_right _ _)
  have hphys : physical (s.heapStart + i * pageSize) =
      s.heapStart + i * pageSize - kernelBaseAddr :=
    subW_of_le ((hlt.le.trans hf.limit).trans_lt (by decide)) hbase
  rw [hphys]
  refine ⟨Nat.sub_le_sub_right (Nat.le_add_right _ _) _, Nat.sub_lt_sub_right hbase hlt, ?_⟩
  have hmod := hf.start_mod
  unfold kernelBaseAddr pageSize at *
  omega

/-- One turn of the loop of `heap_grow`, in each stage. -/
theorem Inv.grow (h : Inv p s) (hs : s.grow = .ok s') : Inv p s' := by
  obtain ⟨hf, hstands⟩ := h
  unfold Kernel.grow at hs
  split at hs
  · cases hs
    exact ⟨hf, hstands⟩
  rename_i hmax
  simp only [hf.physical_next] at hs
  have hinv : ∀ {regions frame}, Stands p (s.addPage regions frame) s.stage →
      Inv p (s.addPage regions frame) := fun hstands => ⟨(hf.addPage hmax _ _).1, hstands⟩
  generalize hstage : s.stage = stage at hs hstands hinv
  cases hstands with
  | early hlin =>
    cases hs
    exact hinv (.early (hlin.addPage hf hmax _))
  | memory hlin hl htaken =>
    obtain ⟨regions, hreserve, hs⟩ := bind_eq_ok.mp hs
    cases hs
    have ht := Pmm.pmmReserve_ok hl (reserve_ok hreserve)
    obtain ⟨-, hfirst, hlt⟩ := hf.addPage hmax regions s.nextFrame
    refine hinv (.memory (hlin.addPage hf hmax _) ht.layout fun frame hframe => ?_)
    rcases (ht.taken_iff frame).mp hframe with heq | hframe
    · rw [heq]
      exact ⟨s.first_le_next, hlt⟩
    · exact (htaken frame hframe).imp_right fun hframe => hframe.trans hlt
  | reserving hlin hb =>
    obtain ⟨regions, hreserve, hs⟩ := bind_eq_ok.mp hs
    cases hs
    have ht := Pmm.pmmReserve_ok hb.layout (reserve_ok hreserve)
    exact hinv (.reserving (hlin.addPage hf hmax _) (hb.addPage hf hmax ht))
  | paging hr =>
    obtain ⟨⟨regions, found⟩, halloc, hs⟩ := bind_eq_ok.mp hs
    rw [mapError_eq_ok] at halloc
    cases found with
    | some frame =>
      cases hs
      exact hinv (.paging (hr.addPage (Pmm.pmmAlloc_some hr.layout halloc)))
    | none =>
      cases hs
      obtain ⟨rfl, -⟩ := Pmm.pmmAlloc_none hr.layout halloc
      exact .of_paging (hf.of_eq rfl rfl rfl) rfl
        ⟨hr.layout, hr.image, hr.frames, hr.others, hr.nodup⟩

section Step

variable {entries : List Pmm.MmapEntry} {regions₀ : List Region} {a : Action}

/-- **One step**, for a memory map whose regions are disjoint and end below 4 GiB. -/
theorem Inv.next (h₀ : Pmm.pmmInit entries = .ok regions₀) (hl₀ : Layout regions₀)
    (h : Inv p s) (hs : step p entries s a = .ok s') : Inv p s' := by
  obtain ⟨hf, hstands⟩ := h
  cases a with
  | grow => exact Inv.grow ⟨hf, hstands⟩ hs
  | pmmInit =>
    simp only [step, bind_eq_ok, check_eq_ok, mapError_eq_ok] at hs
    obtain ⟨-, hstage, regions, hregions, hs⟩ := hs
    cases hs
    cases h₀.symm.trans hregions
    rw [hstage] at hstands
    cases hstands with
    | early hlin =>
      exact ⟨hf.of_eq rfl rfl rfl,
        .memory ⟨hlin.frames, hlin.others⟩ hl₀ fun frame hframe =>
          absurd hframe (Pmm.not_taken_of_fresh (Pmm.pmmInit_fresh h₀))⟩
  | heapInfo =>
    simp only [step, bind_eq_ok, check_eq_ok] at hs
    obtain ⟨-, hstage, hs⟩ := hs
    cases hs
    rw [hstage] at hstands
    cases hstands with
    | memory hlin hl htaken =>
      exact ⟨hf.of_eq rfl rfl rfl,
        .reserving ⟨hlin.frames, hlin.others⟩ (booting_reservations hf hlin hl htaken)⟩
  | reserve =>
    simp only [step] at hs
    split at hs
    · rename_i reservation todo hstage
      obtain ⟨regions, happly, hs⟩ := bind_eq_ok.mp hs
      cases hs
      rw [hstage] at hstands
      cases hstands with
      | reserving hlin hb =>
        have hsettles := Reservation.apply_ok hb.layout
          (hb.aligned _ (.head _)) happly
        exact ⟨hf.of_eq rfl rfl rfl,
          .reserving ⟨hlin.frames, hlin.others⟩ (hb.next hsettles)⟩
    · cases hs
  | vmmInit =>
    simp only [step, bind_eq_ok, check_eq_ok] at hs
    obtain ⟨-, hstage, hs⟩ := hs
    cases hs
    rw [hstage] at hstands
    cases hstands with
    | reserving hlin hb =>
      have hr := Running.of_booting hlin hb
      exact ⟨hf.of_eq rfl rfl rfl,
        .paging ⟨hr.layout, hr.image, hr.frames, hr.others, hr.nodup⟩⟩
  | alloc =>
    simp only [step, bind_eq_ok, check_eq_ok, mapError_eq_ok] at hs
    obtain ⟨-, hstage, ⟨regions, found⟩, halloc, hs⟩ := hs
    cases hs
    rw [hstage] at hstands
    cases hstands with
    | paging hr =>
      cases found with
      | some frame =>
        exact .of_paging (hf.of_eq rfl rfl rfl) hstage
          (hr.alloc (Pmm.pmmAlloc_some hr.layout halloc))
      | none =>
        obtain ⟨rfl, -⟩ := Pmm.pmmAlloc_none hr.layout halloc
        exact .of_paging hf hstage hr
  | free frame =>
    simp only [step, bind_eq_ok, check_eq_ok, mapError_eq_ok] at hs
    obtain ⟨-, ⟨hstage, hmem⟩, regions, hfree, hs⟩ := hs
    cases hs
    rw [hstage] at hstands
    cases hstands with
    | paging hr =>
      exact .of_paging (hf.of_eq rfl rfl rfl) hstage
        (hr.free hmem (Pmm.pmmFree_ok hr.layout hfree))

theorem mapError_pmm_ne {α : Type} {x : Except Pmm.Fault α} :
    x.mapError Fault.pmm ≠ .error .alreadyReserved := by
  cases x <;> exact nofun

/-- A page that is reserved has not been reserved before. -/
theorem Inv.ne_alreadyReserved (h : Inv p s) (a : Action) :
    step p entries s a ≠ .error .alreadyReserved := by
  obtain ⟨hf, hstands⟩ := h
  intro hs
  cases a with
  | grow =>
    simp only [step, Kernel.grow] at hs
    split at hs
    · exact nomatch hs
    simp only [hf.physical_next] at hs
    -- the page behind the heap is above all that is taken
    have hreserve : Layout s.regions → (∀ frame, Taken s.regions frame → frame < s.nextFrame) →
        (reserve s.regions s.nextFrame >>= fun regions =>
          pure (s.addPage regions s.nextFrame) : Except Fault Kernel) ≠ .error .alreadyReserved := by
      intro hl hbelow hs
      rcases bind_eq_error.mp hs with hs | ⟨_, _, hs⟩
      · exact reserve_ne_alreadyReserved hl (fun ht => Nat.lt_irrefl _ (hbelow _ ht)) hs
      · exact nomatch hs
    generalize s.stage = stage at hs hstands
    cases hstands with
    | early hlin => exact nomatch hs
    | memory hlin hl htaken => exact hreserve hl (fun frame hframe => (htaken frame hframe).2) hs
    | reserving hlin hb => exact hreserve hb.layout hb.below hs
    | paging hr =>
      rcases bind_eq_error.mp hs with hs | ⟨⟨_, found⟩, _, hs⟩
      · exact mapError_pmm_ne hs
      · cases found <;> exact nomatch hs
  | reserve =>
    simp only [step] at hs
    split at hs
    · rename_i reservation todo hstage
      rw [hstage] at hstands
      cases hstands with
      | reserving hlin hb =>
        rcases bind_eq_error.mp hs with hs | ⟨_, _, hs⟩
        · refine Reservation.apply_ne_alreadyReserved hb.layout
            (hb.aligned _ (.head _)) (fun page heq => ?_) hs
          exact (hb.always page (heq ▸ .head _)).2
        · exact nomatch hs
    · exact nomatch hs
  | pmmInit | heapInfo | vmmInit | alloc | free frame =>
    simp only [step, bind_eq_error, check_eq_error] at hs
    simp [mapError_pmm_ne] at hs

/-- The reservation loops have run. -/
def Kernel.Reserved (s : Kernel) : Prop := s.stage = .reserving [] ∨ s.stage = .paging

/-- **The heap owns its frames** through all stages of the boot: no reservation aborts because the
page has been reserved before, and once the reservation loops have run, a frame that `pmm_alloc`
returns backs no page of the heap yet, and no page of the kernel image. -/
theorem frames_owned {mem : ℕ → KernelHeap.BlockHeader} {s₀ : Kernel}
    (h₀ : Pmm.pmmInit entries = .ok regions₀)
    (hdisj : regions₀.Pairwise fun r s => Disjoint r.range s.range)
    (hbelow : ∀ region ∈ regions₀, region.addr + region.len < wordMod)
    (hboot : boot mem p = .ok s₀) (hrun : Reach (step p entries) (fun _ _ => True) s₀ s) :
    (∀ a, step p entries s a ≠ .error .alreadyReserved) ∧
      (s.Reserved → ∀ regions frame, pmmAlloc s.regions = .ok (regions, some frame) →
        frame ∉ s.frames ∧ frame ∉ p.imagePages) := by
  have hl₀ : Layout regions₀ :=
    ⟨fun region hmem => (Pmm.pmmInit_fresh h₀ region hmem).1, hbelow, hdisj⟩
  have hinv : Inv p s := by
    refine hrun.invariant ⟨fits_of_boot hboot, ?_⟩ fun s a s' hs _ hstep => hs.next h₀ hl₀ hstep
    rw [(boot_ok hboot).2.1]
    exact .early (linear_of_boot hboot)
  refine ⟨hinv.ne_alreadyReserved, fun hreserved regions frame halloc => ?_⟩
  have hr : Running p s := by
    obtain ⟨-, hstands⟩ := hinv
    rcases hreserved with hstage | hstage
    · rw [hstage] at hstands
      cases hstands with
      | reserving hlin hb => exact .of_booting hlin hb
    · rw [hstage] at hstands
      cases hstands with
      | paging hr => exact hr
  exact hr.not_mem (Pmm.pmmAlloc_some hr.layout halloc)

end Step

/-- An image of two pages at 1 MiB, and the multiboot data right behind it. -/
def smallKernel : Placement where
  kernelStart := 0xC0100000
  kernelEnd := 0xC0101800
  multibootEnd := 0xC0101900
  mib_le := by decide
  start_le := by decide
  end_le := by decide

/-- With 4 MiB behind the first: the heap grows in every stage, and a frame is allocated for another
use. -/
theorem frames_owned_small_kernel :
    ∃ (s₀ s : Kernel) (regions : List Region) (frame : ℕ),
      boot (fun _ => ⟨0, 0, 0, 0⟩) smallKernel = .ok s₀ ∧
        Reach (step smallKernel [⟨0x100000, 0x400000, 1⟩]) (fun _ _ => True) s₀ s ∧
        s.stage = .paging ∧ s.heapSize = s₀.heapSize + 5 * pageSize ∧ s.others.length = 1 ∧
        pmmAlloc s.regions = .ok (regions, some frame) ∧
        frame ∉ s.frames ∧ frame ∉ smallKernel.imagePages := by
  have hboot : boot (fun _ => ⟨0, 0, 0, 0⟩) smallKernel = .ok
      ⟨.early, [], 0xC0102000, 0x40000, 0x2FE000,
        (loopPages 0xC0102000 0xC0142000).map fun page => (page, physical page), []⟩ := by
    decide +kernel
  have hinit : Pmm.pmmInit [⟨0x100000, 0x400000, 1⟩] =
      .ok [⟨0x100000, 0x400000, ⟨1024, List.replicate 32 0⟩⟩] := by decide +kernel
  obtain ⟨s, hrun, hstage, hsize, hothers, hfound⟩ := Reach.exists_of_run
    (step smallKernel [⟨0x100000, 0x400000, 1⟩]) (fun _ _ => True)
    ⟨.early, [], 0xC0102000, 0x40000, 0x2FE000,
      (loopPages 0xC0102000 0xC0142000).map fun page => (page, physical page), []⟩
    ([.grow, .pmmInit, .grow, .heapInfo, .grow] ++ List.replicate 166 .reserve ++
      [.grow, .vmmInit, .alloc, .grow])
    (fun s => s.stage = .paging ∧ s.heapSize = 0x45000 ∧ s.others.length = 1 ∧
      (pmmAlloc s.regions).toOption.bind Prod.snd = some 0x148000) (by decide +kernel)
  have howned := frames_owned hinit (by simp) (by decide) hboot hrun
  cases halloc : pmmAlloc s.regions with
  | error fault =>
    rw [halloc] at hfound
    exact nomatch hfound
  | ok result =>
    obtain ⟨regions, found⟩ := result
    rw [halloc] at hfound
    obtain rfl : found = some 0x148000 := hfound
    exact ⟨_, s, regions, _, hboot, hrun, hstage, hsize, hothers, halloc,
      howned.2 (.inr hstage) regions _ halloc⟩

end Rastapopoulos.Boot
