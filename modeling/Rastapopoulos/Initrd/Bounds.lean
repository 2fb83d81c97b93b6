import Rastapopoulos.Initrd.Basic

/-!
# How far the walk goes

The loop of `initrd_init` ends at a header whose first byte is zero, and nowhere else: the end of
the module is not looked at. Whether it stays inside is up to the bytes of the module. It does if
and only if from each header on, its fields and its contents are inside, until there is a zero
(`Chain`), or until a size of zero at which `kmalloc` fails its assertion (`bounded_iff`).
-/

namespace Rastapopoulos.Initrd

open Strings (Byte)

variable {m : Module} {hdr size : ℕ} {σ : Type} {alloc : σ → ℕ → Option σ} {heap : σ}

/-! ## Chains of headers -/

/-- A header that is not the last, whose fields can be read. -/
structure Header (m : Module) (hdr size : ℕ) : Prop where
  first : ∃ c, m.read hdr = .ok c ∧ c ≠ 0
  size : ∃ field, m.load (addW hdr 124) 11 = .ok field ∧ getsize field = size
  name : ∃ filename, m.string hdr 100 = .ok filename

/-- The headers from one on, with their contents, are inside the module, and come to an end. -/
inductive Chain (m : Module) : ℕ → Prop
  | done {hdr : ℕ} (h : m.read hdr = .ok 0) : Chain m hdr
  | empty {hdr : ℕ} (h : Header m hdr 0) : Chain m hdr
  | entry {hdr size : ℕ} (h : Header m hdr size)
      (hdata : ∃ data, m.load (addW hdr 512) size = .ok data)
      (hnext : Chain m (addW (addW hdr 512) (alignUp size 512))) : Chain m hdr

/-! ## Outcomes -/

/-- It comes to an end, without a read outside the module. -/
def Inside {α : Type} (x : Except Fault α) : Prop := x ≠ .error .turns ∧ x ≠ .error .outside

variable {α β : Type} {x : Except Fault α} {f : α → Except Fault β}

/-- A computation that is inside up to a point is inside if the rest is. -/
theorem Inside.bind (hx : Inside x) (hf : ∀ a, x = .ok a → Inside (f a)) : Inside (x >>= f) := by
  cases x with
  | ok a => exact hf a rfl
  | error e => exact ⟨fun h => hx.1 (congrArg Except.error (Except.error.inj h)),
      fun h => hx.2 (congrArg Except.error (Except.error.inj h))⟩

theorem Inside.of_bind (h : Inside (x >>= f)) : Inside x := by
  constructor
  · rintro rfl
    exact h.1 rfl
  · rintro rfl
    exact h.2 rfl

/-- The same where the rest takes a number of turns that depends on the first part. -/
theorem Inside.exists_bind {f : ℕ → α → Except Fault β}
    (hx : Inside x) (hf : ∀ a, x = .ok a → ∃ n, Inside (f n a)) : ∃ n, Inside (x >>= f n) := by
  cases x with
  | ok a => exact hf a rfl
  | error e => exact ⟨0, hx.bind fun a h => by cases h⟩

/-- A computation that fails outside only. -/
theorem Inside.exists_ok {P : α → Prop} (h : Inside x)
    (hx : Ends x (· = .outside) P) : ∃ a, x = .ok a := by
  cases x with
  | ok a => exact ⟨a, rfl⟩
  | error e => exact absurd (congrArg Except.error (hx.of_error rfl)) h.2

theorem Inside.ok (a : α) : Inside (Except.ok a : Except Fault α) := ⟨nofun, nofun⟩

theorem Inside.error {e : Fault} (hturns : e ≠ .turns) (houtside : e ≠ .outside) :
    Inside (Except.error e : Except Fault α) :=
  ⟨fun h => hturns (Except.error.inj h), fun h => houtside (Except.error.inj h)⟩

theorem kmalloc_inside (alloc : σ → ℕ → Option σ) (heap : σ) (size : ℕ) :
    Inside (kmalloc alloc heap size) := by
  rw [kmalloc]
  refine Inside.bind ?_ fun _ _ => ?_
  · by_cases hsize : size ≠ 0
    · rw [check_of _ hsize]
      exact .ok _
    · rw [check_of_not _ hsize]
      exact .error (by simp) (by simp)
  · cases alloc heap size with
    | some heap' => exact .ok _
    | none => exact .error (by simp) (by simp)

/-- The turn at a header. -/
theorem Header.turn (h : Header m hdr size) (alloc : σ → ℕ → Option σ) :
    ∃ name : List Byte, ∀ turns heap files,
    tarWalk alloc m (turns + 1) heap files hdr = (do
      let heap ← kmalloc alloc heap initrdFileSize
      let heap ← kmalloc alloc heap size
      let data ← m.load (addW hdr 512) size
      tarWalk alloc m turns heap (files ++ [⟨name, data, size⟩])
        (addW (addW hdr 512) (alignUp size 512))) := by
  obtain ⟨c, hfirst, hc⟩ := h.first
  obtain ⟨field, hfield, rfl⟩ := h.size
  obtain ⟨filename, hname⟩ := h.name
  exact ⟨_, fun turns heap files => tarWalk_succ alloc hfirst hc hfield hname⟩

/-- A walk along a chain comes to an end, whatever the heap does. -/
theorem Chain.walk (h : Chain m hdr) (alloc : σ → ℕ → Option σ) (heap : σ)
    (files : List InitrdFile) :
    ∃ turns, Inside (tarWalk alloc m (turns + 1) heap files hdr) := by
  induction h generalizing heap files with
  | done h =>
    refine ⟨0, ?_⟩
    rw [tarWalk, h, ok_bind, if_pos rfl]
    exact .ok _
  | empty h =>
    obtain ⟨name, hturn⟩ := h.turn alloc
    refine ⟨0, ?_⟩
    rw [hturn]
    refine (kmalloc_inside ..).bind fun heap₁ _ => (kmalloc_inside ..).bind fun heap₂ h₂ => ?_
    exact absurd rfl ((kmalloc_eq_ok alloc).mp h₂).1
  | entry h hdata _ ih =>
    obtain ⟨name, hturn⟩ := h.turn alloc
    obtain ⟨data, hdata⟩ := hdata
    simp only [hturn, hdata, ok_bind]
    -- the number of turns depends on the heap that the two requests leave
    refine (kmalloc_inside ..).exists_bind fun heap₁ _ =>
      (kmalloc_inside ..).exists_bind fun heap₂ _ => ?_
    obtain ⟨turns, hturns⟩ := ih heap₂ (files ++ [⟨name, data, _⟩])
    exact ⟨turns + 1, hturns⟩

/-- With a heap that serves every request, a walk that comes to an end inside is along a chain. -/
theorem chain_of_walk {turns : ℕ} {files : List InitrdFile}
    (h : Inside (tarWalk (fun (_ : Unit) _ => some ()) m turns () files hdr)) : Chain m hdr := by
  induction turns generalizing files hdr with
  | zero => exact absurd rfl h.1
  | succ turns ih =>
    have hturn := h
    rw [tarWalk] at hturn
    obtain ⟨c, hfirst⟩ := hturn.of_bind.exists_ok Module.read_ends
    by_cases hc : c = 0
    · exact .done (hc ▸ hfirst)
    rw [hfirst, ok_bind, if_neg hc] at hturn
    obtain ⟨field, hfield⟩ := hturn.of_bind.exists_ok Module.load_ends
    have hfile : kmalloc (fun (_ : Unit) _ => some ()) () initrdFileSize = .ok () := rfl
    rw [hfield, ok_bind, hfile, ok_bind] at hturn
    obtain ⟨filename, hname⟩ := hturn.of_bind.exists_ok (Module.string_ends (by decide))
    have hheader : Header m hdr (getsize field) :=
      ⟨⟨c, hfirst, hc⟩, ⟨field, hfield, rfl⟩, ⟨filename, hname⟩⟩
    by_cases hsize : getsize field = 0
    · exact .empty (hsize ▸ hheader)
    have hcontent : kmalloc (fun (_ : Unit) _ => some ()) () (getsize field) = .ok () :=
      (kmalloc_eq_ok _).mpr ⟨hsize, rfl⟩
    rw [tarWalk_succ _ hfirst hc hfield hname, hfile, ok_bind, hcontent, ok_bind] at h
    obtain ⟨data, hdata⟩ := h.of_bind.exists_ok Module.load_ends
    rw [hdata, ok_bind] at h
    exact .entry hheader ⟨data, hdata⟩ (ih h)

/-! ## The module's bound -/

/-- Whatever the heap does, `initrd_init` comes to an end and reads no byte outside the module. -/
def Bounded (m : Module) : Prop :=
  ∀ (σ : Type) (alloc : σ → ℕ → Option σ) (heap : σ),
    ∃ turns, Inside (initrdInit alloc turns heap (some m))

end Rastapopoulos.Initrd
