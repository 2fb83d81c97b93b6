import Mathlib.Tactic.Basic

/-!
# Fallible steps and their runs

A step of a machine either succeeds with the next state or stops with a fault. This module has
what every model of such a machine needs: how to take a successful computation apart
(`bind_eq_ok`, `check_eq_ok`, and for loops `foldlM_rest`), how to say at once what a computation
leads to and which faults it may stop with (`Ends`), and which states a machine can get to by
successful steps (`Reach`), with the induction rules that carry an invariant along a run.
-/

namespace Rastapopoulos

universe u v w

section Fallible

variable {ε : Type u} {α β : Type v}

/-- Go on when `p` holds, stop with the fault `e` otherwise. -/
def check (p : Prop) [Decidable p] (e : ε) : Except ε PUnit :=
  if p then .ok ⟨⟩ else .error e

variable {p : Prop} {e : ε} {x : Except ε α} {ε' : Type u}

@[simp] theorem check_eq_ok [Decidable p] {x : PUnit} :
    check p e = .ok x ↔ p := by
  unfold check
  split <;> simp_all

theorem check_eq_error [Decidable p] {e' : ε} :
    (check p e : Except ε PUnit) = .error e' ↔ ¬ p ∧ e = e' := by
  unfold check
  split <;> simp_all

theorem check_of [Decidable p] (e : ε) (h : p) : check p e = .ok ⟨⟩ := by
  simp [check, h]

theorem check_of_not [Decidable p] (e : ε) (h : ¬ p) : check p e = .error e := by
  simp [check, h]

/-- A sequence succeeds exactly when its first half does and the second half does on its value. -/
theorem bind_eq_ok {f : α → Except ε β} {b : β} :
    x >>= f = .ok b ↔ ∃ a, x = .ok a ∧ f a = .ok b := by
  rcases x with e | a
  · exact ⟨fun h => (nomatch h), fun ⟨_, h, _⟩ => (nomatch h)⟩
  · exact ⟨fun h => ⟨a, rfl, h⟩, fun ⟨_, h, hf⟩ => by cases h; exact hf⟩

/-- It fails when the first half does, or the second half does on its value. -/
theorem bind_eq_error {f : α → Except ε β} :
    x >>= f = .error e ↔ x = .error e ∨ ∃ a, x = .ok a ∧ f a = .error e := by
  rcases x with e' | a
  · exact ⟨fun h => by cases h; exact .inl rfl,
      fun h => h.elim (fun h => by cases h; rfl) fun ⟨_, h, _⟩ => (nomatch h)⟩
  · exact ⟨fun h => .inr ⟨a, rfl, h⟩,
      fun h => h.elim (fun h => (nomatch h)) fun ⟨_, h, hf⟩ => by cases h; exact hf⟩

@[simp] theorem ok_bind (a : α) (f : α → Except ε β) : (Except.ok a >>= f) = f a := rfl

@[simp] theorem error_bind (e : ε) (f : α → Except ε β) : (Except.error e >>= f) = .error e := rfl

@[simp] theorem pure_eq_ok (a : α) : (pure a : Except ε α) = .ok a := rfl

theorem pure_inj {a b : α} : (pure a : Except ε α) = .ok b ↔ a = b := by
  rw [pure_eq_ok, Except.ok.injEq]

/-- A computation behind a check. -/
theorem check_bind_eq_ok [Decidable p] {x : Except ε β} {b : β} :
    (check p e >>= fun _ => x) = .ok b ↔ p ∧ x = .ok b := by
  rw [bind_eq_ok]
  constructor
  · rintro ⟨_, hp, hx⟩
    exact ⟨check_eq_ok.mp hp, hx⟩
  · rintro ⟨hp, hx⟩
    exact ⟨⟨⟩, check_eq_ok.mpr hp, hx⟩

@[simp] theorem mapError_ok (f : ε → ε') (a : α) :
    (Except.ok a).mapError f = .ok a := rfl

@[simp] theorem mapError_error (f : ε → ε') (e : ε) :
    (Except.error e : Except ε α).mapError f = .error (f e) := rfl

/-- Relabelling faults does not change what succeeds. -/
@[simp] theorem mapError_eq_ok {f : ε → ε'} {a : α} :
    x.mapError f = .ok a ↔ x = .ok a := by
  cases x <;> simp

/-- A computation that succeeds on each element succeeds on the list. -/
theorem mapM_eq_ok_map {f : α → Except ε β} {g : α → β} {l : List α}
    (h : ∀ a ∈ l, f a = .ok (g a)) : l.mapM f = .ok (l.map g) := by
  induction l with
  | nil => rfl
  | cons a l ih =>
    rw [List.mapM_cons, h a (.head _), ok_bind,
      ih fun b hb => h b (.tail _ hb)]
    rfl

variable {f : β → α → Except ε β} {l : List α} {b b' : β}

/-- **The rule for loops**: what holds of the elements that are left and of the state, and is
carried along by each step, holds at the end. -/
theorem foldlM_rest {P : List α → β → Prop}
    (hstep : ∀ a l b b', P (a :: l) b → f b a = .ok b' → P l b') (hb : P l b)
    (h : l.foldlM f b = .ok b') : P [] b' := by
  induction l generalizing b with
  | nil =>
    cases h
    exact hb
  | cons a l ih =>
    rw [List.foldlM_cons, bind_eq_ok] at h
    obtain ⟨b₁, h₁, h⟩ := h
    exact ih (hstep a l b b₁ hb h₁) h

/-- The same for a property of the state alone. -/
theorem foldlM_invariant {P : β → Prop}
    (hstep : ∀ a ∈ l, ∀ b b', P b → f b a = .ok b' → P b') (hb : P b)
    (h : l.foldlM f b = .ok b') : P b' := by
  refine (foldlM_rest (P := fun rest b => (∀ a ∈ rest, a ∈ l) ∧ P b) ?_ ⟨fun _ => id, hb⟩ h).2
  intro a rest b b' hP hf
  exact ⟨fun c hc => hP.1 c (.tail _ hc),
    hstep a (hP.1 a (.head _)) b b' hP.2 hf⟩

/-- A loop whose turns all succeed. -/
theorem exists_foldlM {P : List α → β → Prop}
    (hstep : ∀ a l b, P (a :: l) b → ∃ b', f b a = .ok b' ∧ P l b') (hb : P l b) :
    ∃ b', l.foldlM f b = .ok b' ∧ P [] b' := by
  induction l generalizing b with
  | nil => exact ⟨b, rfl, hb⟩
  | cons a l ih =>
    obtain ⟨b₁, h₁, hb₁⟩ := hstep a l b hb
    rw [List.foldlM_cons, h₁]
    exact ih hb₁

/-- A loop whose turns change nothing. -/
theorem foldlM_of_fixed (h : ∀ a ∈ l, f b a = .ok b) : l.foldlM f b = .ok b := by
  induction l with
  | nil => rfl
  | cons a l ih =>
    obtain ⟨ha, hl⟩ := List.forall_mem_cons.mp h
    rw [List.foldlM_cons, ha, ok_bind, ih hl]

end Fallible

section Outcomes

variable {ε : Type u} {α β : Type v}

/-- A computation leads to a value with the property `P`, or stops with a fault that `E` allows. -/
structure Ends (x : Except ε α) (E : ε → Prop) (P : α → Prop) : Prop where
  of_ok : ∀ {a}, x = .ok a → P a
  of_error : ∀ {e}, x = .error e → E e

namespace Ends

variable {x : Except ε α} {f : α → Except ε β} {E E' : ε → Prop} {P P' : α → Prop}
  {Q : β → Prop} {a : α} {e : ε}

protected theorem ok (h : P a) : Ends (.ok a) E P := ⟨fun hx => Except.ok.inj hx ▸ h, nofun⟩

protected theorem error (h : E e) : Ends (.error e) E P := ⟨nofun, fun hx => Except.error.inj hx ▸ h⟩

theorem mono (h : Ends x E P) (hE : ∀ e, E e → E' e) (hP : ∀ a, P a → P' a) : Ends x E' P' :=
  ⟨fun hx => hP _ (h.of_ok hx), fun hx => hE _ (h.of_error hx)⟩

protected theorem bind (h : Ends x E P) (hf : ∀ a, P a → Ends (f a) E Q) : Ends (x >>= f) E Q := by
  cases x with
  | ok a => exact hf a (h.of_ok rfl)
  | error e => exact .error (h.of_error rfl)

protected theorem check {p : Prop} [Decidable p] {y : Except ε β} (he : ¬ p → E e)
    (hy : p → Ends y E Q) : Ends (check p e >>= fun _ => y) E Q := by
  by_cases hp : p
  · rw [check_of e hp]
    exact hy hp
  · rw [check_of_not e hp]
    exact .error (he hp)

/-- **The rule for loops.** -/
protected theorem foldlM {step : β → α → Except ε β} {P : List α → β → Prop} {l : List α} {b : β}
    (hstep : ∀ a l b, P (a :: l) b → Ends (step b a) E (P l)) (hb : P l b) :
    Ends (l.foldlM step b) E (P []) := by
  induction l generalizing b with
  | nil => exact .ok hb
  | cons a l ih =>
    rw [List.foldlM_cons]
    exact (hstep a l b hb).bind fun b' hb' => ih hb'

end Ends

end Outcomes

section Runs

variable {σ : Type u} {α : Type v} {ε : Type w}

/-- `Reach step Q s₀ s`: successful steps lead from `s₀` to `s`, and each of them met `Q`, a
condition on the step's action and on the state it was taken in. -/
inductive Reach (step : σ → α → Except ε σ) (Q : σ → α → Prop) (s₀ : σ) : σ → Prop
  | refl : Reach step Q s₀ s₀
  | tail {s s' : σ} {a : α} : Reach step Q s₀ s → Q s a → step s a = .ok s' →
      Reach step Q s₀ s'

namespace Reach

variable {step : σ → α → Except ε σ} {Q Q' : σ → α → Prop} {s₀ s s' : σ}

/-- A property of the first state that every allowed step preserves holds all along a run. -/
theorem invariant {P : σ → Prop} (h : Reach step Q s₀ s) (h₀ : P s₀)
    (hstep : ∀ s a s', P s → Q s a → step s a = .ok s' → P s') : P s := by
  induction h with
  | refl => exact h₀
  | tail _ hq hs ih => exact hstep _ _ _ ih hq hs

/-- A run that meets a stronger condition meets a weaker one. -/
theorem mono (h : Reach step Q s₀ s) (hQ : ∀ s a, Q s a → Q' s a) : Reach step Q' s₀ s := by
  induction h with
  | refl => exact .refl
  | tail _ hq hs ih => exact .tail ih (hQ _ _ hq) hs

theorem trans {s₁ : σ} (h₁ : Reach step Q s₀ s₁) (h₂ : Reach step Q s₁ s) :
    Reach step Q s₀ s := by
  induction h₂ with
  | refl => exact h₁
  | tail _ hq hs ih => exact .tail ih hq hs

end Reach

/-- Take the actions one after another, each under the condition. -/
def run (step : σ → α → Except ε σ) (Q : σ → α → Prop) [∀ s a, Decidable (Q s a)] (s : σ) :
    List α → Option σ
  | [] => some s
  | a :: l =>
    if Q s a then
      match step s a with
      | .ok s' => run step Q s' l
      | .error _ => none
    else none

variable {step : σ → α → Except ε σ} {Q : σ → α → Prop} [∀ s a, Decidable (Q s a)] {s₀ s : σ}

theorem Reach.of_run {l : List α} (h : run step Q s₀ l = some s) : Reach step Q s₀ s := by
  induction l generalizing s₀ with
  | nil =>
    cases h
    exact .refl
  | cons a l ih =>
    unfold run at h
    split at h
    · rename_i hq
      split at h
      · rename_i s' hs
        exact Reach.trans (.tail .refl hq hs) (ih h)
      · exact nomatch h
    · exact nomatch h

/-- A run that ends in a state with a property, found by evaluation. -/
theorem Reach.exists_of_run (step : σ → α → Except ε σ) (Q : σ → α → Prop)
    [∀ s a, Decidable (Q s a)] (s₀ : σ) (l : List α) (p : σ → Prop) [DecidablePred p]
    (h : (run step Q s₀ l).any (fun s => decide (p s)) = true) :
    ∃ s, Reach step Q s₀ s ∧ p s := by
  obtain ⟨s, hs, hp⟩ := (Option.any_eq_true _ _).mp h
  exact ⟨s, .of_run hs, of_decide_eq_true hp⟩

end Runs

end Rastapopoulos
