import Mathlib.Data.List.Basic
import Mathlib.Tactic.Ring

/-!
# Consecutive segments

A list of segments, each with a start `lo` and a length `len`, tiles the stretch from `a` to `e`
when the first starts at `a`, each next one starts where the one before ends, and the last ends
at `e`. The facts below are what is needed to cut a segment, to join two neighbours, and to read
off that different segments do not meet.
-/

namespace Rastapopoulos

universe u

variable {β : Type u} (lo len : β → ℕ)

/-- The segments `xs` cover the stretch from `a` to `e`, one after the other. -/
def Tiles : ℕ → List β → ℕ → Prop
  | a, [], e => a = e
  | a, x :: xs, e => lo x = a ∧ Tiles (a + len x) xs e

variable {lo len} {a e : ℕ} {x : β} {xs ys : List β}

@[simp] theorem tiles_nil : Tiles lo len a [] e ↔ a = e := Iff.rfl

@[simp] theorem tiles_cons :
    Tiles lo len a (x :: xs) e ↔ lo x = a ∧ Tiles lo len (a + len x) xs e := Iff.rfl

theorem tiles_append :
    Tiles lo len a (xs ++ ys) e ↔ ∃ m, Tiles lo len a xs m ∧ Tiles lo len m ys e := by
  induction xs generalizing a with
  | nil => simp
  | cons x xs ih => simp only [List.cons_append, tiles_cons, ih, and_assoc, exists_and_left]

namespace Tiles

theorem le (h : Tiles lo len a xs e) : a ≤ e := by
  induction xs generalizing a with
  | nil => exact Nat.le_of_eq h
  | cons x xs ih => exact (Nat.le_add_right _ _).trans (ih h.2)

/-- Every segment lies in the stretch. -/
theorem bounds (h : Tiles lo len a xs e) (hx : x ∈ xs) : a ≤ lo x ∧ lo x + len x ≤ e := by
  induction xs generalizing a with
  | nil => simp at hx
  | cons y ys ih =>
    obtain ⟨rfl, hys⟩ := h
    rcases List.mem_cons.mp hx with rfl | hx
    · exact ⟨le_rfl, hys.le⟩
    · have := ih hys hx
      omega

/-- Two different segments do not meet. -/
theorem disjoint {y : β} (h : Tiles lo len a xs e) (hx : x ∈ xs) (hy : y ∈ xs) (hne : x ≠ y) :
    lo x + len x ≤ lo y ∨ lo y + len y ≤ lo x := by
  induction xs generalizing a with
  | nil => simp at hx
  | cons z zs ih =>
    obtain ⟨rfl, hzs⟩ := h
    rcases List.mem_cons.mp hx with rfl | hx' <;> rcases List.mem_cons.mp hy with rfl | hy'
    · exact absurd rfl hne
    · exact .inl (hzs.bounds hy').1
    · exact .inr (hzs.bounds hx').1
    · exact ih hzs hx' hy'

/-- Segments of length at least `m` are not more than fit. -/
theorem length_mul_le {m : ℕ} (h : Tiles lo len a xs e) (hm : ∀ x ∈ xs, m ≤ len x) :
    xs.length * m ≤ e - a := by
  induction xs generalizing a with
  | nil => simp
  | cons y ys ih =>
    have hy := hm y (by simp)
    have hle := h.2.le
    have := ih h.2 fun x hx => hm x (by simp [hx])
    rw [List.length_cons, Nat.add_mul, one_mul]
    omega

end Tiles

end Rastapopoulos
