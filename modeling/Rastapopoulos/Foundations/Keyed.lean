import Mathlib.Data.List.Nodup
import Mathlib.Logic.Function.Basic

/-!
# Lists of elements with keys

A list in which no two elements have the same key is a table: looking up a key and removing it are
described by membership (`find?_key_iff`, `mem_eraseP_key`).

`Cover` is the entry of such a table that stands for a change that is to be undone: a key of a
partial map has another value for a while, and the old one is kept. `under` is the map as it would
be if all changes were undone. Making and undoing a change, in whatever order, leave it as it is.
-/

namespace Rastapopoulos

section Key

variable {α κ : Type} [DecidableEq κ] {key : α → κ} {l : List α} {k : κ} {a : α}

/-- An element is found by its key. -/
theorem find?_key_iff (hl : (l.map key).Nodup) :
    l.find? (fun b => key b = k) = some a ↔ a ∈ l ∧ key a = k := by
  constructor
  · intro h
    exact ⟨List.mem_of_find?_eq_some h, of_decide_eq_true (List.find?_some h :)⟩
  · rintro ⟨ha, hk⟩
    have hsome : (l.find? fun b => key b = k).isSome := by
      rw [List.find?_isSome]
      exact ⟨a, ha, decide_eq_true hk⟩
    obtain ⟨b, hb⟩ := Option.isSome_iff_exists.mp hsome
    have hkey : key b = k := of_decide_eq_true (List.find?_some hb :)
    rw [hb, List.inj_on_of_nodup_map hl (List.mem_of_find?_eq_some hb) ha (hkey.trans hk.symm)]

theorem find?_key_eq_none : l.find? (fun b => key b = k) = none ↔ ∀ b ∈ l, key b ≠ k := by
  rw [List.find?_eq_none]
  simp only [decide_eq_true_eq, ne_eq]

/-- What is left without the element of a key. -/
theorem mem_eraseP_key (hl : (l.map key).Nodup) :
    a ∈ l.eraseP (fun b => key b = k) ↔ a ∈ l ∧ key a ≠ k := by
  by_cases hk : key a = k
  · refine iff_of_false (fun ha => ?_) fun h => h.2 hk
    obtain ⟨first, before, after, hbefore, hfirst, hsplit, herase⟩ :=
      List.exists_of_eraseP (p := fun b => decide (key b = k)) (List.mem_of_mem_eraseP ha)
        (decide_eq_true hk)
    rw [hsplit, List.map_append, List.map_cons, List.nodup_append, List.nodup_cons] at hl
    rw [herase, List.mem_append] at ha
    rcases ha with ha | ha
    · exact hbefore a ha (decide_eq_true hk)
    · -- the first element with the key is another one
      refine hl.2.1.1 (List.mem_map.mpr ⟨a, ha, ?_⟩)
      rw [hk, of_decide_eq_true hfirst]
  · rw [List.mem_eraseP_of_neg (by rwa [decide_eq_true_eq]), and_iff_left hk]

theorem nodup_eraseP_key (hl : (l.map key).Nodup) :
    ((l.eraseP fun b => key b = k).map key).Nodup :=
  hl.sublist (List.eraseP_sublist.map key)

end Key

/-! ## Changes that are to be undone -/

/-- A key, its value for the time being, and the one it had. -/
structure Cover (κ ν : Type) where
  key : κ
  value : ν
  old : ν

/-- Every value is kept. -/
def Retains {κ ν : Type} (s s' : κ → Option ν) : Prop := ∀ k v, s k = some v → s' k = some v

section Cover

variable {κ ν : Type} [DecidableEq κ] {covers : List (Cover κ ν)} {c : Cover κ ν}
  {s s' : κ → Option ν} {k : κ}

/-- The map with all changes undone. -/
def under (covers : List (Cover κ ν)) (s : κ → Option ν) (k : κ) : Option ν :=
  ((covers.find? fun c => c.key = k).map Cover.old).or (s k)

theorem under_of_forall_ne (h : ∀ c ∈ covers, c.key ≠ k) : under covers s k = s k := by
  rw [under, find?_key_eq_none.mpr h]
  rfl

theorem under_of_mem (hnodup : (covers.map Cover.key).Nodup) (hc : c ∈ covers) :
    under covers s c.key = some c.old := by
  rw [under, (find?_key_iff hnodup).mpr ⟨hc, rfl⟩]
  rfl

/-- **A change** of a key that has not been changed. -/
theorem under_append (hnew : ∀ d ∈ covers, d.key ≠ c.key) (hold : s c.key = some c.old) :
    under (covers ++ [c]) (Function.update s c.key (some c.value)) = under covers s := by
  funext k
  rw [under, List.find?_append]
  by_cases hk : c.key = k
  · subst hk
    rw [find?_key_eq_none.mpr hnew, under_of_forall_ne hnew, hold, List.find?_singleton,
      decide_eq_true rfl]
    rfl
  · rw [List.find?_singleton, decide_eq_false hk, Function.update_of_ne (Ne.symm hk), under]
    simp

/-- **A change is undone.** -/
theorem under_eraseP (hnodup : (covers.map Cover.key).Nodup) (hc : c ∈ covers) :
    under (covers.eraseP fun d => d.key = c.key) (Function.update s c.key (some c.old)) =
      under covers s := by
  funext k
  by_cases hk : k = c.key
  · subst hk
    rw [under_of_mem hnodup hc, under_of_forall_ne fun d hd => ((mem_eraseP_key hnodup).mp hd).2,
      Function.update_self]
  · rw [under, under, Function.update_of_ne hk]
    have hfind : (covers.eraseP fun d => d.key = c.key).find? (fun d => d.key = k) =
        covers.find? fun d => d.key = k := by
      refine Option.ext fun d => ?_
      rw [find?_key_iff (nodup_eraseP_key hnodup), find?_key_iff hnodup, mem_eraseP_key hnodup]
      refine ⟨fun h => ⟨h.1.1, h.2⟩, fun h => ⟨⟨h.1, fun heq => hk ?_⟩, h.2⟩⟩
      rw [← h.2, heq]
    rw [hfind]

theorem under_retains (h : Retains s s') : Retains (under covers s) (under covers s') := by
  intro k v hv
  rw [under] at hv ⊢
  cases hfind : covers.find? fun c => c.key = k with
  | none =>
    rw [hfind] at hv
    exact h k v hv
  | some c =>
    rw [hfind] at hv
    exact hv

end Cover

end Rastapopoulos
