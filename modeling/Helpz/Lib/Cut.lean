import Mathlib.Data.List.Basic
import Mathlib.Algebra.Order.Group.Nat

/-!
# Cutting a concatenation

A prefix of a concatenation of non-empty lists is some of them in full and a proper initial part of
the next (`exists_cut`).
-/

namespace HelpzLib

variable {α : Type}

/-- `t` is a proper initial part of the first list, or empty when there is none. -/
def StartsIn (t : List α) : List (List α) → Prop
  | [] => t = []
  | l :: _ => ∃ u, u ≠ [] ∧ l = t ++ u

theorem startsIn_nil {ls : List (List α)} (hne : ∀ l ∈ ls, l ≠ []) : StartsIn [] ls := by
  cases ls with
  | nil => rfl
  | cons l ls => exact ⟨l, hne l List.mem_cons_self, rfl⟩

theorem StartsIn.eq_nil {t : List α} {ls : List (List α)} (h : StartsIn t ls) (he : t = ls.flatten) :
    t = [] ∧ ls = [] := by
  cases ls with
  | nil => exact ⟨h, rfl⟩
  | cons l ls =>
      obtain ⟨u, hu, rfl⟩ := h
      have := congrArg List.length he
      have hpos := List.length_pos_iff.mpr hu
      simp only [List.flatten_cons, List.length_append] at this
      omega

/-- **A prefix of a concatenation** is some of the lists and a proper initial part of the next. -/
theorem exists_cut {ls : List (List α)} (hne : ∀ l ∈ ls, l ≠ []) {x y : List α}
    (h : x ++ y = ls.flatten) :
    ∃ a b t, ls = a ++ b ∧ x = a.flatten ++ t ∧ t ++ y = b.flatten ∧ StartsIn t b := by
  induction ls generalizing x with
  | nil =>
      obtain ⟨rfl, rfl⟩ := List.append_eq_nil_iff.mp h
      exact ⟨[], [], [], rfl, rfl, rfl, rfl⟩
  | cons l ls ih =>
      rw [List.flatten_cons] at h
      rcases List.append_eq_append_iff.mp h with ⟨u, hl, hy⟩ | ⟨u, hx, hls⟩
      · -- the cut falls into `l`, or right behind it
        by_cases hu : u = []
        · subst hu
          rw [List.append_nil] at hl
          refine ⟨[l], ls, [], rfl, by simp [hl], by simpa using hy,
            startsIn_nil fun l' h' => hne l' (List.mem_cons_of_mem _ h')⟩
        · exact ⟨[], l :: ls, x, rfl, rfl, by rw [List.flatten_cons, hl, hy, List.append_assoc],
            u, hu, hl⟩
      · obtain ⟨a, b, t, rfl, rfl, ht, hs⟩ := ih (fun l' h' => hne l' (List.mem_cons_of_mem _ h')) hls.symm
        exact ⟨l :: a, b, t, rfl, by rw [hx, List.flatten_cons, List.append_assoc], ht, hs⟩

end HelpzLib
