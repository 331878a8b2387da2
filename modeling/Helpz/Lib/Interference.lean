import Mathlib.Data.List.Basic

/-!
# Several actors over one state

A run is a list of calls, each made by one actor. An actor is not interfered with if what it sees after a
run is what it sees after its own calls alone. The unwinding rule derives this from single calls: a relation
between the state of the whole run and that of the own run is kept by each own call on both sides, and by
each call of another actor on the side of the whole run.
-/

namespace HelpzLib

variable {σ ι α : Type} [DecidableEq ι]

/-- The calls of one actor. -/
def own (x : ι) (calls : List (ι × α)) : List (ι × α) := calls.filter fun c => decide (c.1 = x)

/-- **Unwinding rule.** -/
theorem foldl_own {step : σ → ι × α → σ} {R : σ → σ → Prop} {x : ι}
    (hown : ∀ s t a, R s t → R (step s (x, a)) (step t (x, a)))
    (hother : ∀ s t y a, y ≠ x → R s t → R (step s (y, a)) t) {s t : σ} (h : R s t) (calls : List (ι × α)) :
    R (calls.foldl step s) ((own x calls).foldl step t) := by
  induction calls generalizing s t with
  | nil => exact h
  | cons c calls ih =>
      obtain ⟨y, a⟩ := c
      by_cases hy : y = x
      · subst hy
        rw [own, List.filter_cons_of_pos (by simp)]
        exact ih (hown s t a h)
      · rw [own, List.filter_cons_of_neg (by simpa using hy)]
        exact ih (hother s t y a hy h)

end HelpzLib
