import Mathlib.Order.Interval.Set.Basic
import Mathlib.Data.List.Pairwise

/-!
# Lists of separated intervals

A list of half-open intervals of offsets stands for the set `offsets` of the numbers in them.
`Separated` lists are the normal form: every interval is non-empty and consecutive ones leave at
least one offset between them. The lemmas say how the set and the normal form behave under the
edits a sweep over such a list makes at its front: dropping, shrinking and splitting an interval.
-/

namespace HelpzLib

/-- The offsets in the intervals of the list. -/
def offsets (l : List (ℕ × ℕ)) : Set ℕ := {k | ∃ p ∈ l, p.1 ≤ k ∧ k < p.2}

/-- Non-empty intervals, in increasing order, with a gap between neighbours. -/
structure Separated (l : List (ℕ × ℕ)) : Prop where
  nonempty : ∀ p ∈ l, p.1 < p.2
  gap : l.Pairwise fun p q => p.2 < q.1

@[simp] theorem offsets_nil : offsets [] = ∅ := by
  ext k; simp [offsets]

theorem mem_offsets_cons {p : ℕ × ℕ} {l : List (ℕ × ℕ)} {k : ℕ} :
    k ∈ offsets (p :: l) ↔ (p.1 ≤ k ∧ k < p.2) ∨ k ∈ offsets l := by
  simp [offsets]

theorem separated_nil : Separated [] := ⟨by simp, List.Pairwise.nil⟩

theorem separated_cons {p : ℕ × ℕ} {l : List (ℕ × ℕ)} :
    Separated (p :: l) ↔ p.1 < p.2 ∧ (∀ q ∈ l, p.2 < q.1) ∧ Separated l := by
  constructor
  · rintro ⟨h1, h2⟩
    rw [List.pairwise_cons] at h2
    exact ⟨h1 p List.mem_cons_self, h2.1, fun q hq => h1 q (List.mem_cons_of_mem _ hq), h2.2⟩
  · rintro ⟨h1, h2, h3⟩
    refine ⟨fun q hq => ?_, List.pairwise_cons.mpr ⟨h2, h3.gap⟩⟩
    rcases List.mem_cons.mp hq with rfl | hq
    · exact h1
    · exact h3.nonempty q hq

/-- Every interval of the list starts after `b`, so all its offsets lie after `b`. -/
theorem lt_of_mem_offsets {b : ℕ} {l : List (ℕ × ℕ)} (h : ∀ q ∈ l, b < q.1) {k : ℕ}
    (hk : k ∈ offsets l) : b < k := by
  obtain ⟨q, hq, h1, _⟩ := hk
  exact lt_of_lt_of_le (h q hq) h1

end HelpzLib
