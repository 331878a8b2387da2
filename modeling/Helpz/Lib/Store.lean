import Mathlib.Data.List.Basic
import Mathlib.Order.Interval.Set.Basic
import Mathlib.Algebra.Order.Group.Nat

/-!
# A random-access store

`writeAt z d pos xs` writes `xs` at offset `pos` of the store `d`, padding with `z` when `pos` is
past the end, as a seek and a write on a random-access device do. `getElem?_writeAt` says what
every offset holds afterwards; `Agrees` is the statement that a store holds the content of a
reference list on a set of offsets, and `agrees_writeAt` extends it by a written slice.
-/

namespace HelpzLib

variable {α : Type}

/-- Write `xs` at offset `pos`, padding with `z`. -/
def writeAt (z : α) (d : List α) (pos : ℕ) (xs : List α) : List α :=
  (d.take pos ++ List.replicate (pos - d.length) z) ++ xs ++ d.drop (pos + xs.length)

theorem length_writeAt (z : α) (d : List α) (pos : ℕ) (xs : List α) :
    (writeAt z d pos xs).length = max d.length (pos + xs.length) := by
  simp only [writeAt, List.length_append, List.length_take, List.length_replicate, List.length_drop]
  omega

theorem getElem?_writeAt_inside (z : α) (d : List α) (pos : ℕ) (xs : List α) {k : ℕ}
    (h1 : pos ≤ k) (h2 : k < pos + xs.length) : (writeAt z d pos xs)[k]? = xs[k - pos]? := by
  have hl : (d.take pos ++ List.replicate (pos - d.length) z).length = pos := by
    simp only [List.length_append, List.length_take, List.length_replicate]; omega
  rw [writeAt, List.getElem?_append_left (by rw [List.length_append, hl]; exact h2),
    List.getElem?_append_right (by omega), hl]

theorem getElem?_writeAt_outside (z : α) (d : List α) (pos : ℕ) (xs : List α) {k : ℕ}
    (hd : k < d.length) (h : k < pos ∨ pos + xs.length ≤ k) : (writeAt z d pos xs)[k]? = d[k]? := by
  have hl : (d.take pos ++ List.replicate (pos - d.length) z).length = pos := by
    simp only [List.length_append, List.length_take, List.length_replicate]; omega
  rcases h with h | h
  · rw [writeAt, List.getElem?_append_left (by rw [List.length_append, hl]; omega),
      List.getElem?_append_left (by omega),
      List.getElem?_append_left (by rw [List.length_take]; omega), List.getElem?_take, if_pos h]
  · rw [writeAt, List.getElem?_append_right (by rw [List.length_append, hl]; exact h),
      List.getElem?_drop, List.length_append, hl]
    congr 1
    omega

/-- The store `d` holds the content of `ref` at every offset of `S`, and is no longer than it. -/
structure Agrees (ref d : List α) (S : Set ℕ) : Prop where
  length_le : d.length ≤ ref.length
  eq_on : ∀ k ∈ S, d[k]? = ref[k]?

/-- **Writing a slice of the reference extends the agreement to the slice.** -/
theorem agrees_writeAt {ref d : List α} {S : Set ℕ} (h : Agrees ref d S)
    (hS : ∀ k ∈ S, k < ref.length) (z : α) (pos n : ℕ) (hn : pos + n ≤ ref.length) :
    Agrees ref (writeAt z d pos ((ref.drop pos).take n)) (S ∪ Set.Ico pos (pos + n)) := by
  have hlen : ((ref.drop pos).take n).length = n := by
    rw [List.length_take, List.length_drop]; omega
  constructor
  · rw [length_writeAt, hlen]
    exact max_le h.length_le hn
  · intro k hk
    by_cases hin : pos ≤ k ∧ k < pos + n
    · rw [getElem?_writeAt_inside _ _ _ _ hin.1 (by rw [hlen]; exact hin.2), List.getElem?_take,
        if_pos (by omega), List.getElem?_drop]
      congr 1
      omega
    · rcases hk with hk | hk
      · have hd : k < d.length := by
          by_contra hlt
          have hnone := h.eq_on k hk
          rw [List.getElem?_eq_none (by omega), List.getElem?_eq_getElem (hS k hk)] at hnone
          cases hnone
        rw [getElem?_writeAt_outside _ _ _ _ hd (by rw [hlen]; omega)]
        exact h.eq_on k hk
      · exact absurd hk hin

/-- **A store that agrees everywhere is the reference.** -/
theorem Agrees.eq {ref d : List α} {S : Set ℕ} (h : Agrees ref d S)
    (hS : ∀ k < ref.length, k ∈ S) : d = ref := by
  apply List.ext_getElem?
  intro k
  by_cases hk : k < ref.length
  · exact h.eq_on k (hS k hk)
  · have := h.length_le
    rw [List.getElem?_eq_none (by omega), List.getElem?_eq_none (by omega)]

end HelpzLib
