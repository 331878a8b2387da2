import Mathlib.Data.List.Basic

/-!
# Reading a text from the front

* `strip`: a fixed text;
* `readSeparated`: items with a separator between them, which is what `List.intercalate` writes
  (`readSeparated_intercalate`).
-/

namespace HelpzLib

variable {α β : Type}

/-- What follows `pre`. -/
def strip (pre l : List Char) : Option (List Char) := if pre <+: l then some (l.drop pre.length) else none

theorem strip_append (pre l : List Char) : strip pre (pre ++ l) = some l := by
  rw [strip, if_pos (List.prefix_append pre l), List.drop_left' rfl]

theorem strip_cons (c : Char) (l : List Char) : strip [c] (c :: l) = some l := strip_append [c] l

/-- Items, at most `fuel` of them, and what follows the last one. -/
def readSeparated (item : List Char → Option (α × List Char)) (sep : Char) :
    ℕ → List Char → Option (List α × List Char)
  | 0, _ => none
  | fuel + 1, l => do
      let (x, l) ← item l
      match l with
      | [] => some ([x], [])
      | c :: l' =>
          if c = sep then
            let (xs, r) ← readSeparated item sep fuel l'
            some (x :: xs, r)
          else some ([x], l)

variable {item : List Char → Option (α × List Char)} {sep : Char} {write : β → List Char} {value : β → α}

/-- **Written items are read back**, if each of them is, in front of the separator and of what follows. -/
theorem readSeparated_intercalate {xs : List β} (hne : xs ≠ []) {rest : List Char} (hrest : rest.head? ≠ some sep)
    (hsep : ∀ x ∈ xs, ∀ l, item (write x ++ sep :: l) = some (value x, sep :: l))
    (hlast : ∀ x ∈ xs, item (write x ++ rest) = some (value x, rest)) {fuel : ℕ} (hfuel : xs.length ≤ fuel) :
    readSeparated item sep fuel ([sep].intercalate (xs.map write) ++ rest) = some (xs.map value, rest) := by
  induction xs generalizing fuel with
  | nil => exact absurd rfl hne
  | cons x xs ih =>
      obtain ⟨fuel, rfl⟩ : ∃ k, fuel = k + 1 := ⟨fuel - 1, by simp at hfuel; omega⟩
      rw [List.length_cons] at hfuel
      cases xs with
      | nil =>
          have hone : [sep].intercalate ([x].map write) ++ rest = write x ++ rest := by simp
          rw [hone, readSeparated, hlast x (List.mem_singleton_self x)]
          cases rest with
          | nil => rfl
          | cons c l =>
              have hc : c ≠ sep := fun he => hrest (congrArg some he)
              simp [hc]
      | cons y ys =>
          have hmem : ∀ z ∈ y :: ys, z ∈ x :: y :: ys := fun z hz => List.mem_cons_of_mem x hz
          have htail := ih (List.cons_ne_nil y ys) (fun z hz => hsep z (hmem z hz)) (fun z hz => hlast z (hmem z hz))
            (show (y :: ys).length ≤ fuel by omega)
          have hcons : [sep].intercalate ((x :: y :: ys).map write) ++ rest =
              write x ++ sep :: ([sep].intercalate ((y :: ys).map write) ++ rest) := by
            rw [List.map_cons, List.map_cons, List.intercalate_cons_cons]
            simp
          rw [hcons, readSeparated, hsep x List.mem_cons_self]
          simp only [Option.bind_eq_bind, Option.bind_some, if_true]
          rw [htail]
          rfl

theorem length_le_intercalate (sep : Char) (xs : List (List Char)) :
    xs.length ≤ ([sep].intercalate xs).length + 1 := by
  induction xs with
  | nil => simp
  | cons x xs ih =>
      cases xs with
      | nil => simp
      | cons y ys =>
          rw [List.intercalate_cons_cons]
          simp only [List.length_append, List.length_cons, List.length_nil] at ih ⊢
          omega

theorem readSeparated_append (item : List Char → Option (α × List Char)) (sep : Char) (write : β → List Char)
    (value : β → α) {xs : List β} (hne : xs ≠ []) (rest : List Char) (hrest : rest.head? ≠ some sep)
    (hsep : ∀ x ∈ xs, ∀ l, item (write x ++ sep :: l) = some (value x, sep :: l))
    (hlast : ∀ x ∈ xs, item (write x ++ rest) = some (value x, rest)) :
    readSeparated item sep (([sep].intercalate (xs.map write) ++ rest).length + 1)
      ([sep].intercalate (xs.map write) ++ rest) = some (xs.map value, rest) := by
  refine readSeparated_intercalate hne hrest hsep hlast ?_
  have hlen := length_le_intercalate sep (xs.map write)
  rw [List.length_map] at hlen
  rw [List.length_append]
  omega

end HelpzLib
