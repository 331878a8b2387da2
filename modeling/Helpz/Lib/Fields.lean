import Mathlib.Data.List.Basic

/-!
# Fields of a record

The fields of a record are read and set by their numbers.

* `Fields`: a getter and a setter; `Fields.Lawful`: a field that is set to a value that fits is read as this value, and
  the others stay;
* `Fields.fill`: the first fields are set from a row; `get_fill`: they are read as the row.
-/

namespace HelpzLib

/-- A record's fields. -/
structure Fields (O W : Type) where
  count : ℕ
  get : O → ℕ → W
  set : O → ℕ → W → O

namespace Fields

variable {O W : Type} {f : Fields O W} {Fits : ℕ → W → Prop}

/-- A value that fits is kept, and setting it changes no other field. -/
structure Lawful (f : Fields O W) (Fits : ℕ → W → Prop) : Prop where
  get_set {o : O} {i : ℕ} {w : W} (hi : i < f.count) (hw : Fits i w) : f.get (f.set o i w) i = w
  get_set_of_ne {o : O} {i j : ℕ} {w : W} (hi : i < f.count) (hne : i ≠ j) : f.get (f.set o i w) j = f.get o j

/-- The first `n` fields are set, one after the other. -/
def fill (f : Fields O W) (row : ℕ → W) (n : ℕ) (o : O) : O :=
  (List.range n).foldl (fun o i => f.set o i (row i)) o

theorem fill_succ (row : ℕ → W) (n : ℕ) (o : O) : f.fill row (n + 1) o = f.set (f.fill row n o) n (row n) := by
  rw [fill, List.range_succ, List.foldl_append]
  rfl

/-- **The fields that were set are read as the row, and the others as before.** -/
theorem Lawful.get_fill (h : f.Lawful Fits) {row : ℕ → W} {n : ℕ} (hn : n ≤ f.count) (hrow : ∀ i < n, Fits i (row i))
    (o : O) (j : ℕ) : f.get (f.fill row n o) j = if j < n then row j else f.get o j := by
  induction n with
  | zero => rfl
  | succ n ih =>
      rw [fill_succ]
      by_cases hj : n = j
      · subst hj
        rw [h.get_set hn (hrow n n.lt_succ_self), if_pos n.lt_succ_self]
      · rw [h.get_set_of_ne hn hj, ih (Nat.le_of_succ_le hn) fun i hi => hrow i (Nat.lt_succ_of_lt hi)]
        refine if_congr ?_ rfl rfl
        omega

end Fields

end HelpzLib
