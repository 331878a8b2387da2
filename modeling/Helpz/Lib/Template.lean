import Mathlib.Data.List.Basic

/-!
# Texts with numbered places

A place is `%` and a number of one or two digits, with or without an `L` between them. `arg` puts a text into all
places with the lowest number, as `QString::arg` does.

* `place`, `places`: the number of a place and its length, and the numbers of all places of a text;
* `fill`, `arg`; `arg_append`: what is in front of the first place stays.
-/

namespace HelpzLib

/-- The number at the front of a text, and how many characters it has. -/
def placeNumber : List Char → Option (ℕ × ℕ)
  | [] => none
  | [c] => if c.isDigit then some (c.toNat - '0'.toNat, 1) else none
  | c :: c' :: _ =>
      if c.isDigit then
        if c'.isDigit then some (10 * (c.toNat - '0'.toNat) + (c'.toNat - '0'.toNat), 2)
        else some (c.toNat - '0'.toNat, 1)
      else none

/-- What follows `%`, if it is a place. -/
def place : List Char → Option (ℕ × ℕ)
  | 'L' :: l => (placeNumber l).map fun p => (p.1, p.2 + 1)
  | l => placeNumber l

/-- The numbers of the places. -/
def places : List Char → List ℕ
  | [] => []
  | c :: l => if c = '%' then ((place l).map Prod.fst).toList ++ places l else places l

/-- The text with `a` in the places with the number `n`; the first `skip` characters belong to a place. -/
def fill (n : ℕ) (a : List Char) : ℕ → List Char → List Char
  | _, [] => []
  | skip + 1, _ :: l => fill n a skip l
  | 0, c :: l =>
      match if c = '%' then place l else none with
      | some (m, len) => if m = n then a ++ fill n a len l else c :: fill n a 0 l
      | none => c :: fill n a 0 l

/-- `QString::arg`. -/
def arg (text a : List Char) : List Char :=
  match (places text).min? with
  | some n => fill n a 0 text
  | none => text

/-- A character that does not go on with a place. -/
def EndsPlace (c : Char) : Prop := c.isDigit = false ∧ c ≠ 'L'

variable {pre l a : List Char} {n : ℕ} {c : Char}

theorem placeNumber_cons (hc : c.isDigit = false) (l : List Char) : placeNumber (c :: l) = none := by
  cases l <;> simp [placeNumber, hc]

theorem placeNumber_append (h : placeNumber pre = none) (hc : c.isDigit = false) (l : List Char) :
    placeNumber (pre ++ c :: l) = none := by
  cases pre with
  | nil => exact placeNumber_cons hc l
  | cons d pre =>
      refine placeNumber_cons ?_ _
      cases hd : d.isDigit with
      | false => rfl
      | true =>
          cases pre with
          | nil => simp [placeNumber, hd] at h
          | cons d' pre =>
              simp only [placeNumber, hd, if_true] at h
              split_ifs at h

theorem place_of_ne (hc : c ≠ 'L') (l : List Char) : place (c :: l) = placeNumber (c :: l) := by
  unfold place
  split
  · rename_i he
    exact absurd (List.cons.inj he).1 hc
  · rfl

theorem place_append (h : place pre = none) (hc : EndsPlace c) (l : List Char) : place (pre ++ c :: l) = none := by
  cases pre with
  | nil =>
      rw [List.nil_append, place_of_ne hc.2]
      exact placeNumber_cons hc.1 l
  | cons d pre =>
      by_cases hd : d = 'L'
      · subst hd
        rw [place, Option.map_eq_none_iff] at h
        rw [List.cons_append, place, Option.map_eq_none_iff]
        exact placeNumber_append h hc.1 l
      · rw [place_of_ne hd] at h
        rw [List.cons_append, place_of_ne hd, ← List.cons_append]
        exact placeNumber_append h hc.1 l

theorem places_cons_eq_nil : places (c :: l) = [] ↔ (c = '%' → place l = none) ∧ places l = [] := by
  rw [places]
  split_ifs with h
  · simp [h]
  · simp [h]

theorem places_append (h : places pre = []) (hc : EndsPlace c) (l : List Char) :
    places (pre ++ c :: l) = places (c :: l) := by
  induction pre with
  | nil => rfl
  | cons d pre ih =>
      obtain ⟨hd, hpre⟩ := places_cons_eq_nil.mp h
      rw [List.cons_append, places, ih hpre]
      split_ifs with he
      · rw [place_append (hd he) hc]
        rfl
      · rfl

theorem fill_append (h : places pre = []) (hc : EndsPlace c) (l : List Char) :
    fill n a 0 (pre ++ c :: l) = pre ++ fill n a 0 (c :: l) := by
  induction pre with
  | nil => rfl
  | cons d pre ih =>
      obtain ⟨hd, hpre⟩ := places_cons_eq_nil.mp h
      have hnone : (if d = '%' then place (pre ++ c :: l) else none) = none := by
        split_ifs with he
        · exact place_append (hd he) hc l
        · rfl
      rw [List.cons_append, fill, hnone, ih hpre, List.cons_append]

theorem arg_append (h : places pre = []) (hc : EndsPlace c) (hmin : (places (c :: l)).min? = some n) (a : List Char) :
    arg (pre ++ c :: l) a = pre ++ fill n a 0 (c :: l) := by
  rw [arg, places_append h hc, hmin]
  exact fill_append h hc l

end HelpzLib
