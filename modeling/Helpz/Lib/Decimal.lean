import Mathlib.Data.List.Basic
import Mathlib.Data.Int.Notation

/-!
# Decimal numbers in text

* `decimal`, `readDecimal`: an integer as text and back (`readDecimal_decimal`);
* `commaList`: texts that end in a comma each, one after the other, as the joined list and a last comma;
* `readDecimals`: a list of numbers, separated by commas (`readDecimals_intercalate`).
-/

namespace HelpzLib

/-- The decimal text of an integer. -/
def decimal : ℤ → List Char
  | .ofNat n => Nat.toDigits 10 n
  | .negSucc n => '-' :: Nat.toDigits 10 (n + 1)

/-- A non-empty sequence of digits. -/
def readDigits (l : List Char) : Option ℕ :=
  if l ≠ [] ∧ l.all Char.isDigit = true then some (Nat.ofDigitChars 10 l 0) else none

/-- An integer, with or without a minus. -/
def readDecimal : List Char → Option ℤ
  | '-' :: l => (readDigits l).map fun n => -(n : ℤ)
  | l => (readDigits l).map fun n => (n : ℤ)

theorem decimal_ne_nil (n : ℤ) : decimal n ≠ [] := by
  cases n with
  | ofNat n => exact Nat.toDigits_ne_nil
  | negSucc n => exact List.cons_ne_nil _ _

theorem isDigit_of_mem {n : ℕ} {c : Char} (h : c ∈ Nat.toDigits 10 n) : c.isDigit = true :=
  Nat.isDigit_of_mem_toDigits (by decide) (by decide) h

theorem readDigits_toDigits (n : ℕ) : readDigits (Nat.toDigits 10 n) = some n := by
  have hall : (Nat.toDigits 10 n).all Char.isDigit = true := List.all_eq_true.mpr fun c hc => isDigit_of_mem hc
  rw [readDigits, if_pos ⟨Nat.toDigits_ne_nil, hall⟩, Nat.ofDigitChars_ten_toDigits]

/-- **The text of an integer is read back.** -/
theorem readDecimal_decimal (n : ℤ) : readDecimal (decimal n) = some n := by
  cases n with
  | negSucc n =>
      rw [decimal, readDecimal, readDigits_toDigits]
      rfl
  | ofNat n =>
      rw [decimal]
      have hminus : ∀ l, Nat.toDigits 10 n ≠ '-' :: l := by
        intro l he
        have := isDigit_of_mem (he ▸ List.mem_cons_self : '-' ∈ Nat.toDigits 10 n)
        revert this
        decide
      unfold readDecimal
      split
      · exact absurd ‹_› (hminus _)
      · rw [readDigits_toDigits]
        rfl

theorem comma_notMem_decimal (n : ℤ) : ',' ∉ decimal n := by
  have hdigits : ∀ k, ',' ∉ Nat.toDigits 10 k := by
    intro k hc
    have := isDigit_of_mem hc
    revert this
    decide
  cases n with
  | ofNat n => exact hdigits n
  | negSucc n =>
      rw [decimal, List.mem_cons, not_or]
      exact ⟨by decide, hdigits _⟩

/-- Numbers with a comma after each. -/
def commaList (ids : List ℤ) : List Char := (ids.map fun id => decimal id ++ [',']).flatten

theorem commaList_cons (id : ℤ) (l : List ℤ) : commaList (id :: l) = decimal id ++ [','] ++ commaList l := rfl

theorem commaList_append (l l' : List ℤ) : commaList (l ++ l') = commaList l ++ commaList l' := by
  rw [commaList, List.map_append, List.flatten_append]
  rfl

theorem commaList_eq {ids : List ℤ} (h : ids ≠ []) :
    commaList ids = [','].intercalate (ids.map decimal) ++ [','] := by
  induction ids with
  | nil => exact absurd rfl h
  | cons id ids ih =>
      cases ids with
      | nil => simp [commaList]
      | cons id' ids =>
          rw [commaList_cons, ih (by simp), List.map_cons, List.map_cons, List.map_cons, List.intercalate_cons_cons]
          simp only [List.append_assoc]

/-- Numbers, separated by commas. -/
def readDecimals (l : List Char) : Option (List ℤ) := (l.splitOn ',').mapM readDecimal

/-- **A list of numbers is read back.** -/
theorem readDecimals_intercalate {ids : List ℤ} (h : ids ≠ []) :
    readDecimals ([','].intercalate (ids.map decimal)) = some ids := by
  have hsplit : ([','].intercalate (ids.map decimal)).splitOn ',' = ids.map decimal := by
    refine List.splitOn_intercalate _ (fun l hl => ?_) (by simpa using h)
    obtain ⟨id, _, rfl⟩ := List.mem_map.mp hl
    exact comma_notMem_decimal id
  rw [readDecimals, hsplit]
  clear h hsplit
  induction ids with
  | nil => rfl
  | cons id ids ih => rw [List.map_cons, List.mapM_cons, readDecimal_decimal, ih]; rfl

end HelpzLib
