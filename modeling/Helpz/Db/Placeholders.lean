import Mathlib.Data.List.Basic
import Mathlib.Data.Int.Notation
import Mathlib.Tactic.Ring

/-!
# Placeholders

The texts of `?` that stand for the values of a statement. Both are made the same way: a string of `?` of the
right length, in which a pointer then writes the separators.

* `store`: a write through the pointer, which must be inside the string;
* `separate`: the loop of `Base::insert_query`; `questionList_eq`: what it writes;
* `walk`, `getQArray`: `Base::get_q_array`; `walkAt_columns` and `walkAt_rows` follow the pointer through a row and
  from row to row, and `getQArray_eq` says what the text is.
-/

namespace HelpzDb

/-- A `QString`, as the list of its characters. -/
abbrev Text : Type := List Char

/-- A write through a pointer into the text. Outside of it there is none. -/
def store (text : Text) (data : ℕ) (c : Char) : Option Text :=
  if data < text.length then some (text.set data c) else none

/-- `QString(size, '?')`. -/
def questions (size : ℕ) : Text := List.replicate size '?'

theorem store_question (pre : Text) (n : ℕ) (c : Char) :
    store (pre ++ questions (n + 1)) pre.length c = some (pre ++ c :: questions n) := by
  have hlt : pre.length < (pre ++ questions (n + 1)).length := by simp [questions]
  rw [store, if_pos hlt, List.set_append_right _ _ le_rfl, Nat.sub_self]
  rfl

theorem intercalate_replicate (sep x : Text) (n : ℕ) :
    sep.intercalate (List.replicate (n + 1) x) = x ++ (List.replicate n (sep ++ x)).flatten := by
  induction n with
  | zero => simp
  | succ n ih =>
      rw [List.replicate_succ, List.replicate_succ, List.intercalate_cons_cons, ← List.replicate_succ, ih,
        List.replicate_succ, List.flatten_cons]
      simp only [List.append_assoc]

/-! ## One row -/

/-- The loop of `Base::insert_query` that writes the commas. -/
def separate (qSize : ℕ) (text : Text) (i data : ℕ) : Option Text :=
  if i < qSize then
    if i % 2 ≠ 0 then (store text data ',').bind fun text => separate qSize text (i + 2) (data + 2)
    else separate qSize text (i + 2) data
  else some text
termination_by qSize - i

/-- The text of `n` placeholders in `Base::insert_query`. -/
def questionList (n : ℕ) : Option Text := separate (n + (n - 1)) (questions (n + (n - 1))) 1 1

theorem separate_replicate (pre : Text) (n : ℕ) (hpre : pre.length % 2 = 1) :
    separate (pre.length + 2 * n) (pre ++ questions (2 * n)) pre.length pre.length =
      some (pre ++ (List.replicate n [',', '?']).flatten) := by
  induction n generalizing pre with
  | zero =>
      rw [separate, if_neg (by omega)]
      rfl
  | succ n ih =>
      rw [separate, if_pos (by omega), if_pos (by omega), show 2 * (n + 1) = 2 * n + 1 + 1 by ring, store_question,
        Option.bind_some]
      have hlen : (pre ++ [',', '?']).length = pre.length + 2 := by simp
      have hnext := ih (pre ++ [',', '?']) (by omega)
      rw [hlen] at hnext
      rw [show pre.length + (2 * n + 1 + 1) = pre.length + 2 + 2 * n by ring, List.replicate_succ, List.flatten_cons,
        ← List.append_assoc, ← hnext]
      simp [questions, List.replicate_succ]

/-- **The loop of `insert_query` separates the placeholders with commas.** -/
theorem questionList_eq {n : ℕ} (h : 1 ≤ n) :
    questionList n = some ([','].intercalate (List.replicate n ['?'])) := by
  obtain ⟨k, rfl⟩ : ∃ k, n = k + 1 := ⟨n - 1, by omega⟩
  have hsep := separate_replicate ['?'] k rfl
  rw [intercalate_replicate]
  rw [show ['?'].length = 1 from rfl] at hsep
  rw [questionList, show k + 1 + (k + 1 - 1) = 1 + 2 * k by omega]
  rw [show questions (1 + 2 * k) = ['?'] ++ questions (2 * k) by
    rw [questions, Nat.add_comm, List.replicate_succ]; rfl]
  exact hsep

/-! ## Several rows -/

/-- A C++ `int`: arithmetic wraps at 32 bits. -/
def toInt (n : ℤ) : ℤ := n.bmod (2 ^ 32)

theorem toInt_size (f r : ℤ) : toInt (toInt (toInt (toInt (f * 2) + 2) * r) - 1) = toInt ((2 * f + 2) * r - 1) := by
  simp only [toInt, Int.bmod_add_bmod, Int.bmod_mul_bmod, Int.bmod_sub_bmod]
  rw [Int.mul_comm f 2]

/-- The loop of `Base::get_q_array`, with the pointers as positions. -/
def walk (fieldsCount : ℤ) (dataEnd : ℕ) (text : Text) (data : ℕ) (currRow : ℤ) : Option Text :=
  if data < dataEnd then
    if currRow ≥ fieldsCount then
      (store text data ')').bind fun text =>
        if data + 1 = dataEnd then some text
        else (store text (data + 1) ',').bind fun text =>
          -- `curr_row` is 0 again
          (store text (data + 2) '(').bind fun text => walk fieldsCount dataEnd text (data + 4) 1
    else
      (store text data (if currRow = 0 then '(' else ',')).bind fun text =>
        walk fieldsCount dataEnd text (data + 2) (currRow + 1)
  else some text
termination_by dataEnd - data

/-- `Base::get_q_array`; nothing if a write is outside of the string. -/
def getQArray (fieldsCount rowCount : ℤ) : Option Text :=
  let size := toInt (toInt (toInt (toInt (fieldsCount * 2) + 2) * rowCount) - 1)
  let qStr := questions size.toNat
  walk fieldsCount qStr.length qStr 0 0

/-- The loop when `pre` is written and `n` characters are left. -/
def walkAt (fields : ℕ) (pre : Text) (n currRow : ℕ) : Option Text :=
  walk fields (pre.length + n) (pre ++ questions n) pre.length currRow

variable {fields : ℕ}

theorem walkAt_column (pre : Text) (n : ℕ) {k : ℕ} (h : k < fields) :
    walkAt fields pre (n + 2) k = walkAt fields (pre ++ [if k = 0 then '(' else ',', '?']) n (k + 1) := by
  rw [walkAt, walk, if_pos (by omega), if_neg (by omega), store_question, Option.bind_some, walkAt]
  have hlen : (pre ++ [if k = 0 then '(' else ',', '?']).length = pre.length + 2 := by simp
  rw [hlen, show pre.length + (n + 2) = pre.length + 2 + n by ring]
  simp [questions, List.replicate_succ]

theorem walkAt_last (pre : Text) : walkAt fields pre 1 fields = some (pre ++ [')']) := by
  rw [walkAt, walk, if_pos (by omega), if_pos le_rfl, store_question, Option.bind_some, if_pos rfl]
  rfl

theorem walkAt_next (pre : Text) (n : ℕ) :
    walkAt fields pre (n + 4) fields = walkAt fields (pre ++ [')', ',', '(', '?']) n 1 := by
  rw [walkAt, walk, if_pos (by omega), if_pos le_rfl, store_question, Option.bind_some, if_neg (by omega)]
  have h1 := store_question (pre ++ [')']) (n + 2) ','
  have h2 := store_question (pre ++ [')', ',']) (n + 1) '('
  simp only [List.length_append, List.length_cons, List.length_nil, List.append_assoc, List.cons_append,
    List.nil_append, Nat.zero_add, Nat.reduceAdd] at h1 h2
  rw [h1, Option.bind_some, h2, Option.bind_some, walkAt]
  have hlen : (pre ++ [')', ',', '(', '?']).length = pre.length + 4 := by simp
  rw [hlen, show pre.length + (n + 4) = pre.length + 4 + n by ring]
  simp [questions, List.replicate_succ]

theorem walkAt_columns (pre : Text) (j n : ℕ) {k : ℕ} (hk : 1 ≤ k) (h : k + j = fields) :
    walkAt fields pre (2 * j + n) k = walkAt fields (pre ++ (List.replicate j [',', '?']).flatten) n fields := by
  induction j generalizing pre k with
  | zero =>
      obtain rfl : k = fields := h
      simp
  | succ j ih =>
      have hcolumn := walkAt_column pre (2 * j + n) (show k < fields by omega)
      rw [if_neg (by omega)] at hcolumn
      rw [show 2 * (j + 1) + n = 2 * j + n + 2 by ring, hcolumn, ih _ (by omega) (by omega), List.replicate_succ,
        List.flatten_cons, List.append_assoc]

/-- A row of placeholders. -/
def questionRow (fields : ℕ) : Text := '(' :: ([','].intercalate (List.replicate fields ['?']) ++ [')'])

theorem questionRow_succ (j : ℕ) :
    questionRow (j + 1) = ['(', '?'] ++ ((List.replicate j [',', '?']).flatten ++ [')']) := by
  rw [questionRow, intercalate_replicate]
  rfl

theorem walkAt_rows (pre : Text) (j m : ℕ) :
    walkAt (j + 1) pre (2 * j + (1 + m * (2 * j + 4))) 1 =
      some (pre ++ ((List.replicate j [',', '?']).flatten ++ [')']) ++
        (List.replicate m ([','] ++ questionRow (j + 1))).flatten) := by
  induction m generalizing pre with
  | zero =>
      rw [walkAt_columns pre j _ le_rfl (by omega), Nat.zero_mul, Nat.add_zero, walkAt_last]
      simp
  | succ m ih =>
      rw [walkAt_columns pre j _ le_rfl (by omega),
        show 1 + (m + 1) * (2 * j + 4) = 2 * j + (1 + m * (2 * j + 4)) + 4 by ring, walkAt_next, ih]
      simp [questionRow_succ, List.replicate_succ]

/-- **The text of `get_q_array`**: the rows, separated by commas, each of them the placeholders of its columns in
brackets. No write is outside of the string. -/
theorem getQArray_eq {fieldsCount rowCount : ℕ} (hf : 1 ≤ fieldsCount) (hr : 1 ≤ rowCount)
    (hsize : (2 * fieldsCount + 2) * rowCount - 1 < 2 ^ 31) :
    getQArray fieldsCount rowCount =
      some ([','].intercalate (List.replicate rowCount
        ('(' :: ([','].intercalate (List.replicate fieldsCount ['?']) ++ [')'])))) := by
  obtain ⟨j, rfl⟩ : ∃ j, fieldsCount = j + 1 := ⟨fieldsCount - 1, by omega⟩
  obtain ⟨m, rfl⟩ : ∃ m, rowCount = m + 1 := ⟨rowCount - 1, by omega⟩
  -- the first bracket and its placeholder, what is left of the first row, and the other rows
  have hlength : (2 * (j + 1) + 2) * (m + 1) - 1 = 2 * j + (1 + m * (2 * j + 4)) + 2 := by
    have hadd : (2 * (j + 1) + 2) * (m + 1) = 2 * j + (1 + m * (2 * j + 4)) + 2 + 1 := by ring
    omega
  have hint : toInt ((2 * ((j + 1 : ℕ) : ℤ) + 2) * ((m + 1 : ℕ) : ℤ) - 1) =
      ((2 * j + (1 + m * (2 * j + 4)) + 2 : ℕ) : ℤ) := by
    have hcast : (2 * ((j + 1 : ℕ) : ℤ) + 2) * ((m + 1 : ℕ) : ℤ) - 1 =
        ((2 * j + (1 + m * (2 * j + 4)) + 2 : ℕ) : ℤ) := by push_cast; ring
    rw [hcast, toInt]
    exact Int.bmod_eq_of_le (by omega) (by omega)
  have hwalk := walkAt_column [] (2 * j + (1 + m * (2 * j + 4))) (show 0 < j + 1 by omega)
  rw [if_pos rfl, List.nil_append, walkAt_rows] at hwalk
  rw [getQArray, toInt_size, hint, Int.toNat_natCast]
  rw [walkAt, List.length_nil, Nat.zero_add, List.nil_append] at hwalk
  rw [questions, List.length_replicate]
  refine hwalk.trans (congrArg some ?_)
  rw [intercalate_replicate, ← questionRow, questionRow_succ]

/-- Two rows of three columns. -/
theorem getQArray_twoRows : (1 ≤ 3 ∧ 1 ≤ 2 ∧ (2 * 3 + 2) * 2 - 1 < 2 ^ 31) ∧
    getQArray 3 2 = some "(?,?,?),(?,?,?)".toList :=
  ⟨by decide, (getQArray_eq (show 1 ≤ 3 by decide) (show 1 ≤ 2 by decide) (by decide)).trans (by decide)⟩

end HelpzDb
