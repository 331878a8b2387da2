import Helpz.Lib.Separated
import Helpz.Lib.Template
import Helpz.Db.DeleteRow
import Helpz.Db.Placeholders
import Mathlib.Data.List.Nodup

/-!
# Values and columns

`Base::insert_query` and `Base::update_query` write the columns, and `Base::exec` binds the values in their order.

* `escapeFields`, `insertQuery`, `updateQuery`: the texts of the statements;
* `Driver`: how the driver writes the names of columns, and how names are read in a statement;
* `prepareInsert`, `prepareUpdate`, `execPrepared`: what is read in a text, and the column that each value goes to;
* `insertText`, `updateText`: the texts, with the places filled in; `statements_assign`: each value goes to one of the
  requested columns, in the order of the table.
-/

namespace HelpzDb

open HelpzLib

/-- `Table`, with its short name. -/
structure AliasTable extends Table where
  shortName : String

/-- `operator !`. -/
def AliasTable.isNull (table : AliasTable) : Bool := table.name = "" || table.fieldNames = []

/-- The name of a column. -/
def AliasTable.field (table : AliasTable) (i : ℕ) : Text := (table.fieldNames.getD i "").toList

/-- The driver of the database: how it writes the name of a column, and the names that are read at the front of a
text. -/
structure Driver where
  escapeIdentifier : Text → Text
  readTable : Text → Option (Text × Text)
  readField : Text → Option (Text × Text)

/-- `escape_fields`. -/
def escapeFields (d : Driver) (table : AliasTable) (fieldIds : List ℕ) (useShortName : Bool) : List Text :=
  let tableShortName : Text :=
    if useShortName && table.shortName ≠ "" then table.shortName.toList ++ ['.'] else []
  ((List.range table.fieldNames.length).filter fun i => fieldIds.isEmpty || fieldIds.contains i).map fun i =>
    d.escapeIdentifier (tableShortName ++ table.field i)

/-- `QStringList::join(',')`. -/
def join (l : List Text) : Text := [','].intercalate l

/-- `insert_query`; nothing if a write is outside of the string. -/
def insertQuery (d : Driver) (table : AliasTable) (valuesSize : ℕ) (suffix : Text) (fieldIds : List ℕ)
    (method : Text) : Option Text :=
  let escapedFields := escapeFields d table fieldIds false
  if table.isNull || escapedFields.isEmpty || suffix.count '?' + escapedFields.length ≠ valuesSize then some []
  else (questionList escapedFields.length).map fun qStr =>
    let sql := arg (arg (arg (method ++ " INTO %1(%2) VALUES(%3)".toList) table.name.toList) (join escapedFields)) qStr
    let sql := if suffix ≠ [] then sql ++ ' ' :: suffix else sql
    sql ++ [';']

/-- `update_query`. -/
def updateQuery (d : Driver) (table : AliasTable) (valuesSize : ℕ) (cond : Text) (fieldIds : List ℕ) : Text :=
  let escapedFields := escapeFields d table fieldIds false
  if table.isNull || escapedFields.isEmpty || cond.count '?' + escapedFields.length ≠ valuesSize then []
  else
    let params := escapedFields.map fun f => f ++ "=?".toList
    let sql := arg (arg "UPDATE %1 SET %2".toList table.name.toList) (join params)
    if cond ≠ [] then sql ++ " WHERE ".toList ++ cond else sql

/-! ## Executing a statement -/

/-- What is read in a statement: its table, the columns that a placeholder stands for, and what follows. -/
structure Prepared where
  table : Text
  columns : List Text
  rest : Text
  deriving DecidableEq, Repr

/-- A placeholder. -/
def readMark : Text → Option (Unit × Text)
  | '?' :: l => some ((), l)
  | _ => none

/-- `method INTO table(column, ..., column) VALUES(?, ..., ?)`. -/
def Driver.prepareInsert (d : Driver) (method sql : Text) : Option Prepared := do
  let l ← strip (method ++ " INTO ".toList) sql
  let (table, l) ← d.readTable l
  let l ← strip ['('] l
  let (columns, l) ← readSeparated d.readField ',' (l.length + 1) l
  let l ← strip ") VALUES(".toList l
  let (marks, l) ← readSeparated readMark ',' (l.length + 1) l
  let l ← strip [')'] l
  if columns.length = marks.length then some ⟨table, columns, l⟩ else none

/-- `column=?`. -/
def Driver.readAssignment (d : Driver) (l : Text) : Option (Text × Text) := do
  let (column, l) ← d.readField l
  let l ← strip "=?".toList l
  some (column, l)

/-- `UPDATE table SET column=?, ..., column=?`. -/
def Driver.prepareUpdate (d : Driver) (sql : Text) : Option Prepared := do
  let l ← strip "UPDATE ".toList sql
  let (table, l) ← d.readTable l
  let l ← strip " SET ".toList l
  let (columns, l) ← readSeparated d.readAssignment ',' (l.length + 1) l
  some ⟨table, columns, l⟩

variable {V : Type}

/-- `exec`: the values are bound in their order. The result is the table, and the columns with their values. -/
def execPrepared (prepare : Text → Option Prepared) (sql : Text) (values : List V) : Option (Text × List (Text × V)) :=
  if sql = [] then none
  else (prepare sql).bind fun p =>
    if p.columns.length + p.rest.count '?' = values.length then some (p.table, p.columns.zip values) else none

/-! ## The requested columns -/

/-- The requested columns, in the order of the table. -/
def inTableOrder (table : AliasTable) (fieldIds : List ℕ) : List ℕ :=
  if fieldIds = [] then List.range table.fieldNames.length else fieldIds.mergeSort (· ≤ ·)

/-- The names in the statements are read as they are meant. -/
structure Driver.Reads (d : Driver) (table : AliasTable) : Prop where
  name : ∀ c ∈ ['(', ' '], ∀ l, d.readTable (table.name.toList ++ c :: l) = some (table.name.toList, c :: l)
  field : ∀ f : String, f ∈ table.fieldNames → ∀ c ∈ [',', ')', '='], ∀ l,
    d.readField (d.escapeIdentifier f.toList ++ c :: l) = some (f.toList, c :: l)

variable {d : Driver} {table : AliasTable} {fieldIds : List ℕ}

theorem mem_inTableOrder (hvalid : ∀ i ∈ fieldIds, i < table.fieldNames.length) {i : ℕ}
    (h : i ∈ inTableOrder table fieldIds) : i < table.fieldNames.length := by
  unfold inTableOrder at h
  split_ifs at h
  · exact List.mem_range.mp h
  · exact hvalid i (List.mem_mergeSort.mp h)

/-- **The columns that are filtered are the requested ones, in the order of the table.** -/
theorem filter_eq_inTableOrder (hnodup : fieldIds.Nodup) (hvalid : ∀ i ∈ fieldIds, i < table.fieldNames.length) :
    ((List.range table.fieldNames.length).filter fun i => fieldIds.isEmpty || fieldIds.contains i) =
      inTableOrder table fieldIds := by
  rw [inTableOrder]
  split_ifs with hempty
  · simp [hempty]
  · have hperm : ((List.range table.fieldNames.length).filter fun i => fieldIds.isEmpty || fieldIds.contains i).Perm
        (fieldIds.mergeSort (· ≤ ·)) := by
      refine (List.perm_ext_iff_of_nodup (List.nodup_range.filter _) ?_).mpr fun i => ?_
      · exact (List.mergeSort_perm _ _).nodup_iff.mpr hnodup
      · simp only [List.mem_filter, List.mem_range, List.mem_mergeSort, List.isEmpty_iff, hempty, Bool.or_eq_true,
          List.contains_iff_mem, false_or]
        exact ⟨fun h => h.2, fun h => ⟨hvalid i h, h⟩⟩
    refine hperm.eq_of_pairwise (fun a b _ _ (h : a ≤ b) (h' : b ≤ a) => Nat.le_antisymm h h') ?_ ?_
    · exact List.pairwise_le_range.filter _
    · have hsorted : (fieldIds.mergeSort (· ≤ ·)).Pairwise fun a b => decide (a ≤ b) = true := List.pairwise_mergeSort
        (fun a b c hab hbc => by simp at *; omega) (fun a b => by simp; omega) fieldIds
      exact hsorted.imp fun h => by simpa using h

theorem escapeFields_eq (hnodup : fieldIds.Nodup) (hvalid : ∀ i ∈ fieldIds, i < table.fieldNames.length) :
    escapeFields d table fieldIds false =
      (inTableOrder table fieldIds).map fun i => d.escapeIdentifier (table.field i) := by
  rw [escapeFields, filter_eq_inTableOrder hnodup hvalid]
  rfl

theorem field_mem {i : ℕ} (h : i < table.fieldNames.length) :
    ∃ f : String, f ∈ table.fieldNames ∧ table.field i = f.toList := by
  refine ⟨table.fieldNames[i], List.getElem_mem h, ?_⟩
  rw [AliasTable.field, List.getD_eq_getElem?_getD, List.getElem?_eq_getElem h, Option.getD_some]

theorem readField_column (hreads : d.Reads table) {i : ℕ} (h : i < table.fieldNames.length) {c : Char}
    (hc : c ∈ [',', ')', '=']) (l : Text) :
    d.readField (d.escapeIdentifier (table.field i) ++ c :: l) = some (table.field i, c :: l) := by
  obtain ⟨f, hf, he⟩ := field_mem h
  rw [he]
  exact hreads.field f hf c hc l

/-! ## The texts -/

theorem places_join {l : List Text} (h : ∀ x ∈ l, places x = []) : places (join l) = [] := by
  unfold join
  induction l with
  | nil => rfl
  | cons x l ih =>
      cases l with
      | nil => simpa using h x (List.mem_singleton_self x)
      | cons y l =>
          have htail := ih fun z hz => h z (List.mem_cons_of_mem x hz)
          rw [List.intercalate_cons_cons, List.append_assoc, List.singleton_append,
            places_append (h x List.mem_cons_self) ⟨rfl, by decide⟩]
          simpa [places] using htail

theorem insertText {method name fields : Text} (hmethod : places method = []) (hname : places name = [])
    (hfields : places fields = []) (qStr : Text) :
    arg (arg (arg (method ++ " INTO %1(%2) VALUES(%3)".toList) name) fields) qStr =
      method ++ " INTO ".toList ++ (name ++ '(' :: (fields ++ (") VALUES(".toList ++ (qStr ++ [')'])))) := by
  have hspace : EndsPlace ' ' := ⟨rfl, by decide⟩
  have hopen : EndsPlace '(' := ⟨rfl, by decide⟩
  have hclose : EndsPlace ')' := ⟨rfl, by decide⟩
  simp only [String.reduceToList]
  have hinto : places (method ++ ' ' :: (['I', 'N', 'T', 'O', ' '] ++ name)) = [] := by
    rw [places_append hmethod hspace]
    simpa [places] using hname
  have hcolumns : places (method ++ ' ' :: (['I', 'N', 'T', 'O', ' '] ++ name) ++ '(' :: fields) = [] := by
    rw [places_append hinto hopen]
    simpa [places] using hfields
  have h1 := arg_append hmethod hspace (n := 1) (l := ['I', 'N', 'T', 'O', ' ', '%', '1', '(', '%', '2', ')', ' ',
    'V', 'A', 'L', 'U', 'E', 'S', '(', '%', '3', ')']) (by decide) name
  have h2 := arg_append hinto hopen (n := 2) (l := ['%', '2', ')', ' ', 'V', 'A', 'L', 'U', 'E', 'S', '(', '%',
    '3', ')']) (by decide) fields
  have h3 := arg_append hcolumns hclose (n := 3) (l := [' ', 'V', 'A', 'L', 'U', 'E', 'S', '(', '%', '3', ')'])
    (by decide) qStr
  simp only [fill, place, placeNumber, List.append_assoc, List.cons_append, List.nil_append, List.cons.injEq,
    ↓Char.isValue, Char.reduceEq, Char.reduceIsDigit, Char.reduceToNat, Nat.reduceSub, OfNat.ofNat_ne_one,
    Nat.succ_ne_self, Bool.false_eq_true, ↓reduceIte, false_and, imp_self, implies_true] at h1 h2 h3 ⊢
  rw [h1, h2, h3]

theorem updateText {name : Text} (hname : places name = []) (params : Text) :
    arg (arg "UPDATE %1 SET %2".toList name) params = "UPDATE ".toList ++ (name ++ (" SET ".toList ++ params)) := by
  have hspace : EndsPlace ' ' := ⟨rfl, by decide⟩
  simp only [String.reduceToList]
  have hupdate : places (['U', 'P', 'D', 'A', 'T', 'E', ' '] ++ name) = [] := by simpa [places] using hname
  have h1 := arg_append (show places ['U', 'P', 'D', 'A', 'T', 'E'] = [] by decide) hspace (n := 1)
    (l := ['%', '1', ' ', 'S', 'E', 'T', ' ', '%', '2']) (by decide) name
  have h2 := arg_append hupdate hspace (n := 2) (l := ['S', 'E', 'T', ' ', '%', '2']) (by decide) params
  simp only [fill, place, placeNumber, List.cons_append, List.nil_append, List.append_nil, List.nil_eq,
    List.cons.injEq, ↓Char.isValue, Char.reduceEq, Char.reduceIsDigit, Char.reduceToNat, Nat.reduceSub,
    OfNat.ofNat_ne_one, Bool.false_eq_true, ↓reduceIte, false_and, imp_self, implies_true] at h1 h2 ⊢
  rw [h1, h2]

/-! ## What is read in them -/

/-- **An insertion is read as the columns it was written with.** -/
theorem prepareInsert_text (hreads : d.Reads table) {columns : List ℕ} (hne : columns ≠ [])
    (hvalid : ∀ i ∈ columns, i < table.fieldNames.length) (method rest : Text) :
    d.prepareInsert method (method ++ " INTO ".toList ++ (table.name.toList ++ '(' ::
        (join (columns.map fun i => d.escapeIdentifier (table.field i)) ++ (") VALUES(".toList ++
          (join (List.replicate columns.length ['?']) ++ ')' :: rest))))) =
      some ⟨table.name.toList, columns.map table.field, rest⟩ := by
  have hcolumns := readSeparated_append d.readField ',' (fun i => d.escapeIdentifier (table.field i)) table.field hne
    (") VALUES(".toList ++ ([','].intercalate (List.replicate columns.length ['?']) ++ ')' :: rest)) (by simp)
    (fun i hi l => readField_column hreads (hvalid i hi) (by simp) l)
    (fun i hi => by
      simp only [String.reduceToList, List.cons_append]
      exact readField_column hreads (hvalid i hi) (by simp) _)
  have hvalues := readSeparated_append readMark ',' (fun _ => ['?']) id
    (show List.replicate columns.length () ≠ [] by simpa [List.replicate_eq_nil_iff] using hne) (')' :: rest) (by simp)
    (fun _ _ _ => rfl) (fun _ _ => rfl)
  rw [List.map_replicate, List.map_id] at hvalues
  simp only [Driver.prepareInsert, join, strip_append, strip_cons, hreads.name '(' (by simp), hcolumns, hvalues,
    Option.bind_eq_bind, Option.bind_some, List.length_map, List.length_replicate, if_true]

/-- **An update is read as the columns it was written with.** -/
theorem prepareUpdate_text (hreads : d.Reads table) {columns : List ℕ} (hne : columns ≠ [])
    (hvalid : ∀ i ∈ columns, i < table.fieldNames.length) {rest : Text} (hrest : rest.head? ≠ some ',') :
    d.prepareUpdate ("UPDATE ".toList ++ (table.name.toList ++ (" SET ".toList ++
        (join (columns.map fun i => d.escapeIdentifier (table.field i) ++ "=?".toList) ++ rest)))) =
      some ⟨table.name.toList, columns.map table.field, rest⟩ := by
  have hassign : ∀ i ∈ columns, ∀ l, d.readAssignment (d.escapeIdentifier (table.field i) ++ "=?".toList ++ l) =
      some (table.field i, l) := by
    intro i hi l
    have hfield := readField_column hreads (hvalid i hi) (c := '=') (by simp) ('?' :: l)
    have hmark := strip_append ['=', '?'] l
    simp only [Driver.readAssignment, String.reduceToList, List.append_assoc, List.cons_append, List.nil_append,
      Option.bind_eq_bind, hfield, Option.bind_some] at hmark ⊢
    rw [hmark, Option.bind_some]
  have hcolumns := readSeparated_append d.readAssignment ','
    (fun i => d.escapeIdentifier (table.field i) ++ "=?".toList) table.field hne rest hrest
    (fun i hi l => hassign i hi (',' :: l)) (fun i hi => hassign i hi rest)
  have hname := hreads.name ' ' (by simp) (['S', 'E', 'T', ' '] ++ (join (columns.map fun i =>
    d.escapeIdentifier (table.field i) ++ "=?".toList) ++ rest))
  have hset := strip_append [' ', 'S', 'E', 'T', ' '] (join (columns.map fun i =>
    d.escapeIdentifier (table.field i) ++ "=?".toList) ++ rest)
  rw [Driver.prepareUpdate, strip_append]
  simp only [String.reduceToList, List.cons_append, List.nil_append] at hname hset hcolumns ⊢
  simp only [join, Option.bind_eq_bind, Option.bind_some] at hname hset ⊢
  rw [hname, Option.bind_some, hset, Option.bind_some, hcolumns, Option.bind_some]

/-! ## Where the values go -/

/-- The columns of a statement with their values: the values are bound in their order. -/
def AliasTable.assigned (table : AliasTable) (columns : List ℕ) (values : List V) : Text × List (Text × V) :=
  (table.name.toList, (columns.map table.field).zip values)

theorem execPrepared_eq {prepare : Text → Option Prepared} {sql : Text} {columns : List ℕ} (rest : Text)
    (hsql : sql ≠ []) (hprepare : prepare sql = some ⟨table.name.toList, columns.map table.field, rest⟩)
    (hrest : rest.count '?' = 0) {values : List V} (hlen : columns.length = values.length) :
    execPrepared prepare sql values = some (table.assigned columns values) := by
  rw [execPrepared, if_neg hsql, hprepare, Option.bind_some, hrest, List.length_map, Nat.add_zero, if_pos hlen]
  rfl

theorem columns_of_written {columns : List ℕ} {write : ℕ → Text} {text : Text} {valuesSize : ℕ}
    (htext : text.count '?' = 0) (h : ¬(table.isNull || (columns.map write).isEmpty ||
      decide (text.count '?' + (columns.map write).length ≠ valuesSize)) = true) :
    columns ≠ [] ∧ columns.length = valuesSize := by
  simp only [Bool.or_eq_true, List.isEmpty_iff, List.map_eq_nil_iff, List.length_map, htext, Nat.zero_add,
    decide_eq_true_eq, not_or, not_not] at h
  exact ⟨h.1.2, h.2⟩

theorem insertQuery_assigns (hreads : d.Reads table) (hnodup : fieldIds.Nodup)
    (hvalid : ∀ i ∈ fieldIds, i < table.fieldNames.length) (hname : places table.name.toList = [])
    (hfields : ∀ f : String, f ∈ table.fieldNames → places (d.escapeIdentifier f.toList) = []) {method suffix : Text}
    (hmethod : places method = []) (hsuffix : suffix.count '?' = 0) (values : List V) :
    ∃ sql, insertQuery d table values.length suffix fieldIds method = some sql ∧
      (sql ≠ [] → (inTableOrder table fieldIds).length = values.length ∧
        execPrepared (d.prepareInsert method) sql values =
          some (table.assigned (inTableOrder table fieldIds) values)) := by
  set columns := inTableOrder table fieldIds with hcolumns
  have hlt : ∀ i ∈ columns, i < table.fieldNames.length := fun i => mem_inTableOrder hvalid
  rw [insertQuery, escapeFields_eq hnodup hvalid, ← hcolumns]
  split
  · exact ⟨[], rfl, fun h => absurd rfl h⟩
  next hguard =>
    obtain ⟨hne, hlen⟩ := columns_of_written hsuffix hguard
    have hplaces : places (join (columns.map fun i => d.escapeIdentifier (table.field i))) = [] := by
      refine places_join fun x hx => ?_
      obtain ⟨i, hi, rfl⟩ := List.mem_map.mp hx
      obtain ⟨f, hf, he⟩ := field_mem (hlt i hi)
      rw [he]
      exact hfields f hf
    rw [List.length_map, questionList_eq (List.length_pos_iff.mpr hne), Option.map_some,
      insertText hmethod hname hplaces]
    refine ⟨_, rfl, fun hsql => ⟨hlen, ?_⟩⟩
    refine execPrepared_eq ((if suffix ≠ [] then ' ' :: suffix else []) ++ [';']) hsql ?_ ?_ hlen
    · rw [← prepareInsert_text hreads hne hlt]
      refine congrArg _ ?_
      split_ifs <;> simp [join]
    · split_ifs <;> simp [List.count_append, hsuffix]

theorem updateQuery_assigns (hreads : d.Reads table) (hnodup : fieldIds.Nodup)
    (hvalid : ∀ i ∈ fieldIds, i < table.fieldNames.length) (hname : places table.name.toList = []) {cond : Text}
    (hcond : cond.count '?' = 0) (values : List V) (hsql : updateQuery d table values.length cond fieldIds ≠ []) :
    (inTableOrder table fieldIds).length = values.length ∧
      execPrepared d.prepareUpdate (updateQuery d table values.length cond fieldIds) values =
        some (table.assigned (inTableOrder table fieldIds) values) := by
  set columns := inTableOrder table fieldIds with hcolumns
  have hlt : ∀ i ∈ columns, i < table.fieldNames.length := fun i => mem_inTableOrder hvalid
  have hguard : ¬(table.isNull || (columns.map fun i => d.escapeIdentifier (table.field i)).isEmpty ||
      decide (cond.count '?' + (columns.map fun i => d.escapeIdentifier (table.field i)).length ≠ values.length)) =
        true := by
    intro h
    apply hsql
    rw [updateQuery, escapeFields_eq hnodup hvalid]
    exact if_pos h
  have htext : updateQuery d table values.length cond fieldIds = "UPDATE ".toList ++ (table.name.toList ++
      (" SET ".toList ++ (join (columns.map fun i => d.escapeIdentifier (table.field i) ++ "=?".toList) ++
        if cond ≠ [] then " WHERE ".toList ++ cond else []))) := by
    rw [updateQuery, escapeFields_eq hnodup hvalid]
    refine (if_neg hguard).trans ?_
    simp only [updateText hname, List.map_map, Function.comp_def]
    split_ifs <;> simp [columns]
  obtain ⟨hne, hlen⟩ := columns_of_written hcond hguard
  refine ⟨hlen, execPrepared_eq (if cond ≠ [] then " WHERE ".toList ++ cond else []) hsql ?_ ?_ hlen⟩
  · rw [htext]
    refine prepareUpdate_text hreads hne hlt ?_
    split_ifs <;> simp
  · split_ifs
    · rw [List.count_append, hcond]
      decide
    · rfl

/-- **Each value goes to one of the requested columns**, the first value to the column that comes first in the table:
with ascending `fieldIds`, the `i`-th value goes to column `fieldIds[i]`, and without, to the `i`-th column. The names
in the statements are read as they are meant, and hold no places. -/
theorem statements_assign (hreads : d.Reads table) (hnodup : fieldIds.Nodup)
    (hvalid : ∀ i ∈ fieldIds, i < table.fieldNames.length) (hname : places table.name.toList = []) (values : List V) :
    (∀ method suffix : Text, places method = [] → suffix.count '?' = 0 →
        (∀ f : String, f ∈ table.fieldNames → places (d.escapeIdentifier f.toList) = []) →
        ∃ sql, insertQuery d table values.length suffix fieldIds method = some sql ∧
          (sql ≠ [] → (inTableOrder table fieldIds).length = values.length ∧
            execPrepared (d.prepareInsert method) sql values =
              some (table.assigned (inTableOrder table fieldIds) values))) ∧
      (∀ cond : Text, cond.count '?' = 0 → updateQuery d table values.length cond fieldIds ≠ [] →
        (inTableOrder table fieldIds).length = values.length ∧
          execPrepared d.prepareUpdate (updateQuery d table values.length cond fieldIds) values =
            some (table.assigned (inTableOrder table fieldIds) values)) ∧
      (fieldIds ≠ [] → fieldIds.Pairwise (· < ·) → inTableOrder table fieldIds = fieldIds) ∧
      (fieldIds = [] → inTableOrder table fieldIds = List.range table.fieldNames.length) := by
  refine ⟨fun method suffix hmethod hsuffix hfields => ?_, fun cond hcond hsql => ?_, fun hne hsorted => ?_,
    fun hempty => ?_⟩
  · exact insertQuery_assigns hreads hnodup hvalid hname hfields hmethod hsuffix values
  · exact updateQuery_assigns hreads hnodup hvalid hname hcond values hsql
  · rw [inTableOrder, if_neg hne]
    exact List.mergeSort_of_pairwise (hsorted.imp fun h => by simpa using h.le)
  · rw [inTableOrder, if_pos hempty]

/-! ### A driver that quotes -/

/-- What is read behind a quotation mark: two of them are one, and one is the end. -/
def readQuoted : Text → Option (Text × Text)
  | [] => none
  | '"' :: '"' :: l => (readQuoted l).map fun p => ('"' :: p.1, p.2)
  | '"' :: l => some ([], l)
  | c :: l => (readQuoted l).map fun p => (c :: p.1, p.2)

/-- Columns are quoted, and tables are not. -/
def quoting : Driver where
  escapeIdentifier name := '"' :: (name.flatMap fun c => if c = '"' then ['"', '"'] else [c]) ++ ['"']
  readTable l := some (l.takeWhile fun c => c ≠ '(' && c ≠ ' ', l.dropWhile fun c => c ≠ '(' && c ≠ ' ')
  readField
    | '"' :: l => readQuoted l
    | _ => none

/-- A table with three columns. -/
def threeColumns : AliasTable := ⟨⟨"t", ["a", "b", "c"]⟩, ""⟩

theorem quoting_reads : quoting.Reads threeColumns where
  name c hc l := by
    simp only [List.mem_cons, List.not_mem_nil, or_false] at hc
    rcases hc with rfl | rfl <;> simp [quoting, threeColumns]
  field f hf c hc l := by
    have hquote : c ≠ '"' := by
      rintro rfl
      simp at hc
    simp only [threeColumns, List.mem_cons, List.not_mem_nil, or_false] at hf
    rcases hf with rfl | rfl | rfl <;> simp [quoting, readQuoted, hquote]

/-- Two of the columns, asked for in the other order. -/
theorem statements_assign_threeColumns :
    (∃ sql, insertQuery quoting threeColumns 2 [] [2, 0] "INSERT".toList = some sql ∧
      (sql ≠ [] → execPrepared (quoting.prepareInsert "INSERT".toList) sql [10, 20] =
        some (threeColumns.assigned [0, 2] [10, 20]))) ∧
      execPrepared quoting.prepareUpdate (updateQuery quoting threeColumns 2 "c=1".toList [2, 0]) [10, 20] =
        some (threeColumns.assigned [0, 2] [10, 20]) := by
  obtain ⟨hinsert, hupdate, -, -⟩ := statements_assign quoting_reads (show [2, 0].Nodup by decide)
    (by decide) (by decide) [10, 20]
  have horder : inTableOrder threeColumns [2, 0] = [0, 2] := by
    simp [inTableOrder, List.mergeSort, List.MergeSort.Internal.splitInTwo]
  rw [horder] at hinsert hupdate
  obtain ⟨sql, hsql, hassign⟩ := hinsert "INSERT".toList [] (by decide) rfl (by decide)
  exact ⟨⟨sql, hsql, fun hne => (hassign hne).2⟩, (hupdate "c=1".toList (by decide) (by decide)).2⟩

/-- A table with two columns. -/
def twoColumns : AliasTable := ⟨⟨"t", ["a", "b"]⟩, ""⟩

/-- A table with a column whose name is a place. -/
def placeColumn : AliasTable := ⟨⟨"t", ["%3"]⟩, ""⟩

/-- With the columns asked for in the other order, each gets the value of the other one. A column whose name is a
place takes the placeholders into its name; a table whose name is one, the columns. -/
theorem values_exchanged :
    insertQuery quoting twoColumns 2 [] [1, 0] "INSERT".toList =
        some "INSERT INTO t(\"a\",\"b\") VALUES(?,?);".toList ∧
      execPrepared (quoting.prepareInsert "INSERT".toList) "INSERT INTO t(\"a\",\"b\") VALUES(?,?);".toList [10, 20] =
        some (twoColumns.assigned [0, 1] [10, 20]) ∧
      updateQuery quoting twoColumns 2 [] [1, 0] = "UPDATE t SET \"a\"=?,\"b\"=?".toList ∧
      execPrepared quoting.prepareUpdate "UPDATE t SET \"a\"=?,\"b\"=?".toList [10, 20] =
        some (twoColumns.assigned [0, 1] [10, 20]) ∧
      twoColumns.assigned [0, 1] [10, 20] ≠ twoColumns.assigned [1, 0] [10, 20] ∧
      insertQuery quoting placeColumn 1 [] [0] "INSERT".toList = some "INSERT INTO t(\"?\") VALUES(?);".toList ∧
      updateQuery quoting ⟨⟨"%2", ["a"]⟩, ""⟩ 1 [] [0] = "UPDATE \"a\"=? SET \"a\"=?".toList := by
  have htwo : questionList 2 = some ['?', ',', '?'] := (questionList_eq (by decide)).trans (by decide)
  have hone : questionList 1 = some ['?'] := (questionList_eq (by decide)).trans (by decide)
  refine ⟨?_, by decide, by decide, by decide, by decide, ?_, by decide⟩
  · have hlen : (escapeFields quoting twoColumns [1, 0] false).length = 2 := by decide
    rw [insertQuery, if_neg (by decide), hlen, htwo]
    decide
  · have hlen : (escapeFields quoting placeColumn [0] false).length = 1 := by decide
    rw [insertQuery, if_neg (by decide), hlen, hone]
    decide

end HelpzDb
