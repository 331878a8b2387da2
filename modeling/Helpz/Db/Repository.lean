import Helpz.Db.Objects
import Mathlib.Data.List.Perm.Basic

/-!
# A table as a list of objects

Objects are written with `to_variantlist`, changed and deleted by the ids in one of their columns, and read with
`db_build_list` and `db_build_item`.

* `execInsert`, `execUpdate`, `execDelete`, `execSelect`: what a database does with the statements that it reads;
* `Base.insert`, `Base.update`, `Base.del`, `Base.select`: a statement is written, and executed by the database or not;
* `Change.exec`: a change of the table by such calls; `Change.apply`: what it is meant to do to a list of records;
* `exec_eq`, `record_rows`, `records_execAll`: each change, and any number of them, do what they are meant to do;
* `objects_read`: so the objects that are read are those that were written.
-/

namespace HelpzDb

open HelpzLib

/-- A row has a value or `NULL` in each column. -/
abbrev TableRow (V : Type) : Type := Text → Option V

/-- The rows of each table. -/
abbrev Tables (V : Type) : Type := Text → List (TableRow V)

variable {V O : Type}

/-- The row with the values that are assigned to its columns. -/
def assign (assigned : List (Text × Option V)) (r : TableRow V) : TableRow V :=
  fun column => (assigned.lookup column).getD (r column)

/-- A database: its driver, the number that a value is compared with ids as, and the order in which it gives rows. -/
structure Engine (V : Type) extends Driver where
  number : V → Option ℤ
  order : List (TableRow V) → List (TableRow V)
  order_perm : ∀ l, (order l).Perm l

namespace Engine

variable (e : Engine V)

/-- Whether the value of a column is one of the ids. -/
def isOneOf (ids : List ℤ) (value : Option V) : Bool := ids.any fun id => value.bind e.number = some id

/-- Whether a row meets a condition. -/
def holds (c : Cond) (r : TableRow V) : Bool := e.isOneOf c.predicate.ids (r c.column)

/-- An insertion into a table. Columns without a value are `NULL`. -/
def execInsert (sql : Text) (values : List (Option V)) (db : Tables V) : Option (Tables V) :=
  (execPrepared (e.prepareInsert "INSERT".toList) sql values).map fun p =>
    Function.update db p.1 (db p.1 ++ [assign p.2 fun _ => none])

/-- An update of the rows that meet a condition. -/
def execUpdate (sql : Text) (values : List (Option V)) (db : Tables V) : Option (Tables V) := do
  let p ← e.prepareUpdate sql
  let l ← strip " WHERE ".toList p.rest
  let cond ← readCond [] l
  if p.columns.length + l.count '?' = values.length then
    some (Function.update db p.table
      ((db p.table).map fun r => if e.holds cond r then assign (p.columns.zip values) r else r))
  else none

/-- A deletion of the rows that meet a condition. -/
def execDelete (sql : Text) (db : Tables V) : Option (Tables V) :=
  (e.prepareDelete sql).map fun p => Function.update db p.1 ((db p.1).filter fun r => !e.holds p.2 r)

/-- The columns of the rows that meet a condition. -/
def execSelect (sql : Text) (db : Tables V) : Option (List (List (Option V))) :=
  (e.prepareSelect sql).map fun s =>
    (e.order ((db s.table).filter fun r => s.cond.all fun c => e.holds c r)).map fun r => s.columns.map r

end Engine

/-! ## The calls -/

namespace Base

/-- `exec` of a statement that changes the database: whether it is active, and what the database is then. A statement
that the database does not read, or does not execute, changes nothing. -/
def exec (active : Bool) (statement : Option (Tables V)) (db : Tables V) : Bool × Tables V :=
  match statement, active with
  | some db', true => (true, db')
  | _, _ => (false, db)

/-- `insert`, of values for all columns. -/
def insert (e : Engine V) (table : AliasTable) (values : List (Option V)) (active : Bool) (db : Tables V) :
    Bool × Tables V :=
  match insertQuery e.toDriver table values.length [] [] "INSERT".toList with
  | some sql => exec active (e.execInsert sql values db) db
  | none => (false, db)

/-- `update`. -/
def update (e : Engine V) (table : AliasTable) (values : List (Option V)) (cond : Text) (fieldIds : List ℕ)
    (active : Bool) (db : Tables V) : Bool × Tables V :=
  exec active (e.execUpdate (updateQuery e.toDriver table values.length cond fieldIds) values db) db

/-- `del`. -/
def del (e : Engine V) (tableName : String) (cond : Text) (active : Bool) (db : Tables V) : Bool × Tables V :=
  exec active (e.execDelete (delQuery tableName cond) db) db

/-- `select`: the rows of the query, none if it is not active. -/
def select (e : Engine V) (table : AliasTable) (suffix : Text) (active : Bool) (db : Tables V) :
    List (List (Option V)) :=
  if active then (e.execSelect (selectQuery e.toDriver table suffix []) db).getD [] else []

end Base

namespace Meta

variable [Inhabited O] (m : Meta O V) (e : Engine V) (table : AliasTable)

/-- `db_build_list`, of the whole table or with a suffix. -/
def buildList (suffix : Text) (active : Bool) (db : Tables V) : List O :=
  m.dbBuildList (Base.select e table suffix active db)

/-- `db_build_list`, of the objects with these ids in a column. -/
def buildListOf (idVect : List ℤ) (columnIndex : ℕ) (active : Bool) (db : Tables V) : List O :=
  let suffix := dbGetItemsListSuffix table idVect columnIndex
  if suffix = [] then [] else m.buildList e table suffix active db

/-- `db_build_item`. -/
def buildItem (id : ℤ) (active : Bool) (db : Tables V) : O :=
  match Base.select e table (itemSuffix table id) active db with
  | record :: _ => m.dbBuild record
  | [] => default

end Meta

/-! ## Changes of a table -/

/-- A change of a table: an object is inserted, columns of the objects with some ids are set to those of another
object, or the objects with some ids are deleted. -/
inductive Change (O : Type)
  | insert (obj : O)
  | update (obj : O) (fieldIds : List ℕ) (columnIndex : ℕ) (ids : List ℤ)
  | del (columnIndex : ℕ) (ids : List ℤ)

/-- The columns that are written: all, or those that are asked for. -/
def Meta.written (m : Meta O V) (fieldIds : List ℕ) : List ℕ :=
  if fieldIds = [] then List.range m.columns.length else fieldIds

namespace Change

/-- The calls that make a change. -/
def exec (m : Meta O V) (e : Engine V) (table : AliasTable) (active : Bool) (db : Tables V) :
    Change O → Bool × Tables V
  | .insert obj => Base.insert e table (m.toVariantlist obj) active db
  | .update obj fieldIds columnIndex ids =>
      Base.update e table ((m.written fieldIds).map (m.valueGetter obj))
        (getDbFieldInSql (table.fieldNames.getD columnIndex "") ids []) fieldIds active db
  | .del columnIndex ids =>
      Base.del e table.name (getDbFieldInSql (table.fieldNames.getD columnIndex "") ids []) active db

/-- What a change is meant to do to the values of the objects. -/
def apply (m : Meta O V) (e : Engine V) (records : List (List (Option V))) : Change O → List (List (Option V))
  | .insert obj => records ++ [m.toVariantlist obj]
  | .update obj fieldIds columnIndex ids =>
      records.map fun record =>
        if e.isOneOf ids (record.getD columnIndex none) then
          (List.range m.columns.length).map fun i =>
            if i ∈ m.written fieldIds then m.valueGetter obj i else record.getD i none
        else record
  | .del columnIndex ids => records.filter fun record => !e.isOneOf ids (record.getD columnIndex none)

/-- The columns exist, those that are written are in the order of the table, and the ids are 32-bit ones. -/
def Valid (m : Meta O V) : Change O → Prop
  | .insert _ => True
  | .update _ fieldIds columnIndex ids =>
      (fieldIds.Pairwise (· < ·) ∧ ∀ i ∈ fieldIds, i < m.columns.length) ∧ columnIndex < m.columns.length ∧
        ∀ id ∈ ids, 0 ≤ id ∧ id < 2 ^ 32
  | .del columnIndex ids => columnIndex < m.columns.length ∧ ∀ id ∈ ids, 0 ≤ id ∧ id < 2 ^ 32

instance (m : Meta O V) (c : Change O) : Decidable (c.Valid m) :=
  match c with
  | .insert _ => inferInstanceAs (Decidable True)
  | .update _ fieldIds columnIndex ids =>
      inferInstanceAs (Decidable ((fieldIds.Pairwise (· < ·) ∧ ∀ i ∈ fieldIds, i < m.columns.length) ∧
        columnIndex < m.columns.length ∧ ∀ id ∈ ids, 0 ≤ id ∧ id < 2 ^ 32))
  | .del columnIndex ids =>
      inferInstanceAs (Decidable (columnIndex < m.columns.length ∧ ∀ id ∈ ids, 0 ≤ id ∧ id < 2 ^ 32))

end Change

/-- The values of a row in the columns of a table. -/
def AliasTable.record (table : AliasTable) (r : TableRow V) : List (Option V) :=
  (List.range table.fieldNames.length).map fun i => r (table.field i)

/-- The records of a table. -/
def AliasTable.records (table : AliasTable) (db : Tables V) : List (List (Option V)) :=
  (db table.name.toList).map table.record

/-- Records with a value for each column, that the getter of the column gives. -/
def Meta.Fits (m : Meta O V) (records : List (List (Option V))) : Prop :=
  ∀ record ∈ records, record.length = m.columns.length ∧ ∀ i < m.columns.length, m.Storable i (record.getD i none)

/-- Changes one after the other, each with whether the database executes it. -/
def Change.execAll (m : Meta O V) (e : Engine V) (table : AliasTable) (changes : List (Change O × Bool))
    (db : Tables V) : Tables V :=
  changes.foldl (fun db c => (c.1.exec m e table c.2 db).2) db

/-- What they are meant to do. -/
def Change.applyAll (m : Meta O V) (e : Engine V) (changes : List (Change O × Bool))
    (records : List (List (Option V))) : List (List (Option V)) :=
  changes.foldl (fun records c => if c.2 then c.1.apply m e records else records) records

/-! ## What the statements do -/

section

variable {m : Meta O V} {e : Engine V} {table : AliasTable}

theorem field_inj (h : table.fieldNames.Nodup) {i j : ℕ} (hi : i < table.fieldNames.length)
    (hj : j < table.fieldNames.length) (he : table.field i = table.field j) : i = j := by
  have hfield : ∀ k (hk : k < table.fieldNames.length), table.field k = (table.fieldNames[k]).toList := by
    intro k hk
    simp [AliasTable.field, hk]
  rw [hfield i hi, hfield j hj] at he
  exact (List.Nodup.getElem_inj_iff h).mp (String.ext he)

theorem lookup_assigned (h : table.fieldNames.Nodup) {columns : List ℕ}
    (hcolumns : ∀ i ∈ columns, i < table.fieldNames.length) (value : ℕ → Option V) {i : ℕ}
    (hi : i < table.fieldNames.length) :
    ((columns.map table.field).zip (columns.map value)).lookup (table.field i) =
      if i ∈ columns then some (value i) else none := by
  induction columns with
  | nil => rfl
  | cons k columns ih =>
      have hk := hcolumns k List.mem_cons_self
      rw [List.map_cons, List.map_cons, List.zip_cons_cons, List.lookup_cons]
      by_cases he : table.field i = table.field k
      · obtain rfl := field_inj h hi hk he
        simp
      · have hne : i ≠ k := fun hik => he (hik ▸ rfl)
        have hlookup := ih fun j hj => hcolumns j (List.mem_cons_of_mem k hj)
        have hbeq : (table.field i == table.field k) = false := beq_false_of_ne he
        simp [hbeq, hne, hlookup]

theorem assign_field (h : table.fieldNames.Nodup) {columns : List ℕ}
    (hcolumns : ∀ i ∈ columns, i < table.fieldNames.length) (value : ℕ → Option V) (r : TableRow V) {i : ℕ}
    (hi : i < table.fieldNames.length) :
    assign ((columns.map table.field).zip (columns.map value)) r (table.field i) =
      if i ∈ columns then value i else r (table.field i) := by
  rw [assign, lookup_assigned h hcolumns value hi]
  split_ifs <;> rfl

theorem insertQuery_ne_nil (h : e.Accepts table) {method sql : Text}
    (hsql : insertQuery e.toDriver table table.fieldNames.length [] [] method = some sql) : sql ≠ [] := by
  rw [insertQuery, escapeFields_eq List.nodup_nil (by simp), inTableOrder, if_pos rfl, if_neg] at hsql
  · obtain ⟨qStr, _, rfl⟩ := Option.map_eq_some_iff.mp hsql
    simp
  · simp [h.not_isNull, h.columns_ne]

/-- **An insertion puts a row with the values at the end of the table.** -/
theorem insert_eq (h : e.Accepts table) (value : ℕ → Option V) (active : Bool) (db : Tables V) :
    Base.insert e table ((List.range table.fieldNames.length).map value) active db =
      Base.exec active (some (Function.update db table.name.toList (db table.name.toList ++
        [assign (((List.range table.fieldNames.length).map table.field).zip
          ((List.range table.fieldNames.length).map value)) fun _ => none]))) db := by
  obtain ⟨sql, hsql, hassign⟩ := insertQuery_assigns h.toReads List.nodup_nil (by simp) h.places_name
    (fun f hf => (h.places_field f hf).1) (show places "INSERT".toList = [] by decide)
    (show ([] : Text).count '?' = 0 from rfl) ((List.range table.fieldNames.length).map value)
  rw [Base.insert, hsql]
  rw [List.length_map, List.length_range] at hsql
  simp only [Engine.execInsert, (hassign (insertQuery_ne_nil h hsql)).2, Option.map_some]
  rfl

theorem inTableOrder_eq {fieldIds : List ℕ} (hsorted : fieldIds.Pairwise (· < ·)) :
    inTableOrder table fieldIds = if fieldIds = [] then List.range table.fieldNames.length else fieldIds := by
  rw [inTableOrder]
  split_ifs
  · rfl
  · exact List.mergeSort_of_pairwise (hsorted.imp fun h => by simpa using h.le)

theorem question_notMem_decimal (n : ℤ) : '?' ∉ decimal n := by
  have hdigits : ∀ k, '?' ∉ Nat.toDigits 10 k := fun k hc => absurd (isDigit_of_mem hc) (by decide)
  cases n with
  | ofNat n => exact hdigits n
  | negSucc n =>
      rw [decimal, List.mem_cons, not_or]
      exact ⟨by decide, hdigits _⟩

theorem count_fieldIn {fieldName : String} (hname : '?' ∉ fieldName.toList) (ids : List ℤ) :
    (getDbFieldInSql fieldName ids []).count '?' = 0 := by
  have hlist : '?' ∉ commaList (written ids []) := by
    rw [commaList, List.mem_flatten]
    rintro ⟨l, hl, hc⟩
    obtain ⟨id, _, rfl⟩ := List.mem_map.mp hl
    simp [question_notMem_decimal] at hc
  rw [List.count_eq_zero, getDbFieldInSql_eq]
  intro hc
  split_ifs at hc
  · have := List.dropLast_subset _ hc
    simp [hname, hlist] at this
  · rcases List.mem_append.mp hc with hc | hc
    · have := List.dropLast_subset _ hc
      simp [hname, hlist] at this
    · simp at hc

theorem fieldIn_ne_nil (fieldName : String) (ids : List ℤ) : getDbFieldInSql fieldName ids [] ≠ [] := by
  rw [getDbFieldInSql_eq]
  split_ifs with hone
  · have hne : written ids [] ≠ [] := by
      intro he
      rw [written, List.append_nil, List.map_eq_nil_iff] at he
      simp [he] at hone
    rw [commaList_eq hne, ← List.append_assoc, List.dropLast_concat]
    simp
  · simp

theorem readCond_fieldIn_nil {fieldName : String} (hname : ∀ c ∈ fieldName.toList, endsName c = false) :
    readCond [] (getDbFieldInSql fieldName [] []) = none := by
  have htext : getDbFieldInSql fieldName [] [] = fieldName.toList ++ ' ' :: ['I', 'N', ' ', ')'] := by
    rw [getDbFieldInSql_eq, if_neg (by decide)]
    have hdrop : fieldName.toList ++ [' ', 'I', 'N', ' ', '('] ++ commaList (written [] []) =
        fieldName.toList ++ [' ', 'I', 'N', ' '] ++ ['('] := by simp [written, commaList]
    rw [hdrop, List.dropLast_concat, List.append_assoc]
    rfl
  have htake := takeWhile_append_cons (show ∀ c ∈ fieldName.toList, (!endsName c) = true by simpa using hname)
    (c := ' ') rfl ['I', 'N', ' ', ')']
  rw [readCond, htext, htake, List.drop_left' rfl]
  rfl

/-- **An update is read as the columns that are written and its condition.** -/
theorem prepareUpdate_updateQuery (h : e.Accepts table) {fieldIds : List ℕ} (hsorted : fieldIds.Pairwise (· < ·))
    (hvalid : ∀ i ∈ fieldIds, i < table.fieldNames.length) {cond : Text} (hcond : cond ≠ [])
    (hmarks : cond.count '?' = 0) :
    e.prepareUpdate (updateQuery e.toDriver table (inTableOrder table fieldIds).length cond fieldIds) =
      some ⟨table.name.toList, (inTableOrder table fieldIds).map table.field, " WHERE ".toList ++ cond⟩ := by
  have hne : inTableOrder table fieldIds ≠ [] := by
    rw [inTableOrder_eq hsorted]
    split_ifs with hempty
    · simpa using h.columns_ne
    · exact hempty
  rw [updateQuery, escapeFields_eq (hsorted.imp fun h => h.ne) hvalid, if_neg]
  · simp only [if_pos hcond, updateText h.places_name, List.map_map, Function.comp_def]
    rw [← prepareUpdate_text h.toReads hne (fun i => mem_inTableOrder hvalid)
      (show (" WHERE ".toList ++ cond).head? ≠ some ',' by simp)]
    simp only [List.append_assoc]
  · simp [h.not_isNull, hne, hmarks]

theorem update_condition (h : e.Accepts table) {fieldIds : List ℕ} (hsorted : fieldIds.Pairwise (· < ·))
    (hvalid : ∀ i ∈ fieldIds, i < table.fieldNames.length) {cond : Text} (hcond : cond ≠ [])
    (hmarks : cond.count '?' = 0) (value : ℕ → Option V) (active : Bool) (db : Tables V) :
    Base.update e table ((inTableOrder table fieldIds).map value) cond fieldIds active db =
      Base.exec active ((readCond [] cond).map fun c => Function.update db table.name.toList
        ((db table.name.toList).map fun r => if e.holds c r then
          assign (((inTableOrder table fieldIds).map table.field).zip ((inTableOrder table fieldIds).map value)) r
        else r)) db := by
  rw [Base.update, List.length_map, Engine.execUpdate, prepareUpdate_updateQuery h hsorted hvalid hcond hmarks]
  simp only [Option.bind_eq_bind, Option.bind_some, strip_append, List.length_map, hmarks, Nat.add_zero, if_true]
  cases readCond [] cond <;> rfl

theorem del_condition (h : e.Accepts table) {cond : Text} (hcond : cond ≠ []) (active : Bool) (db : Tables V) :
    Base.del e table.name cond active db =
      Base.exec active ((readCond [] cond).map fun c => Function.update db table.name.toList
        ((db table.name.toList).filter fun r => !e.holds c r)) db := by
  rw [Base.del, Engine.execDelete, prepareDelete_text h.toReads h.name_ne hcond, Option.map_map]
  rfl

/-! ## What the changes do -/

theorem exec_snd (active : Bool) (statement : Option (Tables V)) (db : Tables V) :
    (Base.exec active statement db).2 = if active then statement.getD db else db := by
  cases active <;> cases statement <;> rfl

theorem record_getD {i : ℕ} (hi : i < table.fieldNames.length) (r : TableRow V) :
    (table.record r).getD i none = r (table.field i) := by
  simp [AliasTable.record, hi]

theorem map_toUInt32 {ids : List ℤ} (h : ∀ id ∈ ids, 0 ≤ id ∧ id < 2 ^ 32) : ids.map toUInt32 = ids := by
  refine (List.map_congr_left fun id hid => ?_).trans (List.map_id ids)
  exact Int.emod_eq_of_lt (h id hid).1 (h id hid).2

/-- The rows with one of the ids in a column. -/
def AliasTable.hasId (table : AliasTable) (e : Engine V) (columnIndex : ℕ) (ids : List ℤ) (r : TableRow V) : Bool :=
  e.isOneOf ids ((table.record r).getD columnIndex none)

/-- **A statement with the text for the ids in a column is about the rows with these ids.** Without an id it is not
executed, which changes nothing either. -/
theorem getD_condition (h : e.Accepts table) {columnIndex : ℕ} (hi : columnIndex < table.fieldNames.length)
    {ids : List ℤ} (hids : ∀ id ∈ ids, 0 ≤ id ∧ id < 2 ^ 32)
    (change : (TableRow V → Bool) → List (TableRow V) → List (TableRow V))
    (hnone : ∀ rows, change (fun _ => false) rows = rows) (db : Tables V) :
    ((readCond [] (getDbFieldInSql (table.fieldNames.getD columnIndex "") ids [])).map fun c =>
        Function.update db table.name.toList (change (e.holds c) (db table.name.toList))).getD db =
      Function.update db table.name.toList (change (table.hasId e columnIndex ids) (db table.name.toList)) := by
  have hplain := h.plain_field hi
  rcases eq_or_ne ids [] with rfl | hne
  · have hfalse : table.hasId e columnIndex [] = fun _ => false := rfl
    rw [readCond_fieldIn_nil hplain, hfalse, hnone, Function.update_eq_self]
    rfl
  · obtain ⟨predicate, hread, hpredicate⟩ := readCond_fieldIn hplain hne
    have hholds : e.holds ⟨(table.fieldNames.getD columnIndex "").toList, predicate⟩ =
        table.hasId e columnIndex ids := by
      funext r
      rw [AliasTable.hasId, record_getD hi, Engine.holds, hpredicate, map_toUInt32 hids]
      rfl
    rw [hread, Option.map_some, Option.getD_some, hholds]

theorem fieldIn_marks (h : e.Accepts table) {columnIndex : ℕ} (hi : columnIndex < table.fieldNames.length)
    (ids : List ℤ) :
    getDbFieldInSql (table.fieldNames.getD columnIndex "") ids [] ≠ [] ∧
      (getDbFieldInSql (table.fieldNames.getD columnIndex "") ids []).count '?' = 0 := by
  obtain ⟨f, hf, he⟩ : ∃ f : String, f ∈ table.fieldNames ∧ table.fieldNames.getD columnIndex "" = f :=
    ⟨_, List.getElem_mem hi, by simp [hi]⟩
  rw [he]
  exact ⟨fieldIn_ne_nil f ids, count_fieldIn (fun hc => (h.plain f hf '?' hc).2 rfl) ids⟩

/-- What a change makes of the rows. -/
def Change.rows (m : Meta O V) (e : Engine V) (table : AliasTable) (rows : List (TableRow V)) :
    Change O → List (TableRow V)
  | .insert obj =>
      rows ++ [assign (((List.range table.fieldNames.length).map table.field).zip
        ((List.range table.fieldNames.length).map (m.valueGetter obj))) fun _ => none]
  | .update obj fieldIds columnIndex ids =>
      rows.map fun r =>
        if table.hasId e columnIndex ids r then
          assign (((inTableOrder table fieldIds).map table.field).zip
            ((inTableOrder table fieldIds).map (m.valueGetter obj))) r
        else r
  | .del columnIndex ids => rows.filter fun r => !table.hasId e columnIndex ids r

/-- **A change is made in its table, and in no other.** -/
theorem exec_eq (h : e.Accepts table) (hlen : table.fieldNames.length = m.columns.length) {c : Change O}
    (hc : c.Valid m) (active : Bool) (db : Tables V) :
    (c.exec m e table active db).2 =
      if active then Function.update db table.name.toList (c.rows m e table (db table.name.toList)) else db := by
  cases c with
  | insert obj =>
      have heq := insert_eq h (m.valueGetter obj) active db
      rw [Change.exec, Meta.toVariantlist, ← hlen, heq, exec_snd]
      rfl
  | update obj fieldIds columnIndex ids =>
      obtain ⟨⟨hsorted, hvalid⟩, hi, hids⟩ := hc
      rw [← hlen] at hi
      obtain ⟨hne, hmarks⟩ := fieldIn_marks h hi ids
      have hwritten : m.written fieldIds = inTableOrder table fieldIds := by rw [inTableOrder_eq hsorted, hlen]; rfl
      have hcond := getD_condition h hi hids (fun p rows => rows.map fun r => if p r then
        assign (((inTableOrder table fieldIds).map table.field).zip
          ((inTableOrder table fieldIds).map (m.valueGetter obj))) r else r) (fun rows => by simp) db
      rw [Change.exec, hwritten, update_condition h hsorted (hlen ▸ hvalid) hne hmarks, exec_snd, hcond]
      rfl
  | del columnIndex ids =>
      obtain ⟨hi, hids⟩ := hc
      rw [← hlen] at hi
      have hcond := getD_condition h hi hids (fun p rows => rows.filter fun r => !p r) (fun rows => by simp) db
      rw [Change.exec, del_condition h (fieldIn_marks h hi ids).1, exec_snd, hcond]
      rfl

/-- **A change does to the records what it is meant to do.** -/
theorem record_rows (h : e.Accepts table) (hlen : table.fieldNames.length = m.columns.length) {c : Change O}
    (hc : c.Valid m) (rows : List (TableRow V)) :
    (c.rows m e table rows).map table.record = c.apply m e (rows.map table.record) := by
  cases c with
  | insert obj =>
      rw [Change.rows, Change.apply, List.map_append, List.map_singleton, Meta.toVariantlist, AliasTable.record, ← hlen]
      refine congrArg (_ ++ [·]) (List.map_congr_left fun i hi => ?_)
      rw [assign_field h.nodup (fun j => List.mem_range.mp) _ _ (List.mem_range.mp hi), if_pos hi]
  | update obj fieldIds columnIndex ids =>
      obtain ⟨⟨hsorted, hvalid⟩, -, -⟩ := hc
      have hwritten : m.written fieldIds = inTableOrder table fieldIds := by rw [inTableOrder_eq hsorted, hlen]; rfl
      rw [Change.rows, Change.apply, List.map_map, List.map_map]
      refine List.map_congr_left fun r _ => ?_
      rw [Function.comp_apply, Function.comp_apply]
      by_cases hid : table.hasId e columnIndex ids r = true
      · rw [if_pos hid, if_pos (show e.isOneOf ids ((table.record r).getD columnIndex none) = true from hid),
          AliasTable.record, ← hlen, hwritten]
        refine List.map_congr_left fun i hi => ?_
        rw [assign_field h.nodup (fun j => mem_inTableOrder (hlen ▸ hvalid)) _ _ (List.mem_range.mp hi),
          record_getD (List.mem_range.mp hi)]
      · rw [if_neg hid, if_neg (show ¬e.isOneOf ids ((table.record r).getD columnIndex none) = true from hid)]
  | del columnIndex ids =>
      rw [Change.rows, Change.apply, List.filter_map]
      rfl

theorem toVariantlist_getD (m : Meta O V) (obj : O) {i : ℕ} (hi : i < m.columns.length) :
    (m.toVariantlist obj).getD i none = m.valueGetter obj i := by
  simp [Meta.toVariantlist, hi]

theorem fits_apply {records : List (List (Option V))} (hrecords : m.Fits records) (c : Change O) :
    m.Fits (c.apply m e records) := by
  intro record hrecord
  cases c with
  | insert obj =>
      rcases List.mem_append.mp hrecord with hrecord | hrecord
      · exact hrecords record hrecord
      · obtain rfl := List.mem_singleton.mp hrecord
        exact ⟨m.length_toVariantlist obj, fun i hi => ⟨obj, (toVariantlist_getD m obj hi).symm⟩⟩
  | update obj fieldIds columnIndex ids =>
      obtain ⟨old, hold, rfl⟩ := List.mem_map.mp hrecord
      split_ifs
      · refine ⟨by simp, fun i hi => ?_⟩
        simp only [List.getD_eq_getElem?_getD, List.getElem?_map, List.getElem?_range hi, Option.map_some,
          Option.getD_some]
        split_ifs
        · exact ⟨obj, rfl⟩
        · exact (hrecords old hold).2 i hi
      · exact hrecords old hold
  | del columnIndex ids => exact hrecords record (List.mem_filter.mp hrecord).1

/-- **Any number of changes do to the records what they are meant to do**, and nothing to other tables. -/
theorem records_execAll (h : e.Accepts table) (hlen : table.fieldNames.length = m.columns.length)
    {changes : List (Change O × Bool)} (hchanges : ∀ c ∈ changes, c.1.Valid m) (db : Tables V) :
    table.records (Change.execAll m e table changes db) = Change.applyAll m e changes (table.records db) ∧
      (m.Fits (table.records db) → m.Fits (Change.applyAll m e changes (table.records db))) ∧
      ∀ t ≠ table.name.toList, Change.execAll m e table changes db t = db t := by
  induction changes generalizing db with
  | nil => exact ⟨rfl, id, fun _ _ => rfl⟩
  | cons c changes ih =>
      obtain ⟨hrecords, hfits, hother⟩ := ih (fun c' hc' => hchanges c' (List.mem_cons_of_mem c hc'))
        (c.1.exec m e table c.2 db).2
      have hc := hchanges c List.mem_cons_self
      have hstep : table.records (c.1.exec m e table c.2 db).2 =
          if c.2 then c.1.apply m e (table.records db) else table.records db := by
        rw [exec_eq h hlen hc, AliasTable.records]
        split_ifs
        · rw [Function.update_self, record_rows h hlen hc]
          rfl
        · rfl
      have hframe : ∀ t ≠ table.name.toList, (c.1.exec m e table c.2 db).2 t = db t := by
        intro t ht
        rw [exec_eq h hlen hc]
        split_ifs
        · exact Function.update_of_ne ht _ _
        · rfl
      rw [hstep] at hrecords hfits
      refine ⟨hrecords, fun hdb => hfits ?_, fun t ht => (hother t ht).trans (hframe t ht)⟩
      split_ifs
      · exact fits_apply hdb c.1
      · exact hdb

/-! ## What is read -/

/-- **A selection gives the records that its condition is about**, in some order. -/
theorem select_perm (h : e.Accepts table) {suffix : Text} (hsuffix : suffix = [] ∨ "WHERE ".toList <+: suffix)
    {cond : Option Cond} (hend : readEnd table.qualifier (suffix ++ [';']) = some cond) {p : List (Option V) → Bool}
    (hp : ∀ r : TableRow V, cond.all (fun c => e.holds c r) = p (table.record r)) (db : Tables V) :
    (Base.select e table suffix true db).Perm ((table.records db).filter p) := by
  have hrecord : ∀ r : TableRow V, (table.fieldNames.map String.toList).map r = table.record r := by
    intro r
    rw [← table.map_field, List.map_map]
    rfl
  rw [Base.select, if_pos rfl, Engine.execSelect, h.prepareSelect_text hsuffix hend, Option.map_some, Option.getD_some]
  simp only [hp, hrecord]
  rw [AliasTable.records, List.filter_map]
  exact (e.order_perm _).map table.record

variable [Inhabited O]

/-- **The objects that are built have the values of these records.** -/
theorem buildList_perm (hm : m.fields.Lawful m.Storable) {suffix : Text} {db : Tables V}
    {records : List (List (Option V))} (hfits : m.Fits records)
    (hselect : (Base.select e table suffix true db).Perm records) :
    ((m.buildList e table suffix true db).map m.toVariantlist).Perm records := by
  rw [Meta.buildList, m.dbBuildList_eq, List.map_map]
  refine (List.Perm.trans ?_ hselect)
  rw [List.map_congr_left (g := id), List.map_id]
  intro record hrecord
  obtain ⟨hlen, hstorable⟩ := hfits record (hselect.mem_iff.mp hrecord)
  exact Meta.toVariantlist_dbBuild hm hlen hstorable

/-- **The objects that are read are those that were written.** Over any changes of a table, whichever of them the
database executes, `db_build_list` and `db_build_item` give the objects that these changes are meant to leave: all of
them, those with some ids in a column, or one with an id, if there is one. -/
theorem objects_read (hm : m.fields.Lawful m.Storable) (usesCommonPrefix : Bool) (commonPrefix dbName : String)
    (h : e.Accepts (m.dbTable usesCommonPrefix commonPrefix dbName)) {changes : List (Change O × Bool)}
    (hchanges : ∀ c ∈ changes, c.1.Valid m) {db : Tables V}
    (hempty : db (m.dbTable usesCommonPrefix commonPrefix dbName).name.toList = []) :
    let table := m.dbTable usesCommonPrefix commonPrefix dbName
    let db' := Change.execAll m e table changes db
    let records := Change.applyAll m e changes []
    ((m.buildList e table [] true db').map m.toVariantlist).Perm records ∧
      (∀ idVect columnIndex, columnIndex < m.columns.length →
        ((m.buildListOf e table idVect columnIndex true db').map m.toVariantlist).Perm
          (records.filter fun record => e.isOneOf idVect (record.getD columnIndex none))) ∧
      (∀ id, m.toVariantlist (m.buildItem e table id true db') ∈
          records.filter (fun record => e.isOneOf [id] (record.getD 0 none)) ∨
        records.filter (fun record => e.isOneOf [id] (record.getD 0 none)) = [] ∧
          m.buildItem e table id true db' = default) ∧
      ∀ t ≠ table.name.toList, db' t = db t := by
  intro table db' records
  have hlen : table.fieldNames.length = m.columns.length := List.length_map _
  have hnone : table.records db = [] := by rw [AliasTable.records, hempty, List.map_nil]
  obtain ⟨hrecords, hfits, hother⟩ := records_execAll h hlen hchanges db
  rw [hnone] at hrecords hfits
  have hfits : m.Fits records := hfits fun record hrecord => nomatch hrecord
  have hfilter : ∀ p : List (Option V) → Bool, m.Fits (records.filter p) :=
    fun p record hrecord => hfits record (List.mem_filter.mp hrecord).1
  refine ⟨?_, fun idVect columnIndex hi => ?_, fun id => ?_, hother⟩
  · have hend : readEnd table.qualifier ([] ++ [';']) = some none := rfl
    have hselect := select_perm h (Or.inl rfl) hend (p := fun _ => true) (fun _ => rfl) db'
    rw [List.filter_true, hrecords] at hselect
    exact buildList_perm hm hfits hselect
  · rcases eq_or_ne idVect [] with rfl | hne
    · rw [Meta.buildListOf, dbGetItemsListSuffix, if_pos (Or.inl rfl)]
      simp [Engine.isOneOf]
    · rw [← hlen] at hi
      obtain ⟨hwhere, hend⟩ := h.readEnd_itemsList hne hi
      have hselect := select_perm h (Or.inr hwhere) hend
        (p := fun record => e.isOneOf idVect (record.getD columnIndex none))
        (fun r => by rw [record_getD hi]; rfl) db'
      rw [hrecords] at hselect
      rw [Meta.buildListOf]
      split_ifs with hsuffix
      · rw [hsuffix] at hwhere
        exact absurd (List.prefix_nil.mp hwhere) (by simp)
      · exact buildList_perm hm (hfilter _) hselect
  · have hpos : 0 < table.fieldNames.length := List.length_pos_iff.mpr h.columns_ne
    obtain ⟨hwhere, hend⟩ := h.readEnd_item id
    have hselect := select_perm h (Or.inr hwhere) hend (p := fun record => e.isOneOf [id] (record.getD 0 none))
      (fun r => by rw [record_getD hpos]; rfl) db'
    rw [hrecords] at hselect
    rw [Meta.buildItem]
    cases hrows : Base.select e table (itemSuffix table id) true db' with
    | nil =>
        rw [hrows] at hselect
        exact Or.inr ⟨hselect.nil_eq.symm, rfl⟩
    | cons record rows =>
        have hmem : record ∈ records.filter fun record => e.isOneOf [id] (record.getD 0 none) :=
          hselect.mem_iff.mp (hrows ▸ List.mem_cons_self)
        obtain ⟨hlength, hstorable⟩ := hfilter _ record hmem
        refine Or.inl ?_
        simp only [Meta.toVariantlist_dbBuild hm hlength hstorable]
        exact hmem

end

/-! ### A class with two columns -/

/-- A pair of an id and a value. -/
def devices : Meta (ℤ × ℤ) ℤ where
  tName := "device"
  tShortName := "d"
  columns := [⟨"id", fun o => some o.1, fun o w => (w.getD 0, o.2)⟩,
    ⟨"n", fun o => some o.2, fun o w => (o.1, w.getD 0)⟩]

theorem devices_lawful : devices.fields.Lawful devices.Storable where
  get_set {o i w} hi hw := by
    obtain ⟨obj, rfl⟩ := hw
    match i, hi with
    | 0, _ => rfl
    | 1, _ => rfl
  get_set_of_ne {o i j w} hi hne := by
    match i, hi, j with
    | 0, _, 1 => rfl
    | 1, _, 0 => rfl
    | 0, _, j + 2 => rfl
    | 1, _, j + 2 => rfl

/-- A database that quotes columns and gives the rows in reverse. -/
def reversing : Engine ℤ where
  toDriver := quoting
  number := some
  order := List.reverse
  order_perm := List.reverse_perm

theorem reversing_accepts : reversing.Accepts (devices.dbTable true "hz_" "") where
  name c hc l := by
    simp only [List.mem_cons, List.not_mem_nil, or_false] at hc
    rcases hc with rfl | rfl <;> simp [reversing, quoting, devices, Meta.dbTable, Meta.tableName]
  field f hf c hc l := by
    have hquote : c ≠ '"' := by
      rintro rfl
      simp at hc
    simp only [devices, Meta.dbTable, List.map_cons, List.map_nil, List.mem_cons, List.not_mem_nil, or_false] at hf
    rcases hf with rfl | rfl <;> simp [reversing, quoting, readQuoted, hquote]
  qualified f hf c hc l := by
    have hquote : c ≠ '"' := by
      rintro rfl
      simp at hc
    simp only [devices, Meta.dbTable, List.map_cons, List.map_nil, List.mem_cons, List.not_mem_nil, or_false] at hf
    rcases hf with rfl | rfl <;>
      simp [reversing, quoting, readQuoted, hquote, AliasTable.qualifier, devices, Meta.dbTable]
  name_ne := by decide
  columns_ne := by decide
  nodup := by decide
  places_name := by decide
  places_shortName := by decide
  places_field := by decide
  plain f hf := by
    simp only [devices, Meta.dbTable, List.map_cons, List.map_nil, List.mem_cons, List.not_mem_nil, or_false] at hf
    rcases hf with rfl | rfl <;> simp [endsName]
  plain_shortName c hc := by
    simp only [devices, Meta.dbTable, String.reduceToList, List.mem_singleton] at hc
    rw [hc]
    rfl
  shortName_ne := by decide

/-- Three objects, one of which the database does not take; one is changed, and one deleted. -/
theorem objects_read_devices :
    ((devices.buildList reversing (devices.dbTable true "hz_" "") [] true
      (Change.execAll devices reversing (devices.dbTable true "hz_" "")
        [(.insert (1, 10), true), (.insert (2, 20), false), (.insert (3, 30), true), (.insert (4, 40), true),
          (.update (0, 99) [1] 0 [3, 2], true), (.del 0 [4], true)] fun _ => [])).map devices.toVariantlist).Perm
      [[some 1, some 10], [some 3, some 99]] :=
  (objects_read devices_lawful true "hz_" "" reversing_accepts (by decide) rfl).1

end HelpzDb
