import Helpz.Lib.Fields
import Helpz.Db.Binding
import Helpz.Db.FieldIn

/-!
# Objects as rows

The classes that `HELPZ_DB_META` describes, and the statements that read and delete their rows.

* `Meta`: the columns of a class; `valueGetter`, `valueSetter`, `toVariantlist`, `dbFillItem`, `dbBuildList`;
* `toVariantlist_dbBuild`: an object that is built from a row has the values of the row in its columns;
* `selectQuery`, `delQuery`, `dbGetItemsListSuffix`, `itemSuffix`: the texts;
* `prepareSelect`, `prepareDelete`, `readCond`: what is read in them; `prepareSelect_text`, `prepareDelete_text`,
  `readCond_text`: a text is read as what it was written from.
-/

namespace HelpzDb

open HelpzLib

/-- A column of `HELPZ_DB_META`: its name, the value that its getter gives to the database (or `NULL`), and what its
setter makes of an object. -/
structure Column (O V : Type) where
  name : String
  getter : O → Option V
  setter : O → Option V → O

/-- What `HELPZ_DB_META` says about a class. -/
structure Meta (O V : Type) where
  tName : String
  tShortName : String
  columns : List (Column O V)

namespace Meta

variable {O V : Type} (m : Meta O V)

/-- `table_name`, with `is_table_use_common_prefix`. -/
def tableName (usesCommonPrefix : Bool) (commonPrefix : String) : String :=
  if usesCommonPrefix then commonPrefix ++ m.tName else m.tName

/-- `db_table`, with `db_table_name`. -/
def dbTable (usesCommonPrefix : Bool) (commonPrefix dbName : String) : AliasTable :=
  let tableName := m.tableName usesCommonPrefix commonPrefix
  ⟨⟨if dbName = "" then tableName else dbName ++ "." ++ tableName, m.columns.map Column.name⟩, m.tShortName⟩

/-- `value_getter`. -/
def valueGetter (obj : O) (pos : ℕ) : Option V :=
  match m.columns[pos]? with
  | some column => column.getter obj
  | none => none

/-- `value_setter`. -/
def valueSetter (obj : O) (pos : ℕ) (value : Option V) : O :=
  match m.columns[pos]? with
  | some column => column.setter obj value
  | none => obj

/-- `to_variantlist`. -/
def toVariantlist (obj : O) : List (Option V) := (List.range m.columns.length).map (m.valueGetter obj)

/-- The columns as the fields of an object. -/
def fields : Fields O (Option V) := ⟨m.columns.length, m.valueGetter, m.valueSetter⟩

/-- `db_fill_item`; `record` is the row that the query is at. -/
def dbFillItem (record : List (Option V)) (item : O) : O :=
  m.fields.fill (fun i => record.getD i none) (min m.columns.length record.length) item

/-- `db_build`, from an object that is default-constructed. -/
def dbBuild [Inhabited O] (record : List (Option V)) : O := m.dbFillItem record default

/-- `db_build_list`: each row of the query is put at the end. -/
def dbBuildList [Inhabited O] (q : List (List (Option V))) : List O :=
  q.foldl (fun c record => c ++ [m.dbBuild record]) []

/-- A value that the getter of a column gives. -/
def Storable (i : ℕ) (w : Option V) : Prop := ∃ obj, m.valueGetter obj i = w

theorem length_toVariantlist (obj : O) : (m.toVariantlist obj).length = m.columns.length := by
  rw [toVariantlist, List.length_map, List.length_range]

theorem dbBuildList_eq [Inhabited O] (q : List (List (Option V))) : m.dbBuildList q = q.map m.dbBuild := by
  have hfold : ∀ (q : List (List (Option V))) (c : List O),
      q.foldl (fun c record => c ++ [m.dbBuild record]) c = c ++ q.map m.dbBuild := by
    intro q
    induction q with
    | nil => simp
    | cons record q ih =>
        intro c
        rw [List.foldl_cons, ih, List.map_cons, List.append_assoc, List.singleton_append]
  exact hfold q []

variable {m}

/-- **An object that is built from a row has the values of the row**, if they are values of its columns. -/
theorem toVariantlist_dbBuild [Inhabited O] (h : m.fields.Lawful m.Storable) {record : List (Option V)}
    (hlen : record.length = m.columns.length) (hrow : ∀ i < m.columns.length, m.Storable i (record.getD i none)) :
    m.toVariantlist (m.dbBuild record) = record := by
  refine List.ext_getElem ((m.length_toVariantlist _).trans hlen.symm) fun i hi hi' => ?_
  rw [hlen] at hi'
  have hmin : min m.columns.length record.length = m.columns.length := by rw [hlen, min_self]
  have hget := h.get_fill le_rfl hrow default i
  rw [if_pos (show i < m.fields.count from hi')] at hget
  simp only [toVariantlist, List.getElem_map, List.getElem_range, dbBuild, dbFillItem, hmin]
  refine hget.trans ?_
  rw [List.getD_eq_getElem?_getD, List.getElem?_eq_getElem (hlen ▸ hi'), Option.getD_some]

end Meta

/-! ## The texts -/

/-- The short name in front of a column. -/
def AliasTable.qualifier (table : AliasTable) : Text :=
  if table.shortName ≠ "" then table.shortName.toList ++ ['.'] else []

theorem AliasTable.map_field (table : AliasTable) :
    (List.range table.fieldNames.length).map table.field = table.fieldNames.map String.toList := by
  refine List.ext_getElem (by simp) fun i hi hi' => ?_
  rw [List.length_map] at hi'
  simp [AliasTable.field, hi']

/-- `select_query`. -/
def selectQuery (d : Driver) (table : AliasTable) (suffix : Text) (fieldIds : List ℕ) : Text :=
  if table.isNull then []
  else
    let tableName :=
      if table.shortName ≠ "" then table.name.toList ++ ' ' :: table.shortName.toList else table.name.toList
    arg (arg (arg "SELECT %1 FROM %2 %3;".toList (join (escapeFields d table fieldIds true))) tableName) suffix

/-- `del_query`. -/
def delQuery (tableName : String) (cond : Text) : Text :=
  if tableName = "" then []
  else
    let sql := "DELETE FROM ".toList ++ tableName.toList
    if cond ≠ [] then sql ++ " WHERE ".toList ++ cond else sql

/-- `db_get_items_list_suffix`, of a class with this table. -/
def dbGetItemsListSuffix (table : AliasTable) (idVect : List ℤ) (columnIndex : ℕ) : Text :=
  if idVect = [] ∨ table.fieldNames.length ≤ columnIndex then []
  else
    let suffix := "WHERE ".toList ++ table.qualifier ++ (table.field columnIndex ++ " IN (".toList)
    let suffix := idVect.foldl (fun suffix id => suffix ++ decimal id ++ [',']) suffix
    suffix.dropLast ++ [')']

/-- The text that `db_build_item` looks for an id with. -/
def itemSuffix (table : AliasTable) (id : ℤ) : Text :=
  "WHERE ".toList ++ table.qualifier ++ (table.field 0 ++ '=' :: decimal id)

/-! ## Reading them -/

/-- A condition: a column, and what its value has to be. -/
structure Cond where
  column : Text
  predicate : Predicate
  deriving DecidableEq, Repr

/-- A column without the short name of its table. -/
def unqualify (qualifier name : Text) : Text := if qualifier <+: name then name.drop qualifier.length else name

/-- What a name in a condition goes up to. -/
def endsName (c : Char) : Bool := c = '=' || c = ' '

/-- A condition on a column. -/
def readCond (qualifier l : Text) : Option Cond :=
  let name := l.takeWhile fun c => !endsName c
  (readTail (l.drop name.length)).map fun predicate => ⟨unqualify qualifier name, predicate⟩

/-- The short name of a table, if there is one in front of a condition or the end. -/
def readShortName (l : Text) : Option (Text × Text) :=
  if l = [';'] ∨ "WHERE ".toList <+: l then some ([], l)
  else
    let shortName := l.takeWhile fun c => c ≠ ' '
    (strip [' '] (l.drop shortName.length)).map fun l => (shortName ++ ['.'], l)

/-- A condition and the end, or the end. -/
def readEnd (qualifier l : Text) : Option (Option Cond) :=
  if l = [';'] then some none
  else if l.getLast? = some ';' then
    (strip "WHERE ".toList l.dropLast).bind fun l => (readCond qualifier l).map some
  else none

/-- What is read in a `SELECT`. -/
structure Selection where
  table : Text
  columns : List Text
  cond : Option Cond
  deriving DecidableEq, Repr

/-- `SELECT column, ..., column FROM table shortName WHERE cond;`. -/
def Driver.prepareSelect (d : Driver) (sql : Text) : Option Selection := do
  let l ← strip "SELECT ".toList sql
  let (columns, l) ← readSeparated d.readField ',' (l.length + 1) l
  let l ← strip " FROM ".toList l
  let (table, l) ← d.readTable l
  let l ← strip [' '] l
  let (qualifier, l) ← readShortName l
  let cond ← readEnd qualifier l
  some ⟨table, columns.map (unqualify qualifier), cond⟩

/-- `DELETE FROM table WHERE cond`. -/
def Driver.prepareDelete (d : Driver) (sql : Text) : Option (Text × Cond) := do
  let l ← strip "DELETE FROM ".toList sql
  let (table, l) ← d.readTable l
  let l ← strip " WHERE ".toList l
  let cond ← readCond [] l
  some (table, cond)

/-- The ids of a predicate. -/
def Predicate.ids : Predicate → List ℤ
  | .eq id => [id]
  | .isIn ids => ids

/-! ### Conditions -/

theorem unqualify_append (qualifier name : Text) : unqualify qualifier (qualifier ++ name) = name := by
  rw [unqualify, if_pos (List.prefix_append _ _), List.drop_left' rfl]

theorem takeWhile_append_cons {p : Char → Bool} {name : Text} (hname : ∀ c ∈ name, p c = true) {c : Char}
    (hc : p c = false) (l : Text) : (name ++ c :: l).takeWhile p = name := by
  rw [List.takeWhile_append_of_pos hname, List.takeWhile_cons_of_neg (by simp [hc]), List.append_nil]

theorem readCond_text (qualifier : Text) {name : Text} (hqualifier : ∀ c ∈ qualifier, endsName c = false)
    (hname : ∀ c ∈ name, endsName c = false) {c : Char} (hc : endsName c = true) {tail : Text} {predicate : Predicate}
    (htail : readTail (c :: tail) = some predicate) :
    readCond qualifier (qualifier ++ (name ++ c :: tail)) = some ⟨name, predicate⟩ := by
  have htake : (qualifier ++ (name ++ c :: tail)).takeWhile (fun c => !endsName c) = qualifier ++ name := by
    rw [← List.append_assoc]
    refine takeWhile_append_cons (fun a ha => ?_) (by simp [hc]) tail
    rcases List.mem_append.mp ha with ha | ha
    · simp [hqualifier a ha]
    · simp [hname a ha]
  rw [readCond, htake, ← List.append_assoc, List.drop_left' rfl, htail, Option.map_some, unqualify_append]

theorem readTail_eq (id : ℤ) : readTail ('=' :: decimal id) = some (.eq id) := by
  rw [readTail, readDecimal_decimal, Option.map_some]

theorem readTail_isIn {ids : List ℤ} (hne : ids ≠ []) :
    readTail (' ' :: ['I', 'N', ' ', '('] ++ ([','].intercalate (ids.map decimal) ++ [')'])) = some (.isIn ids) := by
  simp [readTail, readDecimals_intercalate hne]

theorem foldl_decimals (text : Text) (ids : List ℤ) :
    ids.foldl (fun text id => text ++ decimal id ++ [',']) text = text ++ commaList ids := by
  induction ids generalizing text with
  | nil => simp [commaList]
  | cons id ids ih =>
      rw [List.foldl_cons, ih, commaList_cons]
      simp only [List.append_assoc]

/-- **The text for a list of ids is a condition on the field, with the ids as 32-bit ones.** -/
theorem readCond_fieldIn {fieldName : String} (hname : ∀ c ∈ fieldName.toList, endsName c = false) {ids : List ℤ}
    (hne : ids ≠ []) :
    ∃ predicate, readCond [] (getDbFieldInSql fieldName ids []) = some ⟨fieldName.toList, predicate⟩ ∧
      predicate.ids = ids.map toUInt32 := by
  have hmap : ids.map toUInt32 ≠ [] := by simpa using hne
  have hnone : ∀ c ∈ ([] : Text), endsName c = false := fun c hc => nomatch hc
  rw [getDbFieldInSql_eq, written, List.append_nil, List.length_nil, Nat.zero_add]
  split_ifs with hone
  · obtain ⟨id, rfl⟩ := List.length_eq_one_iff.mp hone
    refine ⟨.eq (toUInt32 id), ?_, rfl⟩
    have hread := readCond_text [] hnone hname (c := '=') rfl (readTail_eq (toUInt32 id))
    rw [← hread, commaList_eq hmap, ← List.append_assoc, List.dropLast_concat]
    simp
  · refine ⟨.isIn (ids.map toUInt32), ?_, rfl⟩
    have hread := readCond_text [] hnone hname (c := ' ') rfl (readTail_isIn hmap)
    rw [← hread, commaList_eq hmap, ← List.append_assoc, List.dropLast_concat]
    simp

/-! ### Deleting -/

/-- **A deletion is read as its table and its condition.** -/
theorem prepareDelete_text {d : Driver} {table : AliasTable} (hreads : d.Reads table) (hname : table.name ≠ "")
    {cond : Text} (hcond : cond ≠ []) :
    d.prepareDelete (delQuery table.name cond) = (readCond [] cond).map fun c => (table.name.toList, c) := by
  have htable := hreads.name ' ' (by simp) (['W', 'H', 'E', 'R', 'E', ' '] ++ cond)
  rw [delQuery, if_neg hname, if_pos hcond, Driver.prepareDelete]
  have hdelete := strip_append "DELETE FROM ".toList
    (table.name.toList ++ ' ' :: (['W', 'H', 'E', 'R', 'E', ' '] ++ cond))
  have hwhere := strip_append " WHERE ".toList cond
  simp only [String.reduceToList, List.append_assoc, List.cons_append, List.nil_append, Option.bind_eq_bind]
    at htable hdelete hwhere ⊢
  rw [hdelete, Option.bind_some, htable, Option.bind_some, hwhere, Option.bind_some]
  cases readCond [] cond <;> rfl

/-! ### Selecting -/

theorem selectText {columns source : Text} (hcolumns : places columns = []) (hsource : places source = [])
    (suffix : Text) :
    arg (arg (arg "SELECT %1 FROM %2 %3;".toList columns) source) suffix =
      "SELECT ".toList ++ (columns ++ (" FROM ".toList ++ (source ++ ' ' :: (suffix ++ [';'])))) := by
  have hspace : EndsPlace ' ' := ⟨rfl, by decide⟩
  simp only [String.reduceToList]
  have hselect : places (['S', 'E', 'L', 'E', 'C', 'T', ' '] ++ columns) = [] := by simpa [places] using hcolumns
  have hfrom : places (['S', 'E', 'L', 'E', 'C', 'T', ' '] ++ columns ++ [' ', 'F', 'R', 'O', 'M']) = [] := by
    rw [places_append hselect hspace]
    decide
  have hall : places (['S', 'E', 'L', 'E', 'C', 'T', ' '] ++ columns ++ [' ', 'F', 'R', 'O', 'M'] ++ ' ' :: source) =
      [] := by
    rw [places_append hfrom hspace]
    simpa [places] using hsource
  have h1 := arg_append (show places ['S', 'E', 'L', 'E', 'C', 'T'] = [] by decide) hspace (n := 1)
    (l := ['%', '1', ' ', 'F', 'R', 'O', 'M', ' ', '%', '2', ' ', '%', '3', ';']) (by decide) columns
  have h2 := arg_append hfrom hspace (n := 2) (l := ['%', '2', ' ', '%', '3', ';']) (by decide) source
  have h3 := arg_append hall hspace (n := 3) (l := ['%', '3', ';']) (by decide) suffix
  simp only [fill, place, placeNumber, List.append_assoc, List.cons_append, List.nil_append, List.cons.injEq,
    ↓Char.isValue, Char.reduceEq, Char.reduceIsDigit, Char.reduceToNat, Nat.reduceSub, OfNat.ofNat_ne_one,
    Nat.succ_ne_self, Bool.false_eq_true, ↓reduceIte, false_and, imp_self, implies_true] at h1 h2 h3 ⊢
  rw [h1, h2, h3]

theorem escapeFields_qualified (d : Driver) (table : AliasTable) : escapeFields d table [] true =
    table.fieldNames.map fun f => d.escapeIdentifier (table.qualifier ++ f.toList) := by
  have hall : (List.range table.fieldNames.length).filter
      (fun i => ([] : List ℕ).isEmpty || ([] : List ℕ).contains i) = List.range table.fieldNames.length :=
    List.filter_eq_self.mpr fun _ _ => rfl
  have hmap := congrArg (List.map fun f => d.escapeIdentifier (table.qualifier ++ f)) table.map_field
  rw [List.map_map, List.map_map] at hmap
  rw [escapeFields, hall]
  refine Eq.trans ?_ hmap
  simp only [AliasTable.qualifier, Bool.true_and, decide_eq_true_eq]
  rfl

/-- The names of a table are read as they are meant, in each of the statements, and hold no places. In a condition
columns are written as they are, so that there is nothing in them that ends a name. -/
structure Driver.Accepts (d : Driver) (table : AliasTable) : Prop extends d.Reads table where
  qualified : ∀ f : String, f ∈ table.fieldNames → ∀ c ∈ [',', ' '], ∀ l,
    d.readField (d.escapeIdentifier (table.qualifier ++ f.toList) ++ c :: l) =
      some (table.qualifier ++ f.toList, c :: l)
  name_ne : table.name ≠ ""
  columns_ne : table.fieldNames ≠ []
  nodup : table.fieldNames.Nodup
  places_name : places table.name.toList = []
  places_shortName : places table.shortName.toList = []
  places_field : ∀ f : String, f ∈ table.fieldNames → places (d.escapeIdentifier f.toList) = [] ∧
    places (d.escapeIdentifier (table.qualifier ++ f.toList)) = []
  plain : ∀ f : String, f ∈ table.fieldNames → ∀ c ∈ f.toList, endsName c = false ∧ c ≠ '?'
  plain_shortName : ∀ c ∈ table.shortName.toList, endsName c = false
  shortName_ne : table.shortName ≠ "WHERE"

namespace Driver.Accepts

variable {d : Driver} {table : AliasTable}

theorem not_isNull (h : d.Accepts table) : table.isNull = false := by
  simp [AliasTable.isNull, h.name_ne, h.columns_ne]

theorem plain_field (h : d.Accepts table) {i : ℕ} (hi : i < table.fieldNames.length) :
    ∀ c ∈ table.field i, endsName c = false := by
  obtain ⟨f, hf, he⟩ := field_mem hi
  rw [he]
  exact fun c hc => (h.plain f hf c hc).1

theorem plain_qualifier (h : d.Accepts table) : ∀ c ∈ table.qualifier, endsName c = false := by
  intro c hc
  rw [AliasTable.qualifier] at hc
  split_ifs at hc
  · rcases List.mem_append.mp hc with hc | hc
    · exact h.plain_shortName c hc
    · rw [List.mem_singleton.mp hc]
      rfl
  · cases hc

theorem readShortName_text (h : d.Accepts table) {suffix : Text} (hsuffix : suffix = [] ∨ "WHERE ".toList <+: suffix) :
    readShortName ((if table.shortName ≠ "" then table.shortName.toList ++ [' '] else []) ++ (suffix ++ [';'])) =
      some (table.qualifier, suffix ++ [';']) := by
  rw [readShortName, AliasTable.qualifier]
  by_cases hempty : table.shortName ≠ ""
  · have hspace : ∀ c ∈ table.shortName.toList, decide (c ≠ ' ') = true := by
      intro c hc
      have hplain := h.plain_shortName c hc
      simp only [endsName, Bool.or_eq_false_iff, decide_eq_false_iff_not] at hplain
      exact decide_eq_true hplain.2
    have htake := takeWhile_append_cons hspace (c := ' ') (by decide) (suffix ++ [';'])
    rw [if_pos hempty, if_pos hempty, List.append_assoc, List.singleton_append, if_neg]
    · simp only [htake, List.drop_left', strip_cons, Option.map_some]
    · rintro (hend | ⟨l, hl⟩)
      · have hlen := congrArg List.length hend
        simp only [List.length_append, List.length_cons, List.length_nil] at hlen
        omega
      · rw [← hl] at htake
        exact h.shortName_ne (String.ext htake.symm)
  · rw [if_neg hempty, if_neg hempty, List.nil_append, if_pos]
    rcases hsuffix with rfl | hwhere
    · exact Or.inl rfl
    · exact Or.inr (hwhere.trans (List.prefix_append _ _))

/-- **A selection is read as the columns of the table and what the suffix is read as.** -/
theorem prepareSelect_text (h : d.Accepts table) {suffix : Text} (hsuffix : suffix = [] ∨ "WHERE ".toList <+: suffix)
    {cond : Option Cond} (hend : readEnd table.qualifier (suffix ++ [';']) = some cond) :
    d.prepareSelect (selectQuery d table suffix []) =
      some ⟨table.name.toList, table.fieldNames.map String.toList, cond⟩ := by
  have hcolumns : places (join (escapeFields d table [] true)) = [] := by
    rw [escapeFields_qualified]
    refine places_join fun x hx => ?_
    obtain ⟨f, hf, rfl⟩ := List.mem_map.mp hx
    exact (h.places_field f hf).2
  have hsource : places (if table.shortName ≠ "" then table.name.toList ++ ' ' :: table.shortName.toList
      else table.name.toList) = [] := by
    split_ifs
    · rw [places_append h.places_name ⟨rfl, by decide⟩]
      simpa [places] using h.places_shortName
    · exact h.places_name
  set shortName : Text := if table.shortName ≠ "" then table.shortName.toList ++ [' '] else [] with hshort
  have hfrom : (if table.shortName ≠ "" then table.name.toList ++ ' ' :: table.shortName.toList
      else table.name.toList) ++ ' ' :: (suffix ++ [';']) =
        table.name.toList ++ ' ' :: (shortName ++ (suffix ++ [';'])) := by
    rw [hshort]
    split_ifs <;> simp
  have hfields := readSeparated_append d.readField ','
    (fun f : String => d.escapeIdentifier (table.qualifier ++ f.toList)) (fun f => table.qualifier ++ f.toList)
    h.columns_ne (" FROM ".toList ++ (table.name.toList ++ ' ' :: (shortName ++ (suffix ++ [';'])))) (by simp)
    (fun f hf l => h.qualified f hf ',' (by simp) l)
    (fun f hf => by
      simp only [String.reduceToList, List.cons_append]
      exact h.qualified f hf ' ' (by simp) _)
  have htable := h.name ' ' (by simp) (shortName ++ (suffix ++ [';']))
  have hunqualify : (table.fieldNames.map fun f => table.qualifier ++ f.toList).map (unqualify table.qualifier) =
      table.fieldNames.map String.toList := by
    rw [List.map_map]
    exact List.map_congr_left fun f _ => unqualify_append _ _
  rw [selectQuery, if_neg (by simp [h.not_isNull])]
  rw [Driver.prepareSelect, selectText hcolumns hsource, hfrom, escapeFields_qualified, strip_append]
  simp only [join, Option.bind_eq_bind, Option.bind_some, hfields, strip_append, htable, strip_cons]
  rw [h.readShortName_text hsuffix, Option.bind_some, hend, Option.bind_some, hunqualify]

theorem readEnd_where (qualifier l : Text) :
    readEnd qualifier ("WHERE ".toList ++ l ++ [';']) = (readCond qualifier l).map some := by
  have hne : "WHERE ".toList ++ l ++ [';'] ≠ [';'] := by
    intro he
    have hlen := congrArg List.length he
    simp only [String.reduceToList, List.length_append, List.length_cons, List.length_nil] at hlen
    omega
  rw [readEnd, if_neg hne, if_pos List.getLast?_concat, List.dropLast_concat, strip_append, Option.bind_some]

/-- **The suffix for a list of ids is read as these ids.** -/
theorem readEnd_itemsList (h : d.Accepts table) {idVect : List ℤ} (hne : idVect ≠ []) {columnIndex : ℕ}
    (hi : columnIndex < table.fieldNames.length) :
    "WHERE ".toList <+: dbGetItemsListSuffix table idVect columnIndex ∧
      readEnd table.qualifier (dbGetItemsListSuffix table idVect columnIndex ++ [';']) =
        some (some ⟨table.field columnIndex, .isIn idVect⟩) := by
  have htext : dbGetItemsListSuffix table idVect columnIndex = "WHERE ".toList ++ (table.qualifier ++
      (table.field columnIndex ++
        ' ' :: (['I', 'N', ' ', '('] ++ ([','].intercalate (idVect.map decimal) ++ [')'])))) := by
    rw [dbGetItemsListSuffix, if_neg (by simp [hne, hi])]
    simp only [foldl_decimals, commaList_eq hne]
    rw [← List.append_assoc _ _ [','], List.dropLast_concat]
    simp
  have hcond := readCond_text table.qualifier h.plain_qualifier (h.plain_field hi) (c := ' ') rfl (readTail_isIn hne)
  rw [htext]
  refine ⟨List.prefix_append _ _, ?_⟩
  rw [readEnd_where]
  exact congrArg (Option.map some) hcond

theorem readEnd_item (h : d.Accepts table) (id : ℤ) :
    "WHERE ".toList <+: itemSuffix table id ∧
      readEnd table.qualifier (itemSuffix table id ++ [';']) = some (some ⟨table.field 0, .eq id⟩) := by
  have hpos : 0 < table.fieldNames.length := List.length_pos_iff.mpr h.columns_ne
  have hcond := readCond_text table.qualifier h.plain_qualifier (h.plain_field hpos) (c := '=') rfl (readTail_eq id)
  have htext : itemSuffix table id = "WHERE ".toList ++ (table.qualifier ++ (table.field 0 ++ '=' :: decimal id)) :=
    List.append_assoc _ _ _
  rw [htext]
  refine ⟨List.prefix_append _ _, ?_⟩
  rw [readEnd_where]
  exact congrArg (Option.map some) hcond

end Driver.Accepts

end HelpzDb
