import Helpz.Lib.Decimal
import Helpz.Db.DeleteRow
import Helpz.Db.Placeholders

/-!
# The predicate for a list of ids

* `getDbFieldInSql`: `get_db_field_in_sql`, with the list of ids and the ids given one by one;
* `Predicate`, `readPredicate`: what SQL reads in such a text;
* `MeansMembership`: what is expected of the text; `means_iff`: it is so exactly if there is an id, and the ids of the
  list are 32-bit ones. They are converted to `uint32_t` on the way, and without an id there is no list.
-/

namespace HelpzDb

open HelpzLib

/-- The conversion to `uint32_t`. -/
def toUInt32 (id : ℤ) : ℤ := id % 2 ^ 32

/-- `get_db_field_in_sql`: `idList` is the container, `ids` are the other arguments. -/
def getDbFieldInSql (fieldName : String) (idList ids : List ℤ) : Text :=
  let one := ids.length + idList.length = 1
  let sql : Text := fieldName.toList ++ if one then ['='] else [' ', 'I', 'N', ' ', '(']
  let sql := idList.foldl (fun sql id => sql ++ decimal (toUInt32 id) ++ [',']) sql
  let sql := if ids.length ≠ 0 then sql ++ commaList ids else sql
  if one then sql.dropLast else sql.dropLast ++ [')']

/-- `field=id` and `field IN (id, ..., id)`. -/
inductive Predicate
  | eq (id : ℤ)
  | isIn (ids : List ℤ)
  deriving DecidableEq, Repr

/-- Whether a row meets the predicate. -/
def Predicate.holds (fieldName : String) (r : Row ℤ) : Predicate → Prop
  | .eq id => r fieldName = some id
  | .isIn ids => ∃ id ∈ ids, r fieldName = some id

/-- What follows the name of the field. -/
def readTail : Text → Option Predicate
  | '=' :: l => (readDecimal l).map .eq
  | ' ' :: 'I' :: 'N' :: ' ' :: '(' :: l =>
      if l.getLast? = some ')' then (readDecimals l.dropLast).map .isIn else none
  | _ => none

/-- The predicate on the field that a text is. -/
def readPredicate (fieldName : String) (sql : Text) : Option Predicate :=
  if fieldName.toList <+: sql then readTail (sql.drop fieldName.toList.length) else none

/-- The text is a predicate, and a row meets it if the value of its field is one of the ids. -/
def MeansMembership (fieldName : String) (idList ids : List ℤ) : Prop :=
  ∃ w, readPredicate fieldName (getDbFieldInSql fieldName idList ids) = some w ∧
    ∀ r : Row ℤ, w.holds fieldName r ↔ ∃ id ∈ idList ++ ids, r fieldName = some id

/-- There is an id, and each id of the list is a 32-bit one, or else it is among the other ids and its low 32 bits
are one of the given ids. -/
def Narrow (idList ids : List ℤ) : Prop :=
  idList ++ ids ≠ [] ∧
    ∀ id ∈ idList, (0 ≤ id ∧ id < 2 ^ 32) ∨ (id ∈ ids ∧ id % 2 ^ 32 ∈ idList ++ ids)

/-- The ids in the text. -/
def written (idList ids : List ℤ) : List ℤ := idList.map toUInt32 ++ ids

variable {fieldName : String} {idList ids : List ℤ}

theorem foldl_ids (sql : Text) (idList : List ℤ) :
    idList.foldl (fun sql id => sql ++ decimal (toUInt32 id) ++ [',']) sql =
      sql ++ commaList (idList.map toUInt32) := by
  induction idList generalizing sql with
  | nil => simp [commaList]
  | cons id idList ih =>
      rw [List.foldl_cons, ih, List.map_cons, commaList_cons]
      simp only [List.append_assoc]

theorem getDbFieldInSql_eq (fieldName : String) (idList ids : List ℤ) :
    getDbFieldInSql fieldName idList ids =
      if ids.length + idList.length = 1 then
        (fieldName.toList ++ ['='] ++ commaList (written idList ids)).dropLast
      else (fieldName.toList ++ [' ', 'I', 'N', ' ', '('] ++ commaList (written idList ids)).dropLast ++ [')'] := by
  have hids : ∀ sql : Text, (if ids.length ≠ 0 then sql ++ commaList ids else sql) = sql ++ commaList ids := by
    intro sql
    cases ids with
    | nil => simp [commaList]
    | cons id ids => rw [if_pos (by simp)]
  simp only [getDbFieldInSql, foldl_ids, hids]
  split_ifs with hone <;> rw [written, commaList_append, List.append_assoc]

theorem readPredicate_append (fieldName : String) (tail : Text) :
    readPredicate fieldName (fieldName.toList ++ tail) = readTail tail := by
  rw [readPredicate, if_pos (List.prefix_append _ _), List.drop_left' rfl]

/-- **With an id, the text is a predicate with the ids that are written into it.** -/
theorem readPredicate_written (fieldName : String) (h : idList ++ ids ≠ []) :
    ∃ w, readPredicate fieldName (getDbFieldInSql fieldName idList ids) = some w ∧
      ∀ r : Row ℤ, w.holds fieldName r ↔ ∃ id ∈ written idList ids, r fieldName = some id := by
  have hne : written idList ids ≠ [] := by simpa [written] using h
  rw [getDbFieldInSql_eq]
  split_ifs with hone
  · obtain ⟨id, hid⟩ : ∃ id, written idList ids = [id] := by
      refine List.length_eq_one_iff.mp ?_
      rw [written, List.length_append, List.length_map, Nat.add_comm]
      exact hone
    refine ⟨.eq id, ?_, fun r => by simp [Predicate.holds, hid]⟩
    rw [commaList_eq hne, ← List.append_assoc, List.dropLast_concat, List.append_assoc, readPredicate_append, hid]
    simp [readTail, readDecimal_decimal]
  · refine ⟨.isIn (written idList ids), ?_, fun r => Iff.rfl⟩
    rw [commaList_eq hne, ← List.append_assoc, List.dropLast_concat, List.append_assoc, List.append_assoc,
      readPredicate_append]
    simp [readTail, readDecimals_intercalate hne]

theorem readPredicate_nil (fieldName : String) : readPredicate fieldName (getDbFieldInSql fieldName [] []) = none := by
  have htext : fieldName.toList ++ [' ', 'I', 'N', ' ', '('] ++ commaList (written [] []) =
      fieldName.toList ++ [' ', 'I', 'N', ' '] ++ ['('] := by simp [written, commaList]
  rw [getDbFieldInSql_eq, if_neg (by decide), htext, List.dropLast_concat, List.append_assoc, readPredicate_append]
  rfl

theorem means_iff_written : MeansMembership fieldName idList ids ↔
    idList ++ ids ≠ [] ∧ ∀ id, id ∈ written idList ids ↔ id ∈ idList ++ ids := by
  constructor
  · rintro ⟨w, hread, hw⟩
    have hne : idList ++ ids ≠ [] := by
      intro hnil
      obtain ⟨rfl, rfl⟩ := List.append_eq_nil_iff.mp hnil
      rw [readPredicate_nil] at hread
      cases hread
    refine ⟨hne, fun id => ?_⟩
    obtain ⟨w', hread', hw'⟩ := readPredicate_written fieldName hne
    obtain rfl := Option.some.inj (hread.symm.trans hread')
    have hrow := (hw' fun _ => some id).symm.trans (hw fun _ => some id)
    simpa using hrow
  · rintro ⟨hne, hids⟩
    obtain ⟨w, hread, hw⟩ := readPredicate_written fieldName hne
    exact ⟨w, hread, fun r => (hw r).trans (exists_congr fun id => and_congr_left' (hids id))⟩

/-- **The text means membership exactly if there is an id and the list holds 32-bit ids**, up to ids that are also
given one by one. -/
theorem means_iff (fieldName : String) (idList ids : List ℤ) :
    MeansMembership fieldName idList ids ↔ Narrow idList ids := by
  rw [means_iff_written, Narrow]
  refine and_congr_right fun _ => ⟨fun h id hid => ?_, fun h id => ⟨fun hw => ?_, fun hg => ?_⟩⟩
  · have hgiven := (h id).mpr (List.mem_append_left _ hid)
    have hlow := (h (id % 2 ^ 32)).mp (List.mem_append_left _ (List.mem_map_of_mem hid))
    rcases List.mem_append.mp hgiven with hmap | hmem
    · obtain ⟨id', _, rfl⟩ := List.mem_map.mp hmap
      exact Or.inl ⟨Int.emod_nonneg _ (by decide), Int.emod_lt_of_pos _ (by decide)⟩
    · exact Or.inr ⟨hmem, hlow⟩
  · rcases List.mem_append.mp hw with hmap | hmem
    · obtain ⟨id', hid', rfl⟩ := List.mem_map.mp hmap
      rcases h id' hid' with ⟨h0, hlt⟩ | ⟨_, hlow⟩
      · rw [toUInt32, Int.emod_eq_of_lt h0 hlt]
        exact List.mem_append_left _ hid'
      · exact hlow
    · exact List.mem_append_right _ hmem
  · rcases List.mem_append.mp hg with hmem | hmem
    · rcases h id hmem with ⟨h0, hlt⟩ | ⟨hids, _⟩
      · refine List.mem_append_left _ (List.mem_map.mpr ⟨id, hmem, ?_⟩)
        exact Int.emod_eq_of_lt h0 hlt
      · exact List.mem_append_right _ hids
    · exact List.mem_append_right _ hmem

/-- **A negative id becomes another one, and without an id the text is no predicate.** -/
theorem negative_id_replaced : ¬ ∀ fieldName idList ids, MeansMembership fieldName idList ids := by
  intro h
  have hids := (means_iff_written.mp (h "id" [-1] [])).2 (-1)
  revert hids
  decide

example : getDbFieldInSql "id" [-1] [] = "id=4294967295".toList := by decide

example : getDbFieldInSql "id" [] [] = "id IN )".toList := by decide

end HelpzDb
