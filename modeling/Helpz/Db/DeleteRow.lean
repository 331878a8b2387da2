import Helpz.Lib.Updates
import Mathlib.Data.Int.Notation

/-!
# Deleting a row with what depends on it

* `DeleteRowInfo`: the tree of tables, each child with the field that refers to its parent;
* `Where.holds`, `Statement.toUpdate`: what the SQL statements of `Base::update` and `Base::del` do;
* `delImpl`, `del`: `Delete_Row_Helper`, statement by statement, until one fails.
-/

namespace HelpzDb

open HelpzLib

/-- `Table`. -/
structure Table where
  name : String
  fieldNames : List String

/-- `Delete_Row_Info`. -/
structure DeleteRowInfo where
  setNull : Bool
  fieldI : ℤ
  pkI : ℤ
  table : Table
  childs : List DeleteRowInfo

namespace DeleteRowInfo

def tableName (d : DeleteRowInfo) : String := d.table.name

/-- A column of the table, or the empty string. -/
def column (d : DeleteRowInfo) (i : ℤ) : String :=
  if i < 0 ∨ d.table.fieldNames.length ≤ i then "" else d.table.fieldNames.getD i.toNat ""

def fieldName (d : DeleteRowInfo) : String := d.column d.fieldI

def pkName (d : DeleteRowInfo) : String := d.column d.pkI

theorem induct {P : DeleteRowInfo → Prop} (step : ∀ d : DeleteRowInfo, (∀ c ∈ d.childs, P c) → P d) (d : DeleteRowInfo) :
    P d := by
  apply step d
  intro c hc
  have hlt : sizeOf c < sizeOf d := by
    cases d with
    | mk setNull fieldI pkI table childs =>
        have hlt : sizeOf c < sizeOf childs := List.sizeOf_lt_of_mem hc
        simp only [DeleteRowInfo.mk.sizeOf_spec]
        omega
  exact induct step c
termination_by sizeOf d

end DeleteRowInfo

/-- A row has a value or `NULL` in each column. -/
abbrev Row (V : Type) : Type := String → Option V

/-- The rows of each table. -/
abbrev Database (V : Type) : Type := String → List (Row V)

/-- The conditions of the statements: `field = id`, and
`field IN(SELECT pk FROM table WHERE parentField = id)`. -/
inductive Where (V : Type)
  | eq (field : String) (id : V)
  | inSelect (field pk table parentField : String) (id : V)

/-- `UPDATE table SET field = NULL WHERE cond` and `DELETE FROM table WHERE cond`. -/
inductive Statement (V : Type)
  | update (table field : String) (cond : Where V)
  | del (table : String) (cond : Where V)

variable {V : Type} [DecidableEq V]

namespace Where

/-- Whether a row meets the condition. `NULL` is not equal to anything. -/
def holds (db : Database V) : Where V → Row V → Bool
  | .eq field id, r => r field = some id
  | .inSelect field pk table parentField id, r =>
      (db table).any fun q => q parentField = some id && (r field).isSome && q pk = r field

/-- The table a subselect reads. -/
def reads : Where V → Option String
  | .eq _ _ => none
  | .inSelect _ _ table _ _ => some table

theorem holds_update {w : Where V} {t : String} (h : w.reads ≠ some t) (db : Database V)
    (rows : List (Row V)) : w.holds (Function.update db t rows) = w.holds db := by
  funext r
  cases w with
  | eq field id => rfl
  | inSelect field pk table parentField id =>
      have hne : table ≠ t := fun e => h (congrArg some e)
      rw [holds, holds, Function.update_of_ne hne]

end Where

namespace Statement

def table : Statement V → String
  | .update t _ _ => t
  | .del t _ => t

def cond : Statement V → Where V
  | .update _ _ w => w
  | .del _ w => w

/-- What the statement makes of its table. -/
def toUpdate : Statement V → Update String (List (Row V))
  | .update t field w =>
      ⟨t, fun db => (db t).map fun r => if w.holds db r then Function.update r field none else r⟩
  | .del t w => ⟨t, fun db => (db t).filter fun r => !w.holds db r⟩

@[simp] theorem key_toUpdate (st : Statement V) : st.toUpdate.key = st.table := by cases st <;> rfl

theorem blind {a b : Statement V} (ht : a.table ≠ b.table) (hr : b.cond.reads ≠ some a.table) :
    Update.Blind a.toUpdate b.toUpdate := by
  constructor
  · rw [key_toUpdate, key_toUpdate]
    exact Ne.symm ht
  · intro db rows
    rw [key_toUpdate]
    generalize a.table = t at ht hr
    have hw : b.cond.holds (Function.update db t rows) = b.cond.holds db := Where.holds_update hr db rows
    have hrows : Function.update db t rows b.table = db b.table := Function.update_of_ne (Ne.symm ht) _ _
    cases b with
    | update t field w =>
        simp only [cond, table] at hw hrows
        simp only [toUpdate, hw, hrows]
    | del t w =>
        simp only [cond, table] at hw hrows
        simp only [toUpdate, hw, hrows]

end Statement

/-- `Base::update` and `Base::del`. `active` says whether the query that comes back `isActive`; without a table
name there is no query. A failed statement is thrown with the database as it is. -/
def exec (active : Database V → Statement V → Bool) (db : Database V) (st : Statement V) :
    Except (Database V) (Database V) :=
  if st.table = "" || !active db st then .error db else .ok (st.toUpdate.apply db)

/-- The statement for a child. -/
def DeleteRowInfo.remove (d : DeleteRowInfo) (w : Where V) : Statement V :=
  if d.setNull then .update d.tableName d.fieldName w else .del d.tableName w

/-- The condition `del_impl` uses for `d` below `parent`. -/
def implWhere (id : V) (parent d : DeleteRowInfo) : Where V :=
  if d.setNull && d.tableName = parent.tableName then .eq parent.pkName id
  else .inSelect d.fieldName parent.pkName parent.tableName parent.fieldName id

mutual

/-- `del_impl`. -/
def delImpl (active : Database V → Statement V → Bool) (id : V) :
    DeleteRowInfo → Database V → Except (Database V) (Database V)
  | ⟨setNull, fieldI, pkI, table, childs⟩, db =>
      delImplChilds active id ⟨setNull, fieldI, pkI, table, childs⟩ childs db

/-- The loop of `del_impl`. -/
def delImplChilds (active : Database V → Statement V → Bool) (id : V) (parent : DeleteRowInfo) :
    List DeleteRowInfo → Database V → Except (Database V) (Database V)
  | [], db => .ok db
  | d :: childs, db => do
      let db ← delImpl active id d db
      let db ← exec active db (d.remove (implWhere id parent d))
      delImplChilds active id parent childs db

end

/-- The body of the loop of `del`. -/
def delChild (active : Database V → Statement V → Bool) (id : V) (d : DeleteRowInfo) (db : Database V) :
    Except (Database V) (Database V) :=
  if d.setNull then exec active db (.update d.tableName d.fieldName (.eq d.fieldName id))
  else do
    let db ← delImpl active id d db
    exec active db (.del d.tableName (.eq d.fieldName id))

/-- The loop of `del`. -/
def delChilds (active : Database V → Statement V → Bool) (id : V) :
    List DeleteRowInfo → Database V → Except (Database V) (Database V)
  | [], db => .ok db
  | d :: childs, db => do
      let db ← delChild active id d db
      delChilds active id childs db

/-- `del`: its result, and the database it leaves. -/
def del (active : Database V → Statement V → Bool) (id : V) (rowInfo : DeleteRowInfo) (db : Database V) :
    Bool × Database V :=
  let run := do
    let db ← delChilds active id rowInfo.childs db
    exec active db (.del rowInfo.tableName (.eq rowInfo.pkName id))
  match run with
  | .ok db => (true, db)
  | .error db => (false, db)

end HelpzDb
