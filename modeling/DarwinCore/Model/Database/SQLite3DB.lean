import Mathlib.Data.Int.Notation
import Mathlib.Data.List.Basic

/-! # `SQLite3DB`

The rows of a result set, and with what code it ends, are a parameter. -/

namespace DarwinCore.Sqlite

abbrev Text := List Char

/-- What the callback gets for a column: none is a null pointer. -/
structure Column where
  name : Text
  value : Option Text
  deriving DecidableEq

/-- `emplace`, which keeps what is there. -/
def emplace {α β : Type*} [DecidableEq α] (key : α) (value : β) (map : α → Option β) :
    α → Option β :=
  fun k => if k = key then (map key).or (some value) else map k

structure Record where
  size : ℤ
  nameValueMap : Text → Option Text := fun _ => none
  indexNameMap : ℤ → Option Text := fun _ => none

namespace Record

/-- `name(index, value)`: what `value` is then. -/
def name (r : Record) (index : ℤ) (value : Text) : Text :=
  if index < 0 ∨ r.size ≤ index then value else (r.indexNameMap index).getD value

/-- `value(name, value)`. -/
def valueOf (r : Record) (name value : Text) : Text :=
  if name.isEmpty then value else (r.nameValueMap name).getD value

/-- `value(index, value)`. -/
def value (r : Record) (index : ℤ) (value : Text) : Text :=
  if (r.name index []).isEmpty then value else r.valueOf (r.name index []) value

/-- The turns of the loop of `exe_callback` from `i` on; none if a null pointer is read. -/
def fill : List Column → ℤ → Record → Option Record
  | [], _, r => some r
  | column :: rest, i, r =>
      match column.value with
      | none => none
      | some value =>
          fill rest (i + 1)
            { r with
              indexNameMap := emplace i column.name r.indexNameMap
              nameValueMap := emplace column.name value r.nameValueMap }

end Record

/-- `SQLITE_OK`. -/
def sqliteOk : ℤ := 0

/-- `exe_callback`: its result, and the records. -/
def exeCallback (result : List Record) (row : List Column) : Option (ℤ × List Record) :=
  (Record.fill row 0 { size := row.length }).map fun record => (sqliteOk, result ++ [record])

/-- `sqlite3_exec` calls the callback once for each row. -/
def sqlite3Exec (rows : List (List Column)) (ret : ℤ) (result : List Record) :
    Option (ℤ × List Record) :=
  (rows.foldlM (fun result row => (exeCallback result row).map Prod.snd) result).map
    fun result => (ret, result)

/-- `query`, where the handle may be null: its result, and the records. -/
def query (handle : Bool) (engine : Text → List (List Column) × ℤ) (sql : Text)
    (result : List Record) : Option (Bool × List Record) :=
  if handle = false then some (false, result)
  else if sql.isEmpty then some (false, result)
  else
    (sqlite3Exec (engine sql).1 (engine sql).2 result).map fun (ret, result) =>
      (ret = sqliteOk, result)

end DarwinCore.Sqlite
