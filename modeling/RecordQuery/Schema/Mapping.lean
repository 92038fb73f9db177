/-
Mappings: how the records of a model are stored. A mapping names the
table, the columns with the field and type of each, the relations to other
models with the column pairs they are joined on, and the key columns.

Columns are looked up by their own name or by the name of their field, the
first of that name counting.
-/
import RecordQuery.Error

namespace RecordQuery

/-- A column of a table and the field that holds it. -/
structure Column where
  name : String
  field : String
  type : ColumnType
  insertable : Bool := true
  updatable : Bool := true
deriving DecidableEq, Repr, Inhabited

/-- A column of a statement, named by the alias of its table; selected
under another name if it has an output alias. -/
structure ColumnRef where
  table : String
  name : String
  output : Option String := none
deriving DecidableEq, Repr

/-- How many related records a field holds: at most one, or a list. -/
inductive RelationKind where
  | one
  | many
deriving DecidableEq, Repr

def RelationKind.isMany : RelationKind → Bool
  | .one => false
  | .many => true

/-- Equality between a column of the table and one of the related table. -/
structure JoinPair where
  own : String
  remote : String
deriving DecidableEq, Repr

/-- A field that holds records of another model, reached through a join.
Its name is also the segment by which paths follow it. -/
structure Relation where
  field : String
  kind : RelationKind
  target : String
  targetTable : String
  pairs : List JoinPair
deriving DecidableEq, Repr

/-- How the records of a model are stored. -/
structure Mapping where
  model : String
  table : String
  columns : List Column
  relations : List Relation := []
  primaryKey : List String := []
  uniqueKeys : List (List String) := []
deriving DecidableEq, Repr

namespace Mapping

/-- The column of a name. -/
def column? (m : Mapping) (name : String) : Option Column :=
  m.columns.find? fun c => c.name == name

/-- The column that a field is stored in. -/
def columnOfField? (m : Mapping) (field : String) : Option Column :=
  m.columns.find? fun c => c.field == field

/-- The relation of a field. -/
def relation? (m : Mapping) (field : String) : Option Relation :=
  m.relations.find? fun r => r.field == field

/-- The columns of the primary key, in key order. -/
def keyColumns (m : Mapping) : List Column :=
  m.primaryKey.filterMap m.column?

/-- The column that a field is stored in, or that there is none. -/
def columnOfField (m : Mapping) (field : String) : Except CompileError Column :=
  match m.columnOfField? field with
  | some c => .ok c
  | none => .error (.unmappedField m.model field)

/-- The column of a field within the table of an alias. A prefix that is
not empty gives the column an output alias that starts with it. -/
def columnRef (m : Mapping) (tableAlias outputPrefix field : String) :
    Except CompileError ColumnRef :=
  (m.columnOfField field).map fun c =>
    { table := tableAlias, name := c.name,
      output := if outputPrefix.isEmpty then none else some (outputPrefix ++ c.name) }

end Mapping

end RecordQuery
