/-
Dialects: the conventions of one database for writing statements. A
dialect says how names are quoted, which operator compares null-safely
and how methods are written; the rest has a form that suits most.
-/
import RecordQuery.Error

namespace RecordQuery

/-- How one database wants statements written. -/
structure Dialect where
  name : String
  quoteTable : String → String
  quoteColumn : String → String
  /-- Equality by which two nulls are equal. -/
  nullSafeEq : String
  /-- The form of a method, with a place `%s` for each argument. -/
  template? : String → Option String
  /-- Whether an error reports that a key constraint was violated. -/
  isConflict : Error → Bool
  /-- Whether a list of tuples has to be introduced by `VALUES`. -/
  rowValuesInList : Bool := false
  /-- The limit to write with an offset alone, where one is needed. -/
  unboundedLimit? : Option String := none
  /-- A statement with its placeholders in the database's own form, or
  none where they already are. -/
  rebind? : String → Option String := fun _ => none

namespace Dialect

/-- A column within the table of an alias. -/
def quoteTableColumn (d : Dialect) (table column : String) : String :=
  d.quoteTable table ++ "." ++ d.quoteColumn column

/-- A statement with its placeholders in the database's own form. -/
def bindPlaceholders (d : Dialect) (sql : String) : String :=
  (d.rebind? sql).getD sql

end Dialect

end RecordQuery
