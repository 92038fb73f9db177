/-
The dialects of three databases.
-/
import RecordQuery.Dialect
import RecordQuery.Dialect.Placeholder
import RecordQuery.Text.Quoted

namespace RecordQuery

/-- A database whose dialect is known. -/
inductive Flavor where
  | sqlite
  | postgresql
  | mysql
deriving DecidableEq, Repr

namespace Flavor

def name : Flavor → String
  | sqlite => "sqlite"
  | postgresql => "postgresql"
  | mysql => "mysql"

/-- The mark around names. -/
def quoteMark : Flavor → Char
  | mysql => Char.ofNat 0x60
  | _ => '"'

/-- A name between marks, with the marks in it doubled. -/
def quote (flavor : Flavor) (name : String) : String :=
  Quoted.write flavor.quoteMark name

def nullSafeEq : Flavor → String
  | sqlite => "IS"
  | postgresql => "IS NOT DISTINCT FROM"
  | mysql => "<=>"

/-- The form of a method. A text contains, or starts with, another if the
position of the other in it is positive, or one. -/
def template? (flavor : Flavor) (method : String) : Option String :=
  match method, flavor with
  | "contains", postgresql => some "STRPOS(%s, %s) > 0"
  | "contains", _ => some "INSTR(%s, %s) > 0"
  | "starts_with", postgresql => some "STRPOS(%s, %s) = 1"
  | "starts_with", _ => some "INSTR(%s, %s) = 1"
  | "ends_with", mysql => some "%s LIKE CONCAT('%', %s)"
  | "ends_with", _ => some "%s LIKE '%' || %s"
  | "lower", _ => some "LOWER(%s)"
  | "upper", _ => some "UPPER(%s)"
  | "length", sqlite => some "LENGTH(%s)"
  | "length", _ => some "CHAR_LENGTH(%s)"
  | "is_null", _ => some "%s IS NULL"
  | "is_not_null", _ => some "%s IS NOT NULL"
  | _, _ => none

/-- The codes of violated unique, primary and other key constraints. -/
def conflictCodes : Flavor → List String
  | sqlite => ["1555", "2067", "1299", "787", "2579"]
  | postgresql => ["23505"]
  | mysql => ["1062", "1586"]

def isConflict (flavor : Flavor) (e : Error) : Bool :=
  e.driverCode?.any flavor.conflictCodes.contains

def unboundedLimit? : Flavor → Option String
  | sqlite => some "-1"
  | postgresql => none
  | mysql => some "18446744073709551615"

/-- The dialect of a database. -/
def dialect (flavor : Flavor) : Dialect where
  name := flavor.name
  quoteTable := flavor.quote
  quoteColumn := flavor.quote
  nullSafeEq := flavor.nullSafeEq
  template? := flavor.template?
  isConflict := flavor.isConflict
  rowValuesInList := flavor == sqlite
  unboundedLimit? := flavor.unboundedLimit?
  rebind? := if flavor = postgresql then Placeholder.number? else fun _ => none

end Flavor

end RecordQuery
