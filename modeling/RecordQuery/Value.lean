/-
Values: what is bound as a parameter of a statement and what is read back
from a row. Equality of values is that of their contents, where numbers
in floating point are compared as numbers: a NaN differs from itself and
the two zeros agree.
-/
import RecordQuery.Number.Binary64
import RecordQuery.Uuid

namespace RecordQuery

/-- A scalar bound as a parameter or read from a row. -/
inductive Value where
  | null
  | bool (b : Bool)
  | int32 (n : Int32)
  | int64 (n : Int64)
  | float (x : Binary64)
  | text (s : String)
  | bytes (octets : Octets)
  | uuid (id : Uuid)
deriving DecidableEq, Repr, Inhabited

/-- The values of one result row. -/
abbrev Row := List Value

namespace Value

/-- The name of a value's kind, as conversion errors give it. -/
def kind : Value → String
  | null => "Null"
  | bool _ => "Bool"
  | int32 _ => "I32"
  | int64 _ => "I64"
  | float _ => "F64"
  | text _ => "String"
  | bytes _ => "Bytes"
  | uuid _ => "Uuid"

def isNull : Value → Bool
  | null => true
  | _ => false

theorem eq_null_of_isNull {v : Value} (h : v.isNull = true) : v = null := by
  cases v with
  | null => rfl
  | _ => cases h

def isText : Value → Bool
  | text _ => true
  | _ => false

def text? : Value → Option String
  | text s => some s
  | _ => none

/-- The number in an integer of either width. -/
def int? : Value → Option Int
  | int32 n => some n.toInt
  | int64 n => some n.toInt
  | _ => none

/-- Equality of values, with numbers in floating point compared as
numbers. -/
def equal : Value → Value → Bool
  | float x, float y => x.equal y
  | a, b => a == b

/-- Equality of rows of values, position by position. -/
def equalAll : List Value → List Value → Bool
  | [], [] => true
  | a :: as, b :: bs => a.equal b && equalAll as bs
  | _, _ => false

/-- Takes a value out of its place: the value, and the null that is left
behind. -/
def take (v : Value) : Value × Value := (v, null)

end Value

end RecordQuery
