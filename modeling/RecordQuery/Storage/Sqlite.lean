/-
Values in SQLite, which stores a value in one of five classes whatever the
column was declared as. Truth values and integers of either width share a
class, so reading gives the wider integer; identifiers are stored as their
text.
-/
import RecordQuery.Error

namespace RecordQuery

/-- A stored value with its class. -/
inductive SqliteValue where
  | null
  | integer (n : Int64)
  | real (x : Binary64)
  | text (octets : Octets)
  | blob (octets : Octets)
deriving DecidableEq, Repr

namespace SqliteValue

/-- The form in which a value is bound as a parameter. -/
def bind : Value → SqliteValue
  | .null => null
  | .bool b => integer (if b then 1 else 0)
  | .int32 n => integer (Int64.ofInt n.toInt)
  | .int64 n => integer n
  | .float x => real x
  | .text s => text (Utf8.encode s)
  | .bytes octets => blob octets
  | .uuid id => text (Utf8.encode id.text)

/-- The value of a column that was read. A text may turn out not to be
one. -/
def read : SqliteValue → Except Fault Value
  | null => .ok .null
  | integer n => .ok (.int64 n)
  | real x => .ok (.float x)
  | text octets =>
    match Utf8.decode octets with
    | .ok s => .ok (.text s)
    | .error fault => .error (.driver ⟨fault.message, []⟩ none)
  | blob octets => .ok (.bytes octets)

end SqliteValue

end RecordQuery
