/-
Descriptions: texts that show a value for people to read, with the names
of its parts. They are written once and never read back.
-/
import RecordQuery.Number.Notation
import RecordQuery.Record
import RecordQuery.Running.Cursor

namespace RecordQuery

namespace Description

-- ================================================================= forms

/-- A character inside a quoted text: the quote and the backslash follow a
backslash, and control characters are written by a letter or number. -/
def escape (c : Char) : List Char :=
  if c = '"' ∨ c = '\\' then ['\\', c]
  else if c.toNat = 0 then ['\\', '0']
  else if c = '\t' then ['\\', 't']
  else if c = '\n' then ['\\', 'n']
  else if c = '\r' then ['\\', 'r']
  else if c.toNat < 0x20 ∨ (0x7F ≤ c.toNat ∧ c.toNat < 0xA0) then
    "\\u\x7b".toList ++ Nat.toDigits 16 c.toNat ++ ['\x7d']
  else [c]

def quoted (text : String) : String :=
  String.ofList ('"' :: (text.toList.flatMap escape ++ ['"']))

/-- A name with what it is applied to. -/
def applied (name argument : String) : String :=
  name ++ "(" ++ argument ++ ")"

def list (elements : List String) : String :=
  "[" ++ ", ".intercalate elements ++ "]"

/-- A name with named parts. -/
def parts (name : String) (entries : List (String × String)) : String :=
  name ++ " \x7b " ++ ", ".intercalate (entries.map fun (part, text) => part ++ ": " ++ text)
    ++ " \x7d"

def truth (b : Bool) : String :=
  if b then "true" else "false"

/-- Numbers are written out for leading exponents from -4 to 15; only a
negative exponent has a sign. -/
def numbers : FloatNotation where
  leastWrittenOut := -4
  greatestWrittenOut := 15
  positiveExponent := ""

def number (x : Binary64) : String :=
  if x.isFinite then numbers.write x
  else if x.isNaN then "NaN"
  else if x.isNegative then "-inf"
  else "inf"

end Description

open Description

-- ========================================================= what is shown

/-- A model by its name. -/
def Description.model (name : String) : String :=
  applied "ModelId" name

def Value.describe (v : Value) : String :=
  match v with
  | .null => v.kind
  | .bool b => applied v.kind (truth b)
  | .int32 n => applied v.kind (toString n.toInt)
  | .int64 n => applied v.kind (toString n.toInt)
  | .float x => applied v.kind (number x)
  | .text s => applied v.kind (quoted s)
  | .bytes octets => applied v.kind (list (octets.map fun b => toString b.toNat))
  | .uuid id => applied v.kind id.text

def Column.describe (c : Column) : String :=
  parts "Column"
    [("name", quoted c.name), ("field", quoted c.field), ("insertable", truth c.insertable),
      ("updatable", truth c.updatable)]

def JoinPair.describe (p : JoinPair) : String :=
  parts "JoinPair" [("local", quoted p.own), ("remote", quoted p.remote)]

def Relation.describe (r : Relation) : String :=
  parts "Relation"
    [("field", quoted r.field), ("kind", if r.kind.isMany then "Many" else "One"),
      ("target", model r.target), ("target_table", quoted r.targetTable),
      ("join_pairs", list (r.pairs.map JoinPair.describe))]

/-- A record shows nothing of what it holds. -/
def Record.describe (_ : Record) : String :=
  "Record \x7b .. \x7d"

def Source.describe : Source → String
  | .buffered rows => applied "Buffered" (toString rows.length)
  | .stream _ => "Stream"
  | .closed => "Closed"

/-- A cursor shows how many rows it has left, if that is known, and the row
delivered last. -/
def Cursor.describe (c : Cursor) : String :=
  parts "Rows"
    [("source", quoted c.source.describe),
      ("current", match c.current with
        | some row => applied "Some" (list (row.map Value.describe))
        | none => "None")]

end RecordQuery
