/-
The JSON text of values. A value is written as an object whose one key is
its kind, the null value as the text of its kind. The text of a list of
values, without blanks, is the form in which keys are compared.
-/
import RecordQuery.Number.Notation
import RecordQuery.Value

namespace RecordQuery

-- ================================================================ texts

/-- Numbers are written out for leading exponents from -5 to 15; an
exponent carries its sign either way. -/
def Json.numbers : FloatNotation where
  leastWrittenOut := -5
  greatestWrittenOut := 15
  positiveExponent := "+"

/-- A character inside a JSON text: the quote, the backslash and control
characters are escaped, by a letter where they have one. -/
def Json.escape (c : Char) : List Char :=
  if c = '"' then ['\\', '"']
  else if c = '\\' then ['\\', '\\']
  else if c.toNat = 0x08 then ['\\', 'b']
  else if c.toNat = 0x09 then ['\\', 't']
  else if c.toNat = 0x0A then ['\\', 'n']
  else if c.toNat = 0x0C then ['\\', 'f']
  else if c.toNat = 0x0D then ['\\', 'r']
  else if c.toNat < 0x20 then
    ['\\', 'u', '0', '0', Hex.digit (c.toNat / 16), Hex.digit (c.toNat % 16)]
  else [c]

/-- A JSON text with the given content. -/
def Json.quote (cs : List Char) : List Char :=
  '"' :: (cs.flatMap Json.escape ++ ['"'])

/-- Elements in brackets, separated by commas. -/
def Json.array (elements : List (List Char)) : List Char :=
  '[' :: ([','].intercalate elements ++ [']'])

/-- A natural number in decimal digits. -/
def Json.natural (n : Nat) : List Char :=
  Nat.toDigits 10 n

/-- A whole number, with a sign if it is negative. -/
def Json.integer (n : Int) : List Char :=
  if n < 0 then '-' :: natural n.natAbs else natural n.natAbs

-- =============================================================== values

namespace Value

/-- The JSON of what a value holds. What is no finite number has no JSON
form and is written as null. -/
def jsonContent : Value → List Char
  | null => []
  | bool b => (if b then "true" else "false").toList
  | int32 n => Json.integer n.toInt
  | int64 n => Json.integer n.toInt
  | float x => if x.isFinite then (Json.numbers.write x).toList else "null".toList
  | text s => Json.quote s.toList
  | bytes octets => Json.array (octets.map fun b => Json.natural b.toNat)
  | uuid id => Json.quote id.chars

def jsonChars (v : Value) : List Char :=
  let kind := Json.quote v.kind.toList
  if v.isNull then kind else '{' :: (kind ++ ':' :: (v.jsonContent ++ ['}']))

/-- The JSON text of a value. -/
def json (v : Value) : String :=
  String.ofList v.jsonChars

/-- The JSON text of a list of values. -/
def keyText (values : List Value) : String :=
  String.ofList (Json.array (values.map jsonChars))

end Value

end RecordQuery
