/-
Templates with places to fill, each written `%s`. The places are filled
from left to right in one pass: what has been filled in is not looked at
again, a place without an argument stays empty and arguments left over
are not used.
-/

namespace RecordQuery.Template

/-- Fills the places of a template. -/
def fillChars : List Char → List (List Char) → List Char
  | '%' :: 's' :: rest, args => args.headD [] ++ fillChars rest args.tail
  | c :: rest, args => c :: fillChars rest args
  | [], _ => []

/-- Fills the places of a template with texts. -/
def fill (template : String) (args : List String) : String :=
  String.ofList (fillChars template.toList (args.map String.toList))

end RecordQuery.Template
