/-
Text between two marks. A mark inside the text is written twice, so the
first mark that stands alone ends it.
-/

namespace RecordQuery.Quoted

/-- Writes every mark twice. -/
def double (mark : Char) : List Char → List Char
  | [] => []
  | c :: rest => if c = mark then mark :: mark :: double mark rest else c :: double mark rest

/-- The text between two marks, with the marks inside it doubled. -/
def write (mark : Char) (text : String) : String :=
  String.ofList (mark :: (double mark text.toList ++ [mark]))

end RecordQuery.Quoted
