/-
Numbered placeholders. Each `?` of a statement becomes `$1`, `$2`, … in
the order of appearance, except where it stands between quotes. A doubled
quote closes and opens again at once, so it needs no rule of its own.
-/

namespace RecordQuery.Placeholder

/-- Numbers the placeholders of what follows, `count` of them having been
numbered before; `quote` is the mark that what follows stands between. -/
def numberChars (quote : Option Char) (count : Nat) : List Char → List Char
  | [] => []
  | c :: rest =>
    match quote with
    | some mark => c :: numberChars (if c = mark then none else quote) count rest
    | none =>
      if c = '\'' ∨ c = '"' then c :: numberChars (some c) count rest
      else if c = '?' then
        '$' :: (Nat.toDigits 10 (count + 1) ++ numberChars none (count + 1) rest)
      else c :: numberChars none count rest

/-- The statement with its placeholders numbered; none if it has no `?`. -/
def number? (sql : String) : Option String :=
  if sql.toList.contains '?' then some (String.ofList (numberChars none 0 sql.toList)) else none

end RecordQuery.Placeholder
