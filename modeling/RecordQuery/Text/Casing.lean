/-
Comparison of names without regard to the case of ASCII letters. All
other characters are compared as they are.
-/

namespace RecordQuery.Casing

/-- The lower-case form of an ASCII capital, any other character
unchanged. -/
def lower (c : Char) : Char :=
  if 'A' ≤ c ∧ c ≤ 'Z' then Char.ofNat (c.toNat + 32) else c

/-- A text with its ASCII capitals in lower case. -/
def fold (text : String) : String :=
  String.ofList (text.toList.map lower)

/-- Whether two names differ at most in the case of ASCII letters. -/
def same (a b : String) : Bool :=
  fold a == fold b

end RecordQuery.Casing
