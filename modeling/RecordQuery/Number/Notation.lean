/-
The text of a decimal number. Between two exponents of its leading digit
a number is written out with a point; outside them as a leading digit, a
fraction and an exponent. What is written never looks like an integer: it
has a fraction or an exponent.
-/
import RecordQuery.Number.Shortest

namespace RecordQuery

/-- Where a number stops being written out, and how the sign of a
positive exponent is written. -/
structure FloatNotation where
  leastWrittenOut : Int
  greatestWrittenOut : Int
  positiveExponent : String

namespace FloatNotation

private def zeros (n : Int) : List Char :=
  List.replicate n.toNat '0'

/-- The digits of a decimal, a point put in its place. -/
def writtenOut (digits : List Char) (leading : Int) : List Char :=
  if leading < 0 then '0' :: '.' :: (zeros (-leading - 1) ++ digits)
  else
    let whole := leading.toNat + 1
    let fraction := digits.drop whole
    digits.take whole ++ zeros (whole - digits.length) ++
      '.' :: (if fraction.isEmpty then ['0'] else fraction)

/-- The digits of a decimal, then the exponent of the first of them. -/
def withExponent (plus : String) (digits : List Char) (leading : Int) : List Char :=
  let fraction := digits.drop 1
  let sign := if leading < 0 then ['-'] else plus.toList
  digits.take 1 ++ (if fraction.isEmpty then [] else '.' :: fraction) ++
    'e' :: (sign ++ Nat.toDigits 10 leading.natAbs)

/-- The text of a decimal number. -/
def decimal (style : FloatNotation) (d : Decimal) : List Char :=
  let digits := Nat.toDigits 10 d.digits
  let leading := d.exponent + digits.length - 1
  if style.leastWrittenOut ≤ leading ∧ leading ≤ style.greatestWrittenOut then
    writtenOut digits leading
  else withExponent style.positiveExponent digits leading

/-- The text of a finite number; zero has a sign too. -/
def write (style : FloatNotation) (x : Binary64) : String :=
  String.ofList ((if x.isNegative then ['-'] else []) ++ style.decimal x.decimal)

end FloatNotation

end RecordQuery
