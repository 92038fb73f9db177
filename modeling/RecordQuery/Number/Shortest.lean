/-
The shortest decimal of a floating-point number: of all decimals that
round back to the number, those with the fewest digits, and of those the
nearest; of two equally near ones the one with an even last digit.

For each digit count in turn the number's two neighbours on that decimal
grid are tried. If any point of a grid lies among the decimals that round
back, then so does one of the two neighbours, so the first grid on which
a neighbour does is the coarsest one possible. Seventeen digits always
suffice; were they not to, the number's own exact expansion stands in,
so that the result reads back whatever the count of grids tried.
-/
import RecordQuery.Number.Binary64

namespace RecordQuery

/-- The number `digits * 10 ^ exponent`. -/
structure Decimal where
  digits : Nat
  exponent : Int
deriving DecidableEq, Repr

namespace Decimal

/-- The same number without zeros at the end of its digits. -/
def trim (digits : Nat) (exponent : Int) : Decimal :=
  if h : digits ≠ 0 ∧ digits % 10 = 0 then trim (digits / 10) (exponent + 1)
  else ⟨digits, exponent⟩
termination_by digits
decreasing_by omega

end Decimal

namespace Shortest

-- ========================================================= one number

/-- A positive number `significand * 2 ^ scale`, and whether it is the
least of its binade, so that the number below it is only half as far as
the one above. -/
structure Magnitude where
  significand : Nat
  scale : Int
  leastOfBinade : Bool

def Magnitude.of (x : Binary64) : Magnitude where
  significand := x.significand
  scale := x.scale
  leastOfBinade := x.fraction == 0 && 1 < x.exponentField

/-- Quarters of `2 ^ scale` and points of a decimal grid, in one common
unit: `quarter` of it make a quarter, `step` of it make a grid step. -/
structure Grid where
  quarter : Nat
  step : Nat

/-- The common unit for the grid of multiples of `10 ^ exponent`. -/
def Magnitude.grid (v : Magnitude) (exponent : Int) : Grid where
  quarter := Nat.pow 2 (v.scale - 2).toNat * Nat.pow 10 (-exponent).toNat
  step := Nat.pow 10 exponent.toNat * Nat.pow 2 (2 - v.scale).toNat

/-- Whether the grid's point of the given count rounds back to the number:
it lies within half a unit above and half a unit (a quarter, below the
least of a binade) beneath, the ends included for an even significand. -/
def Magnitude.admits (v : Magnitude) (g : Grid) (count : Nat) : Bool :=
  let low := (4 * v.significand - (if v.leastOfBinade then 1 else 2)) * g.quarter
  let high := (4 * v.significand + 2) * g.quarter
  let point := count * g.step
  if v.significand % 2 = 0 then low ≤ point && point ≤ high else low < point && point < high

-- ============================================================ searching

/-- The better of the number's two neighbours on the grid of multiples of
`10 ^ exponent`, if either rounds back to it. -/
def Magnitude.neighbour? (v : Magnitude) (exponent : Int) : Option Decimal :=
  let g := v.grid exponent
  let value := 4 * v.significand * g.quarter
  let below := value / g.step
  let above := below + 1
  match decide (0 < below) && v.admits g below, v.admits g above with
  | true, true =>
    let fromBelow := value - below * g.step
    let toAbove := above * g.step - value
    if fromBelow < toAbove ∨ (fromBelow = toAbove ∧ below % 2 = 0) then some ⟨below, exponent⟩
    else some ⟨above, exponent⟩
  | true, false => some ⟨below, exponent⟩
  | false, true => some ⟨above, exponent⟩
  | false, false => none

private def length (n : Nat) : Nat :=
  (Nat.toDigits 10 n).length

/-- The exponent of the number's leading decimal digit. -/
def Magnitude.leadingExponent (v : Magnitude) : Int :=
  let top := v.significand * Nat.pow 2 v.scale.toNat
  let bottom := Nat.pow 2 (-v.scale).toNat
  if bottom ≤ top then (length (top / bottom) : Int) - 1
  else -(length ((bottom + top - 1) / top - 1) : Int)

/-- The number written out in full. -/
def Magnitude.exact (v : Magnitude) : Decimal :=
  if 0 ≤ v.scale then ⟨v.significand * Nat.pow 2 v.scale.toNat, 0⟩
  else ⟨v.significand * Nat.pow 5 (-v.scale).toNat, v.scale⟩

/-- The shortest decimal that rounds back to the number. -/
def Magnitude.decimal (v : Magnitude) : Decimal :=
  let leading := v.leadingExponent
  let found := (List.range 17).findSome? fun (n : Nat) => v.neighbour? (leading - n)
  let d := found.getD v.exact
  Decimal.trim d.digits d.exponent

end Shortest

/-- The shortest decimal of a finite number's magnitude. -/
def Binary64.decimal (x : Binary64) : Decimal :=
  if x.isZero then ⟨0, 0⟩ else (Shortest.Magnitude.of x).decimal

end RecordQuery
