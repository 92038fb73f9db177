/-
Rounding of a number of units to fewer, coarser units: to the nearest,
and halfway to the even one.
-/

namespace RecordQuery.Rounding

/-- The multiple of `2 ^ shift` nearest to `n`, counted in that unit; of
two equally near ones the even count. -/
def halfEven (n shift : Nat) : Nat :=
  let count := n / Nat.pow 2 shift
  let excess := n % Nat.pow 2 shift
  let whole := Nat.pow 2 shift
  if whole < 2 * excess ∨ (whole = 2 * excess ∧ count % 2 = 1) then count + 1 else count

end RecordQuery.Rounding
