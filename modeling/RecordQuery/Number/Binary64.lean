/-
Binary floating-point numbers of 64 bits, held as their bits. A finite
number is a signed multiple of a power of two, `significand * 2 ^ scale`;
every operation here is exact arithmetic on that reading, rounded once
where its result has to be.

Two numbers are the same value when neither is a NaN and they stand for
the same real: the two zeros agree and no NaN equals anything.
-/
import RecordQuery.Number.Rounding

namespace RecordQuery

/-- A 64-bit binary floating-point number. -/
structure Binary64 where
  bits : UInt64
deriving DecidableEq, Repr, Inhabited

namespace Binary64

-- ============================================================== reading

def isNegative (x : Binary64) : Bool :=
  Nat.pow 2 63 ≤ x.bits.toNat

/-- The eleven bits of the exponent. -/
def exponentField (x : Binary64) : Nat :=
  x.bits.toNat / Nat.pow 2 52 % Nat.pow 2 11

/-- The fifty-two bits of the fraction. -/
def fraction (x : Binary64) : Nat :=
  x.bits.toNat % Nat.pow 2 52

def isFinite (x : Binary64) : Bool :=
  x.exponentField != 2047

def isNaN (x : Binary64) : Bool :=
  x.exponentField == 2047 && x.fraction != 0

def isZero (x : Binary64) : Bool :=
  x.exponentField == 0 && x.fraction == 0

/-- The integer that a finite number multiplies its power of two by. -/
def significand (x : Binary64) : Nat :=
  if x.exponentField = 0 then x.fraction else Nat.pow 2 52 + x.fraction

/-- The exponent of that power of two. -/
def scale (x : Binary64) : Int :=
  if x.exponentField = 0 then -1074 else x.exponentField - 1075

/-- Equality as numbers. -/
def equal (x y : Binary64) : Bool :=
  !x.isNaN && !y.isNaN && (x == y || (x.isZero && y.isZero))

-- ============================================================== making

private def signBit (negative : Bool) (place : Nat) : Nat :=
  if negative then Nat.pow 2 place else 0

def zero : Binary64 := ⟨0⟩

/-- The number nearest to an integer. The significand is brought to 53
bits; where rounding carries it to 54, the carry runs into the exponent
and gives the next power of two. -/
def ofInt (n : Int) : Binary64 :=
  let m := n.natAbs
  if m = 0 then zero
  else
    let top := m.log2
    let significand :=
      if top ≤ 52 then m * Nat.pow 2 (52 - top) else Rounding.halfEven m (top - 52)
    let fraction := significand - Nat.pow 2 52
    ⟨UInt64.ofNat (signBit (n < 0) 63 + (top + 1023) * Nat.pow 2 52 + fraction)⟩

-- ============================================================ narrower

/-- The bits of the nearest 32-bit number; what is out of its range
becomes an infinity, and a NaN keeps the upper part of its payload. -/
def toBinary32Bits (x : Binary64) : UInt32 :=
  let sign := signBit x.isNegative 31
  let infinity := 0x7F800000
  if x.isNaN then UInt32.ofNat (sign + (0x7FC00000 ||| (x.fraction / Nat.pow 2 29)))
  else if !x.isFinite then UInt32.ofNat (sign + infinity)
  else if x.isZero then UInt32.ofNat sign
  else
    let unit := max (x.significand.log2 + x.scale - 23) (-149)
    let count := Rounding.halfEven x.significand (unit - x.scale).toNat
    UInt32.ofNat (sign + min ((unit + 149).toNat * Nat.pow 2 23 + count) infinity)

/-- The number with the value of a 32-bit number given by its bits. -/
def ofBinary32Bits (bits : UInt32) : Binary64 :=
  let n := bits.toNat
  let sign := signBit (Nat.pow 2 31 ≤ n) 63
  let exponent := n / Nat.pow 2 23 % Nat.pow 2 8
  let fraction := n % Nat.pow 2 23
  if exponent = 255 then
    let payload := if fraction = 0 then 0 else Nat.pow 2 51 ||| (fraction * Nat.pow 2 29)
    ⟨UInt64.ofNat (sign + 2047 * Nat.pow 2 52 + payload)⟩
  else if exponent ≠ 0 then
    ⟨UInt64.ofNat (sign + (exponent + 896) * Nat.pow 2 52 + fraction * Nat.pow 2 29)⟩
  else if fraction = 0 then ⟨UInt64.ofNat sign⟩
  else
    let top := fraction.log2
    let normal := fraction * Nat.pow 2 (52 - top) - Nat.pow 2 52
    ⟨UInt64.ofNat (sign + (top + 874) * Nat.pow 2 52 + normal)⟩

end Binary64

end RecordQuery
