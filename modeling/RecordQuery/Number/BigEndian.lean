/-
Numbers as octets, the most significant first. Negative numbers are
written in two's complement.
-/
import RecordQuery.Text.Hex

namespace RecordQuery.BigEndian

/-- A number in a width of octets; what does not fit is cut off at the
front. -/
def ofNat : Nat → Nat → Octets
  | 0, _ => []
  | width + 1, n => ofNat width (n / 256) ++ [UInt8.ofNat (n % 256)]

/-- An integer in a width of octets, in two's complement. -/
def ofInt (width : Nat) (n : Int) : Octets :=
  ofNat width (n % (Nat.pow 256 width : Nat)).toNat

/-- The number that octets stand for. -/
def toNat (octets : Octets) : Nat :=
  octets.foldl (fun n b => 256 * n + b.toNat) 0

/-- The integer that octets stand for in two's complement. -/
def toInt (octets : Octets) : Int :=
  let n := toNat octets
  if 2 * n < Nat.pow 256 octets.length then n else n - (Nat.pow 256 octets.length : Nat)

-- ============================================================== reading

theorem length_ofNat (width n : Nat) : (ofNat width n).length = width := by
  induction width generalizing n with
  | zero => rfl
  | succ width ih => rw [ofNat, List.length_append, ih, List.length_singleton]

theorem toNat_append_singleton (octets : Octets) (b : UInt8) :
    toNat (octets ++ [b]) = 256 * toNat octets + b.toNat := by
  rw [toNat, List.foldl_append]
  rfl

/-- What is written in a width reads back up to what was cut off. -/
theorem toNat_ofNat (width n : Nat) : toNat (ofNat width n) = n % Nat.pow 256 width := by
  induction width generalizing n with
  | zero => exact (Nat.mod_one n).symm
  | succ width ih =>
      have hlast : (UInt8.ofNat (n % 256)).toNat = n % 256 := by
        rw [UInt8.toNat_ofNat']
        omega
      have hpow : Nat.pow 256 (width + 1) = 256 * Nat.pow 256 width := Nat.pow_succ'
      rw [ofNat, toNat_append_singleton, ih, hlast, hpow, Nat.mod_mul]
      omega

theorem length_ofInt (width : Nat) (n : Int) : (ofInt width n).length = width :=
  length_ofNat width _

/-- An integer in the range of a width reads back. -/
theorem toInt_ofInt {width half : Nat} {n : Int} (hhalf : Nat.pow 256 width = 2 * half)
    (hlow : -half ≤ n) (hhigh : n < half) : toInt (ofInt width n) = n := by
  have hnat : (toNat (ofInt width n) : Int) = n % (2 * half : Nat) := by
    have hpos : (0 : Int) < (2 * half : Nat) := by omega
    have hnonneg := Int.emod_nonneg n (Int.ne_of_gt hpos)
    have hbelow := Int.emod_lt_of_pos n hpos
    rw [ofInt, toNat_ofNat, hhalf, Nat.mod_eq_of_lt (by omega)]
    exact Int.toNat_of_nonneg hnonneg
  unfold toInt
  rw [length_ofInt, hhalf]
  by_cases hsign : 0 ≤ n
  · rw [Int.emod_eq_of_lt hsign (by omega)] at hnat
    rw [if_pos (by omega)]
    exact hnat
  · -- a negative number is written as what it misses to the whole range
    have hwrapped : n % (2 * half : Nat) = n + (2 * half : Nat) := by
      rw [← Int.add_emod_right, Int.emod_eq_of_lt (by omega) (by omega)]
    rw [hwrapped] at hnat
    rw [if_neg (by omega)]
    omega

end RecordQuery.BigEndian
