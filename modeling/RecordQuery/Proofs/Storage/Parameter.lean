/-
Values bound to integer parameters. A server that has inferred an integer
type for a parameter reads as many octets as the type has, as an integer
in two's complement, whatever they were sent for. An integer that is in
the range of the type is sent as exactly these octets, and one that is not
is refused; a null is no octets at all.

Values of the other kinds are sent in their own form, so that the server
reads an integer that nobody has bound, or a width that the type does not
have.
-/
import Mathlib.Algebra.Ring.Int.Defs
import Mathlib.Algebra.Ring.Nat
import RecordQuery.Proofs.Except
import RecordQuery.Storage.Postgresql

namespace RecordQuery

namespace ParameterType

/-- The width in octets of a type that holds integers. -/
def integerWidth? : ParameterType → Option Nat
  | int2 => some 2
  | int4 => some 4
  | int8 => some 8
  | _ => none

variable {type : ParameterType} {width : Nat}

/-- An integer is sent in two's complement if it is in the range of the
width, and refused on the side where it is not. -/
theorem fit_cases {half : Nat} (hhalf : Nat.pow 256 width = 2 * half) (n : Int) :
    (-half ≤ n ∧ n < half ∧ ∃ octets, fit width n = .ok octets ∧ octets.length = width
        ∧ BigEndian.toInt octets = n)
      ∨ (half ≤ n ∧ fit width n = .error .tooLarge)
      ∨ (n < -half ∧ fit width n = .error .tooSmall) := by
  have hmiddle : Nat.pow 256 width / 2 = half := by
    rw [hhalf]
    omega
  unfold fit
  rw [hmiddle]
  by_cases hhigh : (half : Int) ≤ n
  · exact Or.inr (Or.inl ⟨hhigh, if_pos hhigh⟩)
  · by_cases hlow : n < -half
    · refine Or.inr (Or.inr ⟨hlow, ?_⟩)
      dsimp only
      rw [if_neg hhigh, if_pos hlow]
    · refine Or.inl ⟨by omega, by omega, BigEndian.ofInt width n, ?_, ?_, ?_⟩
      · dsimp only
        rw [if_neg hhigh, if_neg hlow]
      · exact BigEndian.length_ofInt width n
      · exact BigEndian.toInt_ofInt hhalf (by omega) (by omega)

/-- Half of the range of a width: the integers of a type are those from
its negation up to it. -/
theorem pow_integerWidth (htype : type.integerWidth? = some width) :
    Nat.pow 256 width = 2 * 2 ^ (8 * width - 1) := by
  cases type <;> cases htype <;> rfl

/-- The integer types fit an integer to their width. -/
theorem encodeInt_integer (htype : type.integerWidth? = some width) (n : Int) :
    type.encodeInt n = fit width n := by
  cases type <;> cases htype <;> rfl

/-- Only a null is sent as no octets. -/
theorem encode_eq_none {v : Value} : type.encode v = .ok none ↔ v = .null := by
  refine ⟨fun h => ?_, fun h => h ▸ rfl⟩
  cases v with
  | null => rfl
  | int32 n =>
      obtain ⟨octets, -, hnone⟩ := map_eq_ok.1 h
      cases hnone
  | int64 n =>
      obtain ⟨octets, -, hnone⟩ := map_eq_ok.1 h
      cases hnone
  | text s =>
      rw [encode] at h
      split at h
      · split at h <;> cases h
      · cases h
  | _ => simp [encode] at h

/-- An integer value is sent as its integer. -/
theorem encode_integer {v : Value} {n : Int} (h : v.int? = some n) :
    type.encode v = (type.encodeInt n).map some := by
  cases v <;> cases h <;> rfl

/-- What is bound to an integer parameter is that integer. Only a null is
sent as no octets; an integer is sent, whatever the width it is held in, if
it is in the range of the parameter's type, as the octets of the type that
stand for it in two's complement; and an integer out of range is
refused. -/
theorem encode_keeps_integers (htype : type.integerWidth? = some width) (v : Value) :
    (type.encode v = .ok none ↔ v = .null)
      ∧ ∀ n, v.int? = some n →
        (-2 ^ (8 * width - 1) ≤ n ∧ n < 2 ^ (8 * width - 1)
          ∧ ∃ octets, type.encode v = .ok (some octets) ∧ octets.length = width
            ∧ BigEndian.toInt octets = n)
        ∨ (2 ^ (8 * width - 1) ≤ n ∧ type.encode v = .error .tooLarge)
        ∨ (n < -2 ^ (8 * width - 1) ∧ type.encode v = .error .tooSmall) := by
  refine ⟨encode_eq_none, fun n hn => ?_⟩
  rw [encode_integer hn, encodeInt_integer htype]
  have hcases := fit_cases (pow_integerWidth htype) n
  push_cast at hcases
  rcases hcases with ⟨hlow, hhigh, octets, hfit, hread⟩ | ⟨hhigh, hfit⟩ | ⟨hlow, hfit⟩
  · exact Or.inl ⟨hlow, hhigh, octets, by rw [hfit]; rfl, hread⟩
  · exact Or.inr (Or.inl ⟨hhigh, by rw [hfit]; rfl⟩)
  · exact Or.inr (Or.inr ⟨hlow, by rw [hfit]; rfl⟩)

/-- The least integer of the type is sent, the next one below it is not. -/
theorem encode_least_int2 :
    (∃ octets, int2.encode (.int64 (-32768)) = .ok (some octets) ∧ octets.length = 2
      ∧ BigEndian.toInt octets = -32768)
    ∧ int2.encode (.int32 (-32769)) = .error .tooSmall := by
  have hwidth : int2.integerWidth? = some 2 := rfl
  obtain ⟨-, hleast⟩ := encode_keeps_integers hwidth (.int64 (-32768))
  obtain ⟨-, hbelow⟩ := encode_keeps_integers hwidth (.int32 (-32769))
  constructor
  · rcases hleast (-32768) rfl with ⟨-, -, hsent⟩ | ⟨hhigh, -⟩ | ⟨hlow, -⟩
    · exact hsent
    · exact absurd hhigh (by decide)
    · exact absurd hlow (by decide)
  · rcases hbelow (-32769) rfl with ⟨hlow, -⟩ | ⟨hhigh, -⟩ | ⟨-, hfault⟩
    · exact absurd hlow (by decide)
    · exact absurd hhigh (by decide)
    · exact hfault

/-- Values of other kinds are sent as well: the number two in floating point
reads as an integer that it does not hold, and a truth value has a width
that no integer type has. -/
theorem encode_strangers :
    ¬ ∀ (v : Value) (octets : Octets), int8.encode v = .ok (some octets) →
      octets.length = 8 ∧ v.int? = some (BigEndian.toInt octets) := by
  intro hall
  obtain ⟨-, hread⟩ := hall (.float ⟨0x4000000000000000⟩) [0x40, 0, 0, 0, 0, 0, 0, 0] (by decide)
  cases hread

end ParameterType

end RecordQuery
