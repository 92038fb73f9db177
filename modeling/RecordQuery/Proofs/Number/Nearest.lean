/-
The shortest decimal of a number tells the number. Between a number and
each of its neighbours lies the point halfway; what is between the two
points of a number rounds to it, and the points themselves do if its
significand is even. The shortest decimal is chosen among the decimals that
do.

Numbers of one sign are counted by their bits, and the upper point of each
is the lower point of the next, also where one binade ends and the numbers
of the next lie twice as far apart. So what rounds to two numbers could only
be the point between neighbours, and of two neighbours one has an odd
significand.
-/
import Mathlib.Algebra.Order.Field.Power
import Mathlib.Algebra.Order.Ring.Rat
import Mathlib.Order.Monotone.Basic
import Mathlib.Tactic.FieldSimp
import Mathlib.Tactic.Positivity
import RecordQuery.Proofs.Number.Reading

namespace RecordQuery

namespace Shortest

namespace Magnitude

variable {v : Magnitude} {q : ℚ} {e : ℤ}

-- ============================================================== rounding

/-- A quarter of the distance to the next number. -/
def quarter (v : Magnitude) : ℚ :=
  2 ^ (v.scale - 2)

/-- The point halfway to the number below. -/
def low (v : Magnitude) : ℚ :=
  (4 * v.significand - (if v.leastOfBinade then 1 else 2) : ℕ) * v.quarter

/-- The point halfway to the number above. -/
def high (v : Magnitude) : ℚ :=
  (4 * v.significand + 2 : ℕ) * v.quarter

/-- What rounds to a number, ties to the one with an even significand. -/
def Rounds (v : Magnitude) (q : ℚ) : Prop :=
  if v.significand % 2 = 0 then v.low ≤ q ∧ q ≤ v.high else v.low < q ∧ q < v.high

theorem quarter_pos (v : Magnitude) : 0 < v.quarter :=
  zpow_pos (by norm_num) _

theorem low_lt_high (v : Magnitude) : v.low < v.high := by
  unfold low high
  apply mul_lt_mul_of_pos_right _ v.quarter_pos
  rw [Nat.cast_lt]
  omega

theorem Rounds.within (h : v.Rounds q) : v.low ≤ q ∧ q ≤ v.high := by
  unfold Rounds at h
  split at h
  · exact h
  · exact ⟨h.1.le, h.2.le⟩

theorem rounds_of_lt (hlow : v.low < q) (hhigh : q < v.high) : v.Rounds q := by
  unfold Rounds
  split
  · exact ⟨hlow.le, hhigh.le⟩
  · exact ⟨hlow, hhigh⟩

-- ================================================================= grids

/-- Of a power with a whole exponent, the part that is no fraction. -/
theorem pow_toNat {b : ℚ} (hb : b ≠ 0) (k : ℤ) : b ^ k.toNat = b ^ k * b ^ (-k).toNat := by
  rw [← zpow_natCast, ← zpow_natCast, ← zpow_add₀ hb]
  congr 1
  omega

/-- How many of the common unit of a grid make one. -/
def unit (v : Magnitude) (e : ℤ) : ℚ :=
  10 ^ (-e).toNat * 2 ^ (2 - v.scale).toNat

theorem unit_pos (v : Magnitude) (e : ℤ) : 0 < v.unit e := by
  unfold unit
  positivity

theorem grid_quarter (v : Magnitude) (e : ℤ) :
    ((v.grid e).quarter : ℚ) = v.quarter * v.unit e := by
  have hscale := pow_toNat (b := 2) (by norm_num) (v.scale - 2)
  rw [neg_sub] at hscale
  unfold grid quarter unit
  simp only [Nat.pow_eq]
  push_cast
  rw [hscale]
  ring

theorem grid_step (v : Magnitude) (e : ℤ) : ((v.grid e).step : ℚ) = 10 ^ e * v.unit e := by
  unfold grid unit
  simp only [Nat.pow_eq]
  push_cast
  rw [pow_toNat (b := 10) (by norm_num) e]
  ring

/-- Quarters of a number and points of a grid, counted in the common
unit. -/
theorem cast_quarters (v : Magnitude) (e : ℤ) (a : ℕ) :
    ((a * (v.grid e).quarter : ℕ) : ℚ) = a * v.quarter * v.unit e := by
  rw [Nat.cast_mul, grid_quarter, mul_assoc]

theorem cast_point (v : Magnitude) (e : ℤ) (count : ℕ) :
    ((count * (v.grid e).step : ℕ) : ℚ) = count * 10 ^ e * v.unit e := by
  rw [Nat.cast_mul, grid_step, mul_assoc]

/-- The points of a grid that are admitted are those that round to the
number. -/
theorem admits_iff (v : Magnitude) (e : ℤ) (count : ℕ) :
    v.admits (v.grid e) count = true ↔ v.Rounds (count * 10 ^ e) := by
  have hunit := v.unit_pos e
  unfold admits Rounds low high
  dsimp only
  split
  · rw [Bool.and_eq_true, decide_eq_true_iff, decide_eq_true_iff, ← Nat.cast_le (α := ℚ),
      ← Nat.cast_le (α := ℚ), cast_quarters, cast_quarters, cast_point,
      mul_le_mul_iff_left₀ hunit, mul_le_mul_iff_left₀ hunit]
  · rw [Bool.and_eq_true, decide_eq_true_iff, decide_eq_true_iff, ← Nat.cast_lt (α := ℚ),
      ← Nat.cast_lt (α := ℚ), cast_quarters, cast_quarters, cast_point,
      mul_lt_mul_iff_left₀ hunit, mul_lt_mul_iff_left₀ hunit]

-- ============================================================== decimals

/-- A neighbour on a grid is taken only if it rounds to the number. -/
theorem rounds_of_neighbour? {d : Decimal} (h : v.neighbour? e = some d) : v.Rounds d.toRat := by
  unfold neighbour? at h
  dsimp only at h
  split at h
  · next hbelow habove =>
    rw [Bool.and_eq_true] at hbelow
    split at h
    · cases h
      exact (admits_iff v e _).1 hbelow.2
    · cases h
      exact (admits_iff v e _).1 habove
  · next hbelow _ =>
    cases h
    rw [Bool.and_eq_true] at hbelow
    exact (admits_iff v e _).1 hbelow.2
  · next _ habove =>
    cases h
    exact (admits_iff v e _).1 habove
  · cases h

theorem toRat_exact (v : Magnitude) : v.exact.toRat = v.significand * 2 ^ v.scale := by
  unfold exact Decimal.toRat
  simp only [Nat.pow_eq]
  by_cases hscale : 0 ≤ v.scale
  · obtain ⟨n, hn⟩ := Int.eq_ofNat_of_zero_le hscale
    rw [if_pos hscale, hn]
    simp
  · obtain ⟨n, hn⟩ := Int.exists_eq_neg_ofNat (Int.not_le.1 hscale).le
    rw [if_neg hscale, hn, neg_neg, Int.toNat_natCast, zpow_neg, zpow_neg, zpow_natCast,
      zpow_natCast, show (10 : ℚ) = 5 * 2 by norm_num, mul_pow]
    push_cast
    field_simp

theorem rounds_exact (h : 0 < v.significand) : v.Rounds v.exact.toRat := by
  have hvalue : v.exact.toRat = (4 * v.significand : ℕ) * v.quarter := by
    rw [toRat_exact]
    unfold quarter
    rw [zpow_sub₀ (by norm_num)]
    push_cast
    ring
  rw [hvalue]
  apply rounds_of_lt
  · unfold low
    apply mul_lt_mul_of_pos_right _ v.quarter_pos
    rw [Nat.cast_lt]
    split <;> omega
  · unfold high
    apply mul_lt_mul_of_pos_right _ v.quarter_pos
    rw [Nat.cast_lt]
    omega

theorem toRat_trim (digits : ℕ) (exponent : ℤ) :
    (Decimal.trim digits exponent).toRat = (Decimal.mk digits exponent).toRat := by
  induction digits, exponent using Decimal.trim.induct with
  | case1 digits exponent h ih =>
      have hdigits : (digits : ℚ) = (digits / 10 : ℕ) * 10 := by
        exact_mod_cast (Nat.div_mul_cancel (Nat.dvd_of_mod_eq_zero h.2)).symm
      rw [Decimal.trim, dif_pos h, ih]
      unfold Decimal.toRat
      dsimp only
      rw [hdigits, zpow_add_one₀ (by norm_num)]
      ring
  | case2 digits exponent h => rw [Decimal.trim, dif_neg h]

/-- The shortest decimal of a number rounds to the number. -/
theorem rounds_decimal (h : 0 < v.significand) : v.Rounds v.decimal.toRat := by
  unfold decimal
  dsimp only
  rw [toRat_trim]
  cases hfound : (List.range 17).findSome? fun (n : ℕ) => v.neighbour? (v.leadingExponent - n) with
  | none => exact rounds_exact h
  | some d =>
      obtain ⟨n, -, hneighbour⟩ := List.exists_of_findSome?_eq_some hfound
      exact rounds_of_neighbour? hneighbour

-- ============================================================ neighbours

/-- The number at a place, where the positive numbers are counted in their
order: fifty-two bits of the place are the fraction, those above them the
exponent. -/
def ofPlace (n : ℕ) : Magnitude where
  significand := if n / 2 ^ 52 = 0 then n % 2 ^ 52 else 2 ^ 52 + n % 2 ^ 52
  scale := if n / 2 ^ 52 = 0 then -1074 else (n / 2 ^ 52 : ℕ) - 1075
  leastOfBinade := n % 2 ^ 52 == 0 && 1 < n / 2 ^ 52

theorem significand_ofPlace_mod (n : ℕ) : (ofPlace n).significand % 2 = n % 2 := by
  unfold ofPlace
  dsimp only
  split <;> omega

theorem significand_ofPlace_pos {n : ℕ} (h : 0 < n) : 0 < (ofPlace n).significand := by
  unfold ofPlace
  dsimp only
  split <;> omega

theorem ofPlace_eq {exponent fraction : ℕ} (h : fraction < 2 ^ 52) :
    ofPlace (exponent * 2 ^ 52 + fraction)
      = { significand := if exponent = 0 then fraction else 2 ^ 52 + fraction
          scale := if exponent = 0 then -1074 else exponent - 1075
          leastOfBinade := fraction == 0 && 1 < exponent } := by
  have hexponent : (exponent * 2 ^ 52 + fraction) / 2 ^ 52 = exponent := by omega
  have hfraction : (exponent * 2 ^ 52 + fraction) % 2 ^ 52 = fraction := by omega
  unfold ofPlace
  rw [hexponent, hfraction]

/-- Within a binade the point between neighbours is half a step from
either. -/
theorem low_succ_within {exponent fraction : ℕ} (h : fraction + 1 < 2 ^ 52) :
    (ofPlace (exponent * 2 ^ 52 + fraction + 1)).low
      = (ofPlace (exponent * 2 ^ 52 + fraction)).high := by
  have hcount : 4 * (if exponent = 0 then fraction + 1 else 2 ^ 52 + (fraction + 1)) - 2
      = 4 * (if exponent = 0 then fraction else 2 ^ 52 + fraction) + 2 := by
    split <;> omega
  rw [Nat.add_assoc, ofPlace_eq h, ofPlace_eq (Nat.lt_of_succ_lt h)]
  unfold low high
  dsimp only
  rw [show (fraction + 1 == 0 && decide (1 < exponent)) = false from rfl, if_neg Bool.false_ne_true,
    hcount]
  rfl

/-- Where a binade ends the point is half a step from the last number of the
binade, and a quarter of a step of the next binade from the first of that. -/
theorem low_succ_last (exponent : ℕ) :
    (ofPlace ((exponent + 1) * 2 ^ 52 + 0)).low
      = (ofPlace (exponent * 2 ^ 52 + (2 ^ 52 - 1))).high := by
  rw [ofPlace_eq (by decide), ofPlace_eq (by decide)]
  unfold low high quarter
  dsimp only
  cases exponent with
  | zero => norm_num
  | succ e =>
      have hscale : ((e + 1 + 1 : ℕ) : ℤ) - 1075 - 2 = ((e + 1 : ℕ) : ℤ) - 1075 - 2 + 1 := by
        omega
      have hleast : (0 == 0 && decide (1 < e + 1 + 1)) = true := by simp
      rw [if_neg (Nat.succ_ne_zero _), if_neg (Nat.succ_ne_zero _), if_neg (Nat.succ_ne_zero _),
        if_neg (Nat.succ_ne_zero _), if_pos hleast, hscale, zpow_add_one₀ (by norm_num)]
      norm_num
      ring

/-- A number and the next one meet halfway. -/
theorem low_succ (n : ℕ) : (ofPlace (n + 1)).low = (ofPlace n).high := by
  have hn : n = n / 2 ^ 52 * 2 ^ 52 + n % 2 ^ 52 := by omega
  by_cases hlast : n % 2 ^ 52 + 1 < 2 ^ 52
  · rw [hn]
    exact low_succ_within hlast
  · have hfraction : n % 2 ^ 52 = 2 ^ 52 - 1 := by omega
    rw [hfraction] at hn
    have hnext : n + 1 = (n / 2 ^ 52 + 1) * 2 ^ 52 + 0 := by omega
    rw [hnext, low_succ_last, ← hn]

theorem high_strictMono : StrictMono fun n => (ofPlace n).high := by
  apply strictMono_nat_of_lt_succ
  intro n
  rw [← low_succ]
  exact low_lt_high _

/-- Of two numbers, what rounds to the lower one does not round to the
other. -/
theorem not_rounds_of_lt {m n : ℕ} (hlt : m < n) (hm : (ofPlace m).Rounds q) :
    ¬(ofPlace n).Rounds q := by
  intro hn
  obtain ⟨k, rfl⟩ : ∃ k, n = k + 1 := ⟨n - 1, by omega⟩
  have hbetween : (ofPlace k).high ≤ (ofPlace m).high := by
    rw [← low_succ]
    exact hn.within.1.trans hm.within.2
  have hsame : k = m := le_antisymm (high_strictMono.le_iff_le.1 hbetween) (by omega)
  subst hsame
  -- one of two neighbours does not have the point between them
  have hparity := significand_ofPlace_mod k
  have hparity' := significand_ofPlace_mod (k + 1)
  have hhigh := hm.within.2
  have hlow := hn.within.1
  rw [low_succ] at hlow
  unfold Rounds at hm hn
  rw [hparity] at hm
  rw [hparity', low_succ] at hn
  by_cases heven : k % 2 = 0
  · rw [if_neg (by omega)] at hn
    exact absurd hhigh (not_le.2 hn.1)
  · rw [if_neg heven] at hm
    exact absurd hlow (not_le.2 hm.2)

/-- What rounds to a number tells its place. -/
theorem place_unique {m n : ℕ} (hm : (ofPlace m).Rounds q) (hn : (ofPlace n).Rounds q) :
    m = n := by
  obtain hlt | heq | hlt := Nat.lt_trichotomy m n
  · exact absurd hn (not_rounds_of_lt hlt hm)
  · exact heq
  · exact absurd hm (not_rounds_of_lt hlt hn)

/-- Nothing that rounds to a positive number is zero. -/
theorem pos_of_rounds {n : ℕ} (hn : 0 < n) (h : (ofPlace n).Rounds q) : 0 < q := by
  obtain ⟨k, rfl⟩ : ∃ k, n = k + 1 := ⟨n - 1, by omega⟩
  have hlow := h.within.1
  rw [low_succ] at hlow
  refine lt_of_lt_of_le ?_ hlow
  unfold high
  exact mul_pos (by exact_mod_cast Nat.succ_pos _) (quarter_pos _)

end Magnitude

end Shortest

namespace Binary64

open Shortest

variable {x y : Binary64}

/-- The bits of a number less its sign: its place among the numbers that are
not negative. -/
def place (x : Binary64) : ℕ :=
  x.exponentField * 2 ^ 52 + x.fraction

theorem fraction_lt (x : Binary64) : x.fraction < 2 ^ 52 :=
  Nat.mod_lt _ (by decide)

theorem of_eq_ofPlace (x : Binary64) : Magnitude.of x = .ofPlace x.place := by
  have hfraction := x.fraction_lt
  have hexponent : x.place / 2 ^ 52 = x.exponentField := by
    unfold place
    omega
  have hrest : x.place % 2 ^ 52 = x.fraction := by
    unfold place
    omega
  unfold Magnitude.of Magnitude.ofPlace significand scale
  rw [hexponent, hrest]
  rfl

/-- The sign and the place are all the bits. -/
theorem ext_place (hsign : x.isNegative = y.isNegative) (hplace : x.place = y.place) :
    x = y := by
  have hbits : x.bits.toNat = y.bits.toNat := by
    have hx := x.bits.toNat_lt
    have hy := y.bits.toNat_lt
    unfold isNegative at hsign
    unfold place exponentField fraction at hplace
    simp only [Nat.pow_eq] at hsign hplace
    rw [decide_eq_decide] at hsign
    omega
  show (⟨x.bits⟩ : Binary64) = ⟨y.bits⟩
  rw [UInt64.toNat_inj.1 hbits]

theorem place_of_isZero (h : x.isZero = true) : x.place = 0 := by
  unfold isZero at h
  rw [Bool.and_eq_true, beq_iff_eq, beq_iff_eq] at h
  unfold place
  rw [h.1, h.2, Nat.zero_mul]

theorem place_pos (h : x.isZero = false) : 0 < x.place := by
  rw [Nat.pos_iff_ne_zero]
  intro hplace
  have hfields : x.exponentField = 0 ∧ x.fraction = 0 := by
    unfold place at hplace
    omega
  unfold isZero at h
  rw [hfields.1, hfields.2] at h
  cases h

/-- The decimal of a number rounds to the number. -/
theorem rounds_decimal (h : x.isZero = false) :
    (Magnitude.ofPlace x.place).Rounds x.decimal.toRat := by
  unfold decimal
  rw [h, if_neg Bool.false_ne_true, ← of_eq_ofPlace]
  apply Magnitude.rounds_decimal
  rw [of_eq_ofPlace]
  exact Magnitude.significand_ofPlace_pos (place_pos h)

/-- Zero has the decimal zero, and no other number has. -/
theorem toRat_decimal_eq_zero_iff : x.decimal.toRat = 0 ↔ x.isZero = true := by
  constructor
  · intro hzero
    by_contra h
    rw [Bool.not_eq_true] at h
    have hpos := Magnitude.pos_of_rounds (place_pos h) (rounds_decimal h)
    rw [hzero] at hpos
    exact lt_irrefl 0 hpos
  · intro h
    unfold decimal
    rw [if_pos h]
    simp [Decimal.toRat]

/-- Numbers of one decimal are the same but for their signs. -/
theorem place_eq_of_toRat (h : x.decimal.toRat = y.decimal.toRat) : x.place = y.place := by
  have hzero : x.isZero = true ↔ y.isZero = true := by
    rw [← toRat_decimal_eq_zero_iff, ← toRat_decimal_eq_zero_iff, h]
  cases hx : x.isZero with
  | true => rw [place_of_isZero hx, place_of_isZero (hzero.1 hx)]
  | false =>
      have hy : y.isZero = false := by
        rw [Bool.eq_false_iff, ne_eq, ← hzero, hx]
        exact Bool.false_ne_true
      have hrounds := rounds_decimal hx
      rw [h] at hrounds
      exact Magnitude.place_unique hrounds (rounds_decimal hy)

end Binary64

end RecordQuery
