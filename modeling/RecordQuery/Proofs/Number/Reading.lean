/-
The text of a decimal read back. Its digits stand for a whole number
wherever the point is put, and the point only says by which power of ten
that number is divided; an exponent is one more power of ten. So a decimal
is the number its text stands for in either form, and however many zeros
fill the places up to the point.
-/
import Mathlib.Algebra.Order.Field.Power
import Mathlib.Data.List.TakeWhile
import Mathlib.Tactic.Ring
import RecordQuery.Proofs.Value.KeyText

namespace RecordQuery

/-- The number that a decimal is. -/
def Decimal.toRat (d : Decimal) : ℚ :=
  d.digits * 10 ^ d.exponent

namespace Json

-- ================================================================ digits

/-- The number that digits stand for. -/
def digitsValue (cs : List Char) : Nat :=
  Nat.ofDigitChars 10 cs 0

@[simp] theorem digitsValue_natural (n : Nat) : digitsValue (natural n) = n :=
  Nat.ofDigitChars_ten_toDigits

/-- Zeros in front count for nothing. -/
theorem digitsValue_leading (n : Nat) (cs : List Char) :
    digitsValue (List.replicate n '0' ++ cs) = digitsValue cs := by
  unfold digitsValue
  rw [Nat.ofDigitChars_append, Nat.ofDigitChars_replicate_zero, Nat.mul_zero]

/-- Each zero behind counts for a factor of ten. -/
theorem digitsValue_trailing (n : Nat) (cs : List Char) :
    digitsValue (cs ++ List.replicate n '0') = 10 ^ n * digitsValue cs := by
  unfold digitsValue
  rw [Nat.ofDigitChars_append, Nat.ofDigitChars_replicate_zero]

/-- The number that digits with a point in them stand for. -/
def pointed (cs : List Char) : ℚ :=
  let fraction := (cs.dropWhile (· ≠ '.')).drop 1
  digitsValue (cs.takeWhile (· ≠ '.') ++ fraction) * 10 ^ (-(fraction.length : ℤ))

/-- The number that an exponent stands for. -/
def exponentValue : List Char → ℤ
  | '-' :: cs => -digitsValue cs
  | '+' :: cs => digitsValue cs
  | cs => digitsValue cs

/-- The number that a text stands for: digits with a point in them, and an
exponent behind the letter for it. -/
def numberOf (cs : List Char) : ℚ :=
  pointed (cs.takeWhile (· ≠ 'e')) * 10 ^ exponentValue ((cs.dropWhile (· ≠ 'e')).drop 1)

-- =============================================================== reading

section Reading

variable {whole fraction cs : List Char}

theorem ne_of_isDigit {c mark : Char} (hmark : mark.isDigit = false) (hc : c.isDigit = true) :
    decide (c ≠ mark) = true := by
  rw [decide_eq_true_iff]
  rintro rfl
  rw [hmark] at hc
  cases hc

theorem takeWhile_ne (mark : Char) (h : ∀ c ∈ whole, decide (c ≠ mark) = true)
    (cs : List Char) : (whole ++ mark :: cs).takeWhile (· ≠ mark) = whole := by
  rw [List.takeWhile_append_of_pos h, List.takeWhile_cons_of_neg (by simp), List.append_nil]

theorem dropWhile_ne (mark : Char) (h : ∀ c ∈ whole, decide (c ≠ mark) = true)
    (cs : List Char) : ((whole ++ mark :: cs).dropWhile (· ≠ mark)).drop 1 = cs := by
  rw [List.dropWhile_append_of_pos h, List.dropWhile_cons_of_neg (by simp), List.drop_one,
    List.tail_cons]

theorem pointed_append (h : ∀ c ∈ whole, c.isDigit = true) (fraction : List Char) :
    pointed (whole ++ '.' :: fraction)
      = digitsValue (whole ++ fraction) * 10 ^ (-(fraction.length : ℤ)) := by
  have hpoint : ∀ c ∈ whole, decide (c ≠ '.') = true := fun c hc => ne_of_isDigit rfl (h c hc)
  unfold pointed
  rw [takeWhile_ne '.' hpoint, dropWhile_ne '.' hpoint]

theorem pointed_whole (h : ∀ c ∈ whole, c.isDigit = true) : pointed whole = digitsValue whole := by
  have hpoint : ∀ c ∈ whole, decide (c ≠ '.') = true := fun c hc => ne_of_isDigit rfl (h c hc)
  unfold pointed
  rw [List.takeWhile_eq_self_iff.2 hpoint, List.dropWhile_eq_nil_iff.2 hpoint]
  simp

theorem numberOf_append (h : ∀ c ∈ cs, decide (c ≠ 'e') = true) (exponent : List Char) :
    numberOf (cs ++ 'e' :: exponent) = pointed cs * 10 ^ exponentValue exponent := by
  unfold numberOf
  rw [takeWhile_ne 'e' h, dropWhile_ne 'e' h]

/-- Without the letter for it there is no exponent. -/
theorem numberOf_pointed (h : ∀ c ∈ cs, decide (c ≠ 'e') = true) : numberOf cs = pointed cs := by
  unfold numberOf
  rw [List.takeWhile_eq_self_iff.2 h, List.dropWhile_eq_nil_iff.2 h]
  simp [exponentValue, digitsValue]

end Reading

-- ================================================================ forms

section Forms

variable {ds whole fraction : List Char} {leading : ℤ}

theorem numberOf_point (hwhole : ∀ c ∈ whole, c.isDigit = true)
    (hfraction : ∀ c ∈ fraction, c.isDigit = true) :
    numberOf (whole ++ '.' :: fraction)
      = digitsValue (whole ++ fraction) * 10 ^ (-(fraction.length : ℤ)) := by
  rw [numberOf_pointed, pointed_append hwhole]
  intro c hc
  rw [List.mem_append, List.mem_cons] at hc
  obtain hc | rfl | hc := hc
  · exact ne_of_isDigit rfl (hwhole c hc)
  · rfl
  · exact ne_of_isDigit rfl (hfraction c hc)

theorem isDigit_of_mem_zeros {n : Nat} {c : Char} (h : c ∈ List.replicate n '0') :
    c.isDigit = true := by
  rw [List.eq_of_mem_replicate h]
  rfl

theorem writtenOut_negative (ds : List Char) (h : leading < 0) :
    FloatNotation.writtenOut ds leading
      = '0' :: ('.' :: (List.replicate (-leading - 1).toNat '0' ++ ds)) := by
  unfold FloatNotation.writtenOut
  rw [if_pos h]
  rfl

theorem writtenOut_natural (ds : List Char) (n : Nat) :
    FloatNotation.writtenOut ds n
      = (ds.take (n + 1) ++ List.replicate (n + 1 - ds.length) '0')
        ++ '.' :: (if (ds.drop (n + 1)).isEmpty then ['0'] else ds.drop (n + 1)) := by
  have hzeros : ((n + 1 : ℕ) - (ds.length : ℤ)).toNat = n + 1 - ds.length := by omega
  unfold FloatNotation.writtenOut
  rw [if_neg (by omega)]
  show ds.take (n + 1) ++ List.replicate ((n + 1 : ℕ) - (ds.length : ℤ)).toNat '0' ++ _ = _
  rw [hzeros]
  rfl

/-- Digits with a point put among them, and zeros up to it where they do not
reach it, stand for the number whose first digit is of the leading
exponent. -/
theorem numberOf_writtenOut (hds : ∀ c ∈ ds, c.isDigit = true) (leading : ℤ) :
    numberOf (FloatNotation.writtenOut ds leading)
      = digitsValue ds * 10 ^ (leading + 1 - (ds.length : ℤ)) := by
  by_cases hleading : leading < 0
  · -- the point stands before the digits
    have hfraction : ∀ c ∈ List.replicate (-leading - 1).toNat '0' ++ ds, c.isDigit = true := by
      intro c hc
      exact (List.mem_append.1 hc).elim isDigit_of_mem_zeros (hds c)
    rw [writtenOut_negative ds hleading, ← List.singleton_append,
      numberOf_point (List.forall_mem_singleton.2 rfl) hfraction, List.singleton_append,
      ← List.cons_append, ← List.replicate_succ, digitsValue_leading, List.length_append,
      List.length_replicate]
    congr 2
    push_cast
    omega
  · obtain ⟨n, rfl⟩ := Int.eq_ofNat_of_zero_le (Int.not_lt.1 hleading)
    by_cases hlong : n + 1 < ds.length
    · -- the point stands among the digits
      have hform : FloatNotation.writtenOut ds n = ds.take (n + 1) ++ '.' :: ds.drop (n + 1) := by
        have hsome : ¬(ds.drop (n + 1)).isEmpty = true := by
          rw [List.isEmpty_iff, List.drop_eq_nil_iff]
          omega
        rw [writtenOut_natural, if_neg hsome, Nat.sub_eq_zero_of_le hlong.le, List.replicate_zero,
          List.append_nil]
      rw [hform, numberOf_point (fun c hc => hds c (List.mem_of_mem_take hc))
        (fun c hc => hds c (List.mem_of_mem_drop hc)), List.take_append_drop, List.length_drop]
      congr 2
      omega
    · -- it stands behind them
      have hform : FloatNotation.writtenOut ds n
          = (ds ++ List.replicate (n + 1 - ds.length) '0') ++ '.' :: ['0'] := by
        have hnone : (ds.drop (n + 1)).isEmpty = true := by
          rw [List.isEmpty_iff, List.drop_eq_nil_iff]
          omega
        rw [writtenOut_natural, if_pos hnone, List.take_of_length_le (by omega)]
      have hwhole : ∀ c ∈ ds ++ List.replicate (n + 1 - ds.length) '0', c.isDigit = true := by
        intro c hc
        exact (List.mem_append.1 hc).elim (hds c) isDigit_of_mem_zeros
      have hzeros : (ds ++ List.replicate (n + 1 - ds.length) '0') ++ ['0']
          = ds ++ List.replicate (n + 2 - ds.length) '0' := by
        rw [List.append_assoc, ← List.replicate_succ']
        congr 2
        omega
      rw [hform, numberOf_point hwhole (List.forall_mem_singleton.2 rfl), hzeros,
        digitsValue_trailing, List.length_singleton]
      have hexponent : (n : ℤ) + 1 - (ds.length : ℤ) = ((n + 2 - ds.length : ℕ) : ℤ) + -1 := by
        omega
      rw [hexponent, zpow_add₀ (by norm_num), zpow_natCast]
      push_cast
      ring

/-- A digit with a fraction behind it, if there is one. -/
def mantissa (first : Char) (rest : List Char) : List Char :=
  first :: (if rest.isEmpty then [] else '.' :: rest)

theorem pointed_mantissa {first : Char} {rest : List Char} (hfirst : first.isDigit = true) :
    pointed (mantissa first rest)
      = digitsValue (first :: rest) * 10 ^ (-(rest.length : ℤ)) := by
  have hwhole : ∀ c ∈ [first], c.isDigit = true := List.forall_mem_singleton.2 hfirst
  unfold mantissa
  cases rest with
  | nil =>
      show pointed [first] = _
      rw [pointed_whole hwhole]
      simp
  | cons second rest => exact pointed_append hwhole (second :: rest)

theorem ne_letter_of_mem_mantissa {first : Char} {rest : List Char}
    (hfirst : first.isDigit = true) (hrest : ∀ c ∈ rest, c.isDigit = true) :
    ∀ c ∈ mantissa first rest, decide (c ≠ 'e') = true := by
  intro c hc
  unfold mantissa at hc
  rw [List.mem_cons] at hc
  obtain rfl | hc := hc
  · exact ne_of_isDigit rfl hfirst
  · split at hc
    · cases hc
    · rw [List.mem_cons] at hc
      obtain rfl | hc := hc
      · rfl
      · exact ne_of_isDigit rfl (hrest c hc)

/-- An exponent is written with its sign either way. -/
theorem exponentValue_signed (n : ℤ) :
    exponentValue ((if n < 0 then ['-'] else ['+']) ++ natural n.natAbs) = n := by
  by_cases hn : n < 0
  · rw [if_pos hn]
    show -(digitsValue (natural n.natAbs) : ℤ) = n
    rw [digitsValue_natural]
    omega
  · rw [if_neg hn]
    show (digitsValue (natural n.natAbs) : ℤ) = n
    rw [digitsValue_natural]
    omega

/-- The exponent of the first digit is the exponent of the number if the
point stands behind that digit. -/
theorem numberOf_withExponent (hds : ∀ c ∈ ds, c.isDigit = true) (hne : ds ≠ [])
    (leading : ℤ) :
    numberOf (FloatNotation.withExponent "+" ds leading)
      = digitsValue ds * 10 ^ (leading + 1 - (ds.length : ℤ)) := by
  obtain ⟨first, rest, rfl⟩ := List.exists_cons_of_ne_nil hne
  obtain ⟨hfirst, hrest⟩ := List.forall_mem_cons.1 hds
  have hform : FloatNotation.withExponent "+" (first :: rest) leading
      = mantissa first rest
        ++ 'e' :: ((if leading < 0 then ['-'] else ['+']) ++ natural leading.natAbs) := rfl
  rw [hform, numberOf_append (ne_letter_of_mem_mantissa hfirst hrest), pointed_mantissa hfirst,
    exponentValue_signed, mul_assoc, ← zpow_add₀ (by norm_num), List.length_cons]
  congr 2
  push_cast
  ring

end Forms

/-- A decimal is the number that its text stands for. -/
theorem numberOf_decimal (d : Decimal) : numberOf (numbers.decimal d) = d.toRat := by
  have hds : ∀ c ∈ Nat.toDigits 10 d.digits, c.isDigit = true := fun c hc =>
    isDigit_of_mem_natural hc
  have hvalue : ∀ leading : ℤ,
      leading = d.exponent + ((Nat.toDigits 10 d.digits).length : ℤ) - 1 →
      (digitsValue (Nat.toDigits 10 d.digits) : ℚ)
        * 10 ^ (leading + 1 - ((Nat.toDigits 10 d.digits).length : ℤ)) = d.toRat := by
    rintro leading rfl
    rw [show digitsValue (Nat.toDigits 10 d.digits) = d.digits from digitsValue_natural d.digits]
    unfold Decimal.toRat
    congr 2
    ring
  unfold FloatNotation.decimal
  dsimp only
  split
  · rw [numberOf_writtenOut hds]
    exact hvalue _ rfl
  · exact (numberOf_withExponent hds Nat.toDigits_ne_nil _).trans (hvalue _ rfl)

-- ============================================================= numerals

/-- A digit, and then digits and the marks that a number is written with. -/
def Numeral (cs : List Char) : Prop :=
  ∃ first rest, cs = first :: rest ∧ first.isDigit = true
    ∧ ∀ c ∈ rest, c.isDigit = true ∨ c ∈ ['.', 'e', '+', '-']

theorem numeral_writtenOut {ds : List Char} (hds : ∀ c ∈ ds, c.isDigit = true) (hne : ds ≠ [])
    (leading : ℤ) : Numeral (FloatNotation.writtenOut ds leading) := by
  by_cases hleading : leading < 0
  · refine ⟨_, _, writtenOut_negative ds hleading, rfl, ?_⟩
    intro c hc
    rw [List.mem_cons, List.mem_append] at hc
    obtain rfl | hc | hc := hc
    · exact Or.inr (by decide)
    · exact Or.inl (isDigit_of_mem_zeros hc)
    · exact Or.inl (hds c hc)
  · obtain ⟨n, rfl⟩ := Int.eq_ofNat_of_zero_le (Int.not_lt.1 hleading)
    obtain ⟨first, rest, rfl⟩ := List.exists_cons_of_ne_nil hne
    obtain ⟨hfirst, hrest⟩ := List.forall_mem_cons.1 hds
    refine ⟨first, (rest.take n ++ List.replicate (n + 1 - (first :: rest).length) '0')
      ++ '.' :: (if (rest.drop n).isEmpty then ['0'] else rest.drop n),
      writtenOut_natural (first :: rest) n, hfirst, ?_⟩
    intro c hc
    rw [List.mem_append, List.mem_append, List.mem_cons] at hc
    obtain (hc | hc) | rfl | hc := hc
    · exact Or.inl (hrest c (List.mem_of_mem_take hc))
    · exact Or.inl (isDigit_of_mem_zeros hc)
    · exact Or.inr (by decide)
    · split at hc
      · rw [List.mem_singleton.1 hc]
        exact Or.inl rfl
      · exact Or.inl (hrest c (List.mem_of_mem_drop hc))

theorem numeral_withExponent {ds : List Char} (hds : ∀ c ∈ ds, c.isDigit = true) (hne : ds ≠ [])
    (leading : ℤ) : Numeral (FloatNotation.withExponent "+" ds leading) := by
  obtain ⟨first, rest, rfl⟩ := List.exists_cons_of_ne_nil hne
  obtain ⟨hfirst, hrest⟩ := List.forall_mem_cons.1 hds
  refine ⟨first, (if rest.isEmpty then [] else '.' :: rest)
    ++ 'e' :: ((if leading < 0 then ['-'] else ['+']) ++ natural leading.natAbs), rfl, hfirst, ?_⟩
  intro c hc
  rw [List.mem_append, List.mem_cons, List.mem_append] at hc
  obtain hc | rfl | hc | hc := hc
  · split at hc
    · cases hc
    · rw [List.mem_cons] at hc
      obtain rfl | hc := hc
      · exact Or.inr (by decide)
      · exact Or.inl (hrest c hc)
  · exact Or.inr (by decide)
  · split at hc
    · rw [List.mem_singleton.1 hc]
      exact Or.inr (by decide)
    · rw [List.mem_singleton.1 hc]
      exact Or.inr (by decide)
  · exact Or.inl (isDigit_of_mem_natural hc)

theorem numeral_decimal (d : Decimal) : Numeral (numbers.decimal d) := by
  have hds : ∀ c ∈ Nat.toDigits 10 d.digits, c.isDigit = true := fun c hc =>
    isDigit_of_mem_natural hc
  unfold FloatNotation.decimal
  dsimp only
  split
  · exact numeral_writtenOut hds Nat.toDigits_ne_nil _
  · exact numeral_withExponent hds Nat.toDigits_ne_nil _

end Json

end RecordQuery
