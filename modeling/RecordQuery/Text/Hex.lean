/-
Hexadecimal digits: the written form of octets, two digits each, and
its reader. Writing uses lower case; reading takes either case, so the
reader undoes the writer and also accepts what others write.
-/

namespace RecordQuery

/-- A sequence of octets, as stored and as sent. -/
abbrev Octets := List UInt8

namespace Hex

-- ============================================================== digits

/-- The lower-case digit of a number below sixteen. -/
def digit (n : Nat) : Char :=
  if n < 10 then Char.ofNat (48 + n) else Char.ofNat (87 + n)

/-- The number a digit stands for, in either case. -/
def value? (c : Char) : Option Nat :=
  let n := c.toNat
  if 48 ≤ n ∧ n ≤ 57 then some (n - 48)
  else if 97 ≤ n ∧ n ≤ 102 then some (n - 87)
  else if 65 ≤ n ∧ n ≤ 70 then some (n - 55)
  else none

-- ============================================================== octets

/-- Two digits for each octet, the high half first. -/
def encode : Octets → List Char
  | [] => []
  | b :: rest => digit (b.toNat / 16) :: digit (b.toNat % 16) :: encode rest

/-- Reads pairs of digits; a digit left over, or any other character,
is refused. -/
def decode? : List Char → Option Octets
  | [] => some []
  | [_] => none
  | high :: low :: rest =>
    match value? high, value? low, decode? rest with
    | some h, some l, some octets => some (UInt8.ofNat (16 * h + l) :: octets)
    | _, _, _ => none

-- ================================================================== laws

theorem value?_digit : ∀ n < 16, value? (digit n) = some n := by decide

/-- Reading undoes writing. -/
theorem decode?_encode (octets : Octets) : decode? (encode octets) = some octets := by
  induction octets with
  | nil => rfl
  | cons b rest ih =>
      have hb := b.toNat_lt
      have hhigh := value?_digit (b.toNat / 16) (by omega)
      have hlow := value?_digit (b.toNat % 16) (by omega)
      have hwhole : 16 * (b.toNat / 16) + b.toNat % 16 = b.toNat := Nat.div_add_mod _ _
      simp only [encode, decode?, hhigh, hlow, ih, hwhole, UInt8.ofNat_toNat]

theorem encode_append (a b : Octets) : encode (a ++ b) = encode a ++ encode b := by
  induction a with
  | nil => rfl
  | cons x a ih => rw [List.cons_append, encode, encode, ih, List.cons_append, List.cons_append]

theorem length_encode (octets : Octets) : (encode octets).length = 2 * octets.length := by
  induction octets with
  | nil => rfl
  | cons b rest ih =>
      rw [encode, List.length_cons, List.length_cons, ih, List.length_cons]
      omega

end Hex

end RecordQuery
