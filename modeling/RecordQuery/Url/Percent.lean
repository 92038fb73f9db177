/-
Percent encoding: characters that a part of a URL cannot hold are written
as the octets of their UTF-8 form, each as a percent sign and two
upper-case digits. The percent sign itself is left alone, so what is
encoded already stays as it is.
-/
import RecordQuery.Text.Utf8

namespace RecordQuery.Percent

-- ================================================================== sets

/-- Controls and whatever is not ASCII are encoded everywhere. -/
def control (c : Char) : Bool :=
  c.toNat < 0x20 || 0x7F ≤ c.toNat

/-- What is encoded in a query. -/
def query (c : Char) : Bool :=
  control c || " \"#<>".toList.contains c

/-- What is encoded in a fragment. -/
def fragment (c : Char) : Bool :=
  control c || c = ' ' || c = '"' || c = '<' || c = '>' || c.toNat = 0x60

/-- What is encoded in a path of segments. -/
def path (c : Char) : Bool :=
  query c || c.toNat = 0x60 || "?^\x7b\x7d".toList.contains c

/-- What is encoded in a user name and a password. -/
def userinfo (c : Char) : Bool :=
  path c || "/:;=@[\\]|".toList.contains c

-- ============================================================== encoding

private def upperDigit (n : Nat) : Char :=
  if n < 10 then Char.ofNat (48 + n) else Char.ofNat (55 + n)

/-- An octet as a percent sign and two digits. -/
def octet (b : UInt8) : List Char :=
  ['%', upperDigit (b.toNat / 16), upperDigit (b.toNat % 16)]

/-- Encodes the characters of a set. -/
def encode (set : Char → Bool) (cs : List Char) : List Char :=
  cs.flatMap fun c =>
    if set c then (Utf8.encode (String.singleton c)).flatMap octet else [c]

-- ============================================================== decoding

/-- The octets of a text whose encoded octets are decoded. A percent sign
without two digits behind it stands for itself. -/
def decode : Octets → Octets
  | [] => []
  | [b] => [b]
  | [b, c] => [b, c]
  | b :: high :: low :: rest =>
    if b = 0x25 then
      match Hex.value? (Char.ofNat high.toNat), Hex.value? (Char.ofNat low.toNat) with
      | some h, some l => UInt8.ofNat (16 * h + l) :: decode rest
      | _, _ => b :: decode (high :: low :: rest)
    else b :: decode (high :: low :: rest)

/-- The text of a name or value in a query, where a plus sign stands for a
space. -/
def decodeForm (cs : List Char) : String :=
  let spaced := cs.map fun c => if c = '+' then ' ' else c
  Utf8.decodeLossy (decode (Utf8.encode (String.ofList spaced)))

end RecordQuery.Percent
