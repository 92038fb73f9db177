/-
Hosts of URLs. A host in brackets is an IPv6 address and is put into
its canonical form. What else a host may be depends on the scheme: for a
special scheme it is a domain name or an IPv4 address, for any other it is
kept as it is but for the encoding of controls and of what is not ASCII.
-/
import RecordQuery.Text.Casing
import RecordQuery.Url.Percent

namespace RecordQuery

/-- Why a text is no URL. -/
inductive UrlFault where
  | noScheme
  | emptyHost
  | portNumber
  | ipv4
  | ipv6
  | domainCharacter
  | domainName
deriving DecidableEq, Repr

def UrlFault.message : UrlFault → String
  | noScheme => "relative URL without a base"
  | emptyHost => "empty host"
  | portNumber => "invalid port number"
  | ipv4 => "invalid IPv4 address"
  | ipv6 => "invalid IPv6 address"
  | domainCharacter => "invalid domain character"
  | domainName => "invalid international domain name"

namespace Host

/-- A number in digits of a base, if there are any digits. -/
def number? (base : Nat) (digits : List Char) : Option Nat :=
  if digits.isEmpty then none
  else digits.foldlM (fun n c =>
    match Hex.value? c with
    | some d => if d < base then some (base * n + d) else none
    | none => none) 0

-- ============================================================ addresses

/-- A part of an IPv4 address inside an IPv6 address: decimal, below 256,
no zero before other digits. -/
def octet? (digits : List Char) : Option Nat :=
  if digits.head? = some '0' ∧ digits ≠ ['0'] then none
  else (number? 10 digits).filter (· < 256)

/-- The groups of an IPv6 address between colons. Where the address ends
with them, the last may be an IPv4 address, which makes two groups. -/
def groups? (last : Bool) : List (List Char) → Option (List Nat)
  | [] => some []
  | [digits] =>
    match last, (digits.splitOn '.').mapM octet? with
    | true, some [a, b, c, d] => some [256 * a + b, 256 * c + d]
    | _, _ => if digits.length ≤ 4 then (number? 16 digits).map ([·]) else none
  | digits :: rest => do
    let n ← if digits.length ≤ 4 then number? 16 digits else none
    pure (n :: (← groups? last rest))

/-- The parts of an address before and after its first two colons in a
row, if there are any. -/
def splitGap : List Char → List Char × Option (List Char)
  | ':' :: ':' :: rest => ([], some rest)
  | [] => ([], none)
  | c :: rest => (c :: (splitGap rest).1, (splitGap rest).2)

private def groupTexts (cs : List Char) : List (List Char) :=
  if cs.isEmpty then [] else cs.splitOn ':'

/-- The eight groups of an IPv6 address. Two colons in a row stand for the
groups that are missing, at least one. -/
def ipv6? (cs : List Char) : Option (List Nat) :=
  match splitGap cs with
  | (before, none) => (groups? true (groupTexts before)).filter (·.length = 8)
  | (before, some after) => do
    let front ← groups? false (groupTexts before)
    let back ← groups? true (groupTexts after)
    let known := front.length + back.length
    if known < 8 then pure (front ++ List.replicate (8 - known) 0 ++ back) else none

/-- How many groups at the front are zero. -/
def zeros (groups : List Nat) : Nat :=
  (groups.takeWhile (· = 0)).length

/-- The start of the first longest run of zeros, if it has two or more. -/
def longestGap? (groups : List Nat) : Option (Nat × Nat) :=
  let runs := (List.range groups.length).map fun i => (i, zeros (groups.drop i))
  runs.foldl (fun best run =>
    if 2 ≤ run.2 ∧ best.all (·.2 < run.2) then some run else best) none

/-- The canonical text of an IPv6 address. -/
def ipv6Text (groups : List Nat) : List Char :=
  let list := fun (ns : List Nat) => [':'].intercalate (ns.map (Nat.toDigits 16))
  match longestGap? groups with
  | none => list groups
  | some (start, size) =>
      list (groups.take start) ++ [':', ':'] ++ list (groups.drop (start + size))

/-- A part of an IPv4 address: hexadecimal behind `0x`, octal behind `0`,
else decimal. -/
def part? : List Char → Option Nat
  | [] => none
  | ['0'] => some 0
  | '0' :: x :: digits =>
    if x = 'x' ∨ x = 'X' then if digits.isEmpty then some 0 else number? 16 digits
    else number? 8 (x :: digits)
  | digits => number? 10 digits

private def domainParts (domain : List Char) : List (List Char) :=
  let parts := domain.splitOn '.'
  if 1 < parts.length ∧ parts.getLast? = some [] then parts.dropLast else parts

/-- Whether a domain name is meant as an IPv4 address. -/
def endsInNumber (domain : List Char) : Bool :=
  match (domainParts domain).getLast? with
  | none | some [] => false
  | some last => last.all Char.isDigit || (part? last).isSome

/-- Whether a domain name is an IPv4 address. The last of its up to four
parts fills the octets that are left. -/
def isIpv4 (domain : List Char) : Bool :=
  match (domainParts domain).mapM part? with
  | none => false
  | some parts =>
    parts.length ≤ 4 && parts.dropLast.all (· < 256) &&
      parts.getLast?.any (· < Nat.pow 256 (5 - parts.length))

-- ================================================================= hosts

/-- What no host can hold as it is. -/
def forbidden (c : Char) : Bool :=
  c = '\x00' || "\t\n\r #/:<>?@[\\]^|".toList.contains c

/-- What no domain name can hold. -/
def forbiddenInDomain (c : Char) : Bool :=
  forbidden c || c.toNat < 0x20 || c = '%' || c.toNat = 0x7F

/-- The domain name or address of a special scheme. The names of domains
are not looked into beyond their characters. -/
def domain (cs : List Char) : Except UrlFault (List Char) :=
  match Utf8.decode? (Percent.decode (Utf8.encode (String.ofList cs))) with
  | none => .error .domainName
  | some text =>
    let name := text.toList.map Casing.lower
    if name.any forbiddenInDomain then .error .domainName
    else if name.isEmpty then .error .emptyHost
    else if endsInNumber name && !isIpv4 name then .error .ipv4
    else .ok name

/-- The host that a text stands for. -/
def parse (special : Bool) (cs : List Char) : Except UrlFault (List Char) :=
  if cs.head? = some '[' then
    if cs.getLast? = some ']' then
      match ipv6? (cs.drop 1).dropLast with
      | some groups => .ok ('[' :: (ipv6Text groups ++ [']']))
      | none => .error .ipv6
    else .error .ipv6
  else if special then domain cs
  else if cs.any forbidden then .error .domainCharacter
  else .ok (Percent.encode Percent.control cs)

end Host

end RecordQuery
