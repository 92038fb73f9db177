/-
Text as octets. A text is the octets of its characters in UTF-8; the
way back refuses malformed input and says where it stops being a text,
and whether it is wrong there or only cut short.
-/
import RecordQuery.Text.Hex

namespace RecordQuery.Utf8

/-- Why octets are not a text: at `index` a character starts whose first
`length` octets could not be continued, or, with no length, the input
ends inside it. -/
structure Fault where
  index : Nat
  length : Option Nat
deriving DecidableEq, Repr

namespace Fault

def message (fault : Fault) : String :=
  match fault.length with
  | some n => s!"invalid utf-8 sequence of {n} bytes from index {fault.index}"
  | none => s!"incomplete utf-8 byte sequence from index {fault.index}"

end Fault

-- ======================================================== where it fails

/-- The bounds of each octet that must follow a first octet; `none` when
no character starts with it. Overlong forms and surrogates are ruled out
by the bounds of the second octet. -/
def following? (first : Nat) : Option (List (Nat × Nat)) :=
  let tail := (0x80, 0xBF)
  if first < 0x80 then some []
  else if 0xC2 ≤ first ∧ first ≤ 0xDF then some [tail]
  else if first = 0xE0 then some [(0xA0, 0xBF), tail]
  else if first = 0xED then some [(0x80, 0x9F), tail]
  else if 0xE1 ≤ first ∧ first ≤ 0xEF then some [tail, tail]
  else if first = 0xF0 then some [(0x90, 0xBF), tail, tail]
  else if first = 0xF4 then some [(0x80, 0x8F), tail, tail]
  else if 0xF1 ≤ first ∧ first ≤ 0xF3 then some [tail, tail, tail]
  else none

/-- Scans on from `index`, inside a character that started at `start` and
still needs octets within `expected`. -/
def scan (start index : Nat) : List (Nat × Nat) → Octets → Option Fault
  | [], [] => none
  | _ :: _, [] => some ⟨start, none⟩
  | [], b :: rest =>
    match following? b.toNat with
    | some expected => scan index (index + 1) expected rest
    | none => some ⟨index, some 1⟩
  | (low, high) :: expected, b :: rest =>
    if low ≤ b.toNat ∧ b.toNat ≤ high then scan start (index + 1) expected rest
    else some ⟨start, some (index - start)⟩

/-- The first place where the octets stop being a text. -/
def fault? (octets : Octets) : Option Fault :=
  scan 0 0 [] octets

-- ====================================================== there and back

/-- The octets of a text. -/
def encode (text : String) : Octets :=
  text.toByteArray.data.toList

/-- The text of the octets, if they are one. -/
def decode? (octets : Octets) : Option String :=
  String.fromUTF8? ⟨octets.toArray⟩

/-- The text of the octets, or where they stop being one. -/
def decode (octets : Octets) : Except Fault String :=
  match decode? octets with
  | some text => .ok text
  | none => .error ((fault? octets).getD ⟨0, none⟩)

/-- The text of the octets, with a replacement character for each part that
belongs to none. -/
def decodeLossy (octets : Octets) : String :=
  match decode octets with
  | .ok text => text
  | .error fault =>
    let after := fault.index + max 1 (fault.length.getD octets.length)
    if after < octets.length then
      (decode? (octets.take fault.index)).getD "" ++ "\uFFFD" ++ decodeLossy (octets.drop after)
    else (decode? (octets.take fault.index)).getD "" ++ "\uFFFD"
termination_by octets.length
decreasing_by simp only [List.length_drop]; omega

theorem decode?_encode (text : String) : decode? (encode text) = some text := by
  simp [decode?, encode, String.fromUTF8?, text.isValidUTF8, String.fromUTF8]

end RecordQuery.Utf8
