/-
Universally unique identifiers: sixteen octets, written as 32 lower-case
digits in groups of 8, 4, 4, 4 and 12 with hyphens between them.

Read is more than is written: digits of either case, the plain form
without hyphens, and the hyphenated form in braces or behind `urn:uuid:`.
-/
import RecordQuery.Text.Casing
import RecordQuery.Text.Utf8

namespace RecordQuery

/-- Sixteen octets that identify something. -/
structure Uuid where
  octets : Octets
  length_octets : octets.length = 16
deriving DecidableEq, Repr

namespace Uuid

/-- The identifier of all zeros. -/
def nil : Uuid := ⟨List.replicate 16 0, by simp⟩

instance : Inhabited Uuid := ⟨nil⟩

/-- The identifier made of these octets, if they are sixteen. -/
def ofOctets? (octets : Octets) : Option Uuid :=
  if h : octets.length = 16 then some ⟨octets, h⟩ else none

-- ============================================================== writing

/-- The characters of an identifier, in groups of 4, 2, 2, 2 and 6
octets. -/
def chars (id : Uuid) : List Char :=
  let group := fun start size => Hex.encode ((id.octets.drop start).take size)
  group 0 4 ++ '-' :: group 4 2 ++ '-' :: group 6 2 ++ '-' :: group 8 2 ++ '-' :: group 10 6

/-- The hyphenated text of an identifier. -/
def text (id : Uuid) : String :=
  String.ofList id.chars

-- ============================================================== reading

/-- Why a text is no identifier: a character that none can hold, a number
of digits that no form has, a number of groups other than five, or a
group of the wrong length. -/
inductive Fault where
  | character (found : Char) (index : Nat)
  | length (found : Nat)
  | groupCount (found : Nat)
  | groupLength (group expected found : Nat)
deriving DecidableEq, Repr

def Fault.message : Fault → String
  | .character found index => s!"invalid character: found `{found}` at {index}"
  | .length found => s!"invalid length: found {found}"
  | .groupCount found => s!"invalid group count: expected 5, found {found}"
  | .groupLength group expected found =>
    s!"invalid group length in group {group}: expected {expected}, found {found}"

/-- Reads 32 digits. -/
def plain? (cs : List Char) : Option Uuid :=
  (Hex.decode? cs).bind ofOctets?

/-- Reads 32 digits with a hyphen after the 8th, 12th, 16th and 20th. -/
def hyphenated? (cs : List Char) : Option Uuid :=
  if cs.length = 36 ∧ cs[8]? = some '-' ∧ cs[13]? = some '-' ∧ cs[18]? = some '-' ∧
      cs[23]? = some '-' then
    plain? (cs.take 8 ++ (cs.drop 9).take 4 ++ (cs.drop 14).take 4 ++ (cs.drop 19).take 4 ++
      cs.drop 24)
  else none

private def urn : List Char := "urn:uuid:".toList

/-- The part of a text inside its braces or behind `urn:uuid:`, how many
characters stand before it, and whether there was no such wrapping. -/
def unwrap (cs : List Char) : List Char × Nat × Bool :=
  if cs.head? = some '{' ∧ cs.getLast? = some '}' ∧ 1 < cs.length then
    ((cs.drop 1).dropLast, 1, false)
  else if (cs.take 9).map Casing.lower = urn then (cs.drop 9, 9, false)
  else (cs, 0, true)

/-- The identifier that characters spell, in any of its forms. -/
def ofChars? (cs : List Char) : Option Uuid :=
  if cs.length = 32 then plain? cs
  else hyphenated? (unwrap cs).1

/-- The identifier that a text spells, in any of its forms. -/
def parse? (text : String) : Option Uuid :=
  ofChars? text.toList

/-- The first character that is no digit and no hyphen, with its position
in octets. -/
def strayCharacter? (index : Nat) : List Char → Option (Char × Nat)
  | [] => none
  | c :: rest =>
    if c = '-' ∨ (Hex.value? c).isSome then strayCharacter? (index + c.utf8Size) rest
    else some (c, index)

/-- The lengths of the groups between hyphens. -/
def groupLengths (cs : List Char) : List Nat :=
  (cs.splitOn '-').map List.length

/-- Why a text that spells no identifier does not. -/
def fault (text : String) : Fault :=
  let (cs, before, bare) := unwrap text.toList
  match strayCharacter? before cs with
  | some (c, index) => .character c index
  | none =>
    let found := groupLengths cs
    if found.length = 1 && bare then .length cs.length
    else if found.length ≠ 5 then .groupCount found.length
    else
      let groups := (List.range 5).zip ([8, 4, 4, 4, 12].zip found)
      match groups.find? fun (_, expected, size) => expected ≠ size with
      | some (group, expected, size) => .groupLength group expected size
      | none => .length cs.length

/-- The identifier that a text spells, or why it spells none. -/
def parse (text : String) : Except Fault Uuid :=
  match parse? text with
  | some id => .ok id
  | none => .error (fault text)

-- ================================================================== laws

/-- Five groups of the right lengths are read without the hyphens. -/
theorem hyphenated?_groups {a b c d e : List Char} (ha : a.length = 8) (hb : b.length = 4)
    (hc : c.length = 4) (hd : d.length = 4) (he : e.length = 12) :
    hyphenated? (a ++ '-' :: b ++ '-' :: c ++ '-' :: d ++ '-' :: e)
      = plain? (a ++ b ++ c ++ d ++ e) := by
  unfold hyphenated?
  rw [if_pos]
  · simp [List.drop_append, List.drop_eq_nil_of_le, ha, hb, hc, hd]
  · simp [ha, hb, hc, hd, he]

/-- What begins with a digit is in no wrapping. -/
theorem unwrap_digit {n : Nat} (hn : n < 16) (cs : List Char) :
    unwrap (Hex.digit n :: cs) = (Hex.digit n :: cs, 0, true) := by
  have hopening : ∀ k < 16, Hex.digit k ≠ '{' ∧ Casing.lower (Hex.digit k) ≠ 'u' := by decide
  obtain ⟨hbrace, hurn⟩ := hopening n hn
  unfold unwrap
  rw [if_neg, if_neg]
  · intro h
    exact hurn (List.cons.inj h).1
  · rintro ⟨h, -⟩
    exact hbrace (Option.some.inj h)

theorem ofOctets?_octets (id : Uuid) : ofOctets? id.octets = some id :=
  dif_pos id.length_octets

/-- Reading undoes writing. -/
theorem ofChars?_chars (id : Uuid) : ofChars? id.chars = some id := by
  have hsize : ∀ start size, start + size ≤ 16 →
      (Hex.encode ((id.octets.drop start).take size)).length = 2 * size := by
    intro start size hwithin
    rw [Hex.length_encode, List.length_take, List.length_drop, id.length_octets]
    omega
  have hlength : id.chars.length = 36 := by
    simp [chars, Hex.length_encode, id.length_octets]
  have hbare : (unwrap id.chars).1 = id.chars := by
    obtain ⟨b, rest, hoctets⟩ := List.exists_cons_of_length_pos (l := id.octets)
      (by rw [id.length_octets]; decide)
    have hb := b.toNat_lt
    obtain ⟨cs, hchars⟩ : ∃ cs, id.chars = Hex.digit (b.toNat / 16) :: cs :=
      ⟨_, by rw [chars, hoctets]; rfl⟩
    rw [hchars, unwrap_digit (by omega)]
  have hgroups : (id.octets.drop 0).take 4 ++ (id.octets.drop 4).take 2
      ++ (id.octets.drop 6).take 2 ++ (id.octets.drop 8).take 2 ++ (id.octets.drop 10).take 6
      = id.octets := by
    rw [List.drop_zero, ← List.take_add, ← List.take_add, ← List.take_add, ← List.take_add,
      List.take_of_length_le (Nat.le_of_eq id.length_octets)]
  rw [ofChars?, if_neg (by rw [hlength]; decide), hbare, chars,
    hyphenated?_groups (hsize 0 4 (by decide)) (hsize 4 2 (by decide)) (hsize 6 2 (by decide))
      (hsize 8 2 (by decide)) (hsize 10 6 (by decide)),
    ← Hex.encode_append, ← Hex.encode_append, ← Hex.encode_append, ← Hex.encode_append, hgroups,
    plain?, Hex.decode?_encode, Option.bind_some, ofOctets?_octets]

/-- An identifier is read from its text. -/
theorem parse?_text (id : Uuid) : parse? id.text = some id := by
  rw [parse?, text, String.toList_ofList, ofChars?_chars]

end Uuid

end RecordQuery
