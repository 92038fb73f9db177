/-
Statement texts in which the literals are still told apart from the rest.
A glyph is a character of the text or a literal of the request; written
out, a literal is a `?`. A writing is a list of glyphs, so the position
of a glyph is the position of its character.

A text has placeholders of its own: every `?` that stands outside quoted
names and quoted texts. Nothing keeps a name from holding a `?`, and
nothing keeps a name from holding a quote, so that placeholders and
literals agree is a property, `Writing.Sound`, and not a definition.
It is closed under putting writings next to each other, because a sound
writing ends outside of quotes.
-/
import RecordQuery.Text.Quoted
import RecordQuery.Text.Template
import RecordQuery.Value

namespace RecordQuery

-- ======================================================= placeholders

namespace Placeholder

/-- The marks that quote names and texts. -/
def isQuote (c : Char) : Bool :=
  c == '\'' || c == '"' || c == Char.ofNat 0x60

/-- The mark that is open behind a character, given the one that is open
before it. A doubled mark closes and opens again. -/
def after (quote : Option Char) (c : Char) : Option Char :=
  match quote with
  | some mark => if c = mark then none else some mark
  | none => if isQuote c then some c else none

/-- The mark that is open behind a text. -/
def afterAll (quote : Option Char) (text : List Char) : Option Char :=
  text.foldl after quote

/-- For each character of a text, whether it is a placeholder: a `?`
where no mark is open. -/
def flags (quote : Option Char) : List Char → List Bool
  | [] => []
  | c :: rest => (quote.isNone && c == '?') :: flags (after quote c) rest

/-- The positions of the placeholders of a statement, from left to
right. -/
def positions (sql : String) : List Nat :=
  (flags none sql.toList).zipIdx.filterMap fun (flag, i) => if flag then some i else none

end Placeholder

-- ============================================================= glyphs

/-- A character of a statement, or a literal of the request it is made
from. -/
inductive Glyph where
  | char (c : Char)
  | literal (v : Value)
deriving DecidableEq, Repr

namespace Glyph

/-- The character that stands for a glyph. -/
def toChar : Glyph → Char
  | char c => c
  | literal _ => '?'

def literal? : Glyph → Option Value
  | char _ => none
  | literal v => some v

def isLiteral (g : Glyph) : Bool :=
  g.literal?.isSome

end Glyph

/-- A statement text with its literals. -/
abbrev Writing := List Glyph

namespace Writing

/-- A text without literals. -/
def ofChars (cs : List Char) : Writing :=
  cs.map .char

/-- A text without literals. -/
def ofText (text : String) : Writing :=
  ofChars text.toList

/-- The text of a writing. -/
def chars (w : Writing) : List Char :=
  w.map Glyph.toChar

/-- The literals of a writing, from left to right. -/
def literals (w : Writing) : List Value :=
  w.filterMap Glyph.literal?

/-- Fills the places of a template with writings, as `Template.fillChars`
fills them with texts. -/
def fill : List Char → List Writing → Writing
  | '%' :: 's' :: rest, args => args.headD [] ++ fill rest args.tail
  | c :: rest, args => .char c :: fill rest args
  | [], _ => []

/-- Writings with a separator between them. -/
def separated (separator : String) (ws : List Writing) : Writing :=
  (ofText separator).intercalate ws

@[simp] theorem chars_append (v w : Writing) : chars (v ++ w) = v.chars ++ w.chars :=
  List.map_append

@[simp] theorem literals_append (v w : Writing) :
    literals (v ++ w) = v.literals ++ w.literals :=
  List.filterMap_append

@[simp] theorem chars_ofChars (cs : List Char) : (ofChars cs).chars = cs := by
  simp [ofChars, chars, Glyph.toChar, Function.comp_def]

@[simp] theorem literals_ofChars (cs : List Char) : (ofChars cs).literals = [] := by
  simp [ofChars, literals, Glyph.literal?]

@[simp] theorem chars_ofText (text : String) : (ofText text).chars = text.toList :=
  chars_ofChars _

@[simp] theorem literals_ofText (text : String) : (ofText text).literals = [] :=
  literals_ofChars _

theorem ofText_append (a b : String) : ofText (a ++ b) = ofText a ++ ofText b := by
  simp [ofText, ofChars]

@[simp] theorem chars_nil : chars [] = [] := rfl

@[simp] theorem literals_nil : literals [] = [] := rfl

@[simp] theorem chars_literal (v : Value) : chars [.literal v] = ['?'] := rfl

@[simp] theorem literals_literal (v : Value) : literals [.literal v] = [v] := rfl

theorem separated_cons (separator : String) (w : Writing) (ws : List Writing) :
    separated separator (w :: ws) = w ++ ws.flatMap fun v => ofText separator ++ v := by
  induction ws generalizing w with
  | nil => simp [separated]
  | cons v ws ih =>
      have hih := ih v
      rw [separated] at hih ⊢
      rw [List.intercalate_cons_cons, hih, List.flatMap_cons]
      simp

/-- A map of lists with a separator between them maps each, and the
separator. -/
theorem map_intercalate {α β : Type} (f : α → β) (separator : List α) (xss : List (List α)) :
    (separator.intercalate xss).map f = (separator.map f).intercalate (xss.map (List.map f)) := by
  induction xss with
  | nil => rfl
  | cons xs xss ih =>
      cases xss with
      | nil => simp
      | cons ys xss =>
          rw [List.intercalate_cons_cons, List.map_append, List.map_append, ih]
          simp only [List.map_cons, List.intercalate_cons_cons]

theorem chars_separated (separator : String) (ws : List Writing) :
    (separated separator ws).chars = separator.toList.intercalate (ws.map chars) := by
  have hmap := map_intercalate Glyph.toChar (ofText separator) ws
  rwa [show (ofText separator).map Glyph.toChar = separator.toList from chars_ofText _] at hmap

/-- Texts with a separator between them are written one by one. -/
theorem ofText_intercalate (separator : String) (texts : List String) :
    ofText (separator.intercalate texts) = separated separator (texts.map ofText) := by
  unfold ofText ofChars
  rw [String.toList_intercalate, map_intercalate, List.map_map]
  rfl

@[simp] theorem literals_flatMap {α : Type} (xs : List α) (f : α → Writing) :
    literals (xs.flatMap f) = xs.flatMap fun x => (f x).literals :=
  List.filterMap_flatMap

theorem literals_separated (separator : String) (ws : List Writing) :
    (separated separator ws).literals = ws.flatMap literals := by
  cases ws with
  | nil => rfl
  | cons w ws =>
      rw [separated_cons, literals_append, literals_flatMap, List.flatMap_cons]
      simp

end Writing

end RecordQuery
