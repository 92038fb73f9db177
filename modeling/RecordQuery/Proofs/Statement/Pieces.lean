/-
Statements read piece by piece, as a database with numbered parameters
reads them: what stands between quotes, the parameters, and every other
character by itself. The reader takes all digits behind a `$`, so a number
written next to a parameter would become part of it.

A writing is tidy if none of this goes wrong: quotes are closed, no `$`
and no `?` stands outside of them, and no digit follows a literal. What is
read of a tidy writing after its placeholders are numbered is what was
read before, but for the parameters.
-/
import RecordQuery.Dialect.Placeholder
import RecordQuery.Proofs.Statement.Glyph

namespace RecordQuery

-- =============================================================== pieces

/-- A piece of a statement, as it is read. -/
inductive Piece where
  /-- What stands between two marks, with the marks. -/
  | quoted (text : List Char)
  | parameter (digits : List Char)
  | other (c : Char)
deriving DecidableEq, Repr

namespace Piece

def text : Piece → List Char
  | quoted text => text
  | parameter digits => '$' :: digits
  | other c => [c]

/-- The piece with a `?` for a parameter. -/
def unnumbered : Piece → Piece
  | quoted text => quoted text
  | parameter _ => other '?'
  | other c => other c

def digits? : Piece → Option (List Char)
  | parameter digits => some digits
  | _ => none

def isQuoted : Piece → Bool
  | quoted _ => true
  | _ => false

/-- Whether a character quotes what follows. -/
def isMark (c : Char) : Bool :=
  c == '\'' || c == '"'

/-- Reads a statement. A doubled mark ends one quoted piece and begins the
next, right behind it. -/
def read : List Char → List Piece
  | [] => []
  | c :: rest =>
    if isMark c then
      quoted (c :: (rest.takeWhile (· != c) ++ (rest.dropWhile (· != c)).take 1)) ::
        read ((rest.dropWhile (· != c)).drop 1)
    else if c = '$' ∧ rest.takeWhile Char.isDigit ≠ [] then
      parameter (rest.takeWhile Char.isDigit) :: read (rest.dropWhile Char.isDigit)
    else other c :: read rest
termination_by cs => cs.length
decreasing_by
  · have hlength := (List.dropWhile_sublist (l := rest) (· != c)).length_le
    rw [List.length_drop, List.length_cons]
    omega
  · have hlength := (List.dropWhile_sublist (l := rest) Char.isDigit).length_le
    rw [List.length_cons]
    omega
  · rw [List.length_cons]
    omega

/-- The reader skips nothing. -/
theorem flatMap_text_read (cs : List Char) : (read cs).flatMap text = cs := by
  induction cs using read.induct with
  | case1 => rw [read, List.flatMap_nil]
  | case2 c rest hmark ih =>
      rw [read, if_pos hmark, List.flatMap_cons, ih, text, List.cons_append, List.append_assoc,
        List.take_append_drop, List.takeWhile_append_dropWhile]
  | case3 c rest hmark hdigits ih =>
      rw [read, if_neg hmark, if_pos hdigits, List.flatMap_cons, ih, text, List.cons_append,
        List.takeWhile_append_dropWhile, hdigits.1]
  | case4 c rest hmark hdigits ih =>
      rw [read, if_neg hmark, if_neg hdigits, List.flatMap_cons, ih, text, List.singleton_append]

/-- Numbers are written outside of quotes. -/
theorem filter_isQuoted_unnumbered (pieces : List Piece) :
    (pieces.map unnumbered).filter isQuoted = pieces.filter isQuoted := by
  induction pieces with
  | nil => rfl
  | cons piece pieces ih =>
      rw [List.map_cons, List.filter_cons, List.filter_cons, ih]
      cases piece <;> rfl

theorem read_nil : read [] = [] := by rw [read]

theorem read_other {c : Char} (hmark : isMark c = false) (hc : c ≠ '$') (rest : List Char) :
    read (c :: rest) = other c :: read rest := by
  rw [read, if_neg (by rw [hmark]; decide), if_neg fun h => hc h.1]

/-- Two marks with none in between them are read as one piece. -/
theorem read_quoted {mark : Char} (hmark : isMark mark) {content : List Char}
    (hcontent : mark ∉ content) (rest : List Char) :
    read (mark :: (content ++ mark :: rest))
      = quoted (mark :: (content ++ [mark])) :: read rest := by
  have hall : ∀ c ∈ content, (c != mark) = true := fun c hc => by
    rw [bne_iff_ne]
    rintro rfl
    exact hcontent hc
  have htake : (content ++ mark :: rest).takeWhile (· != mark) = content := by
    rw [List.takeWhile_append_of_pos hall, List.takeWhile_cons]
    simp
  have hdrop : (content ++ mark :: rest).dropWhile (· != mark) = mark :: rest := by
    rw [List.dropWhile_append_of_pos hall, List.dropWhile_cons]
    simp
  rw [read, if_pos hmark, htake, hdrop, List.take_one, List.drop_one]
  rfl

/-- A `$` is read with all digits behind it. -/
theorem read_parameter {digits rest : List Char} (hdigits : ∀ c ∈ digits, c.isDigit)
    (hne : digits ≠ []) (hrest : rest.head?.any Char.isDigit = false) :
    read ('$' :: (digits ++ rest)) = parameter digits :: read rest := by
  have htake : (digits ++ rest).takeWhile Char.isDigit = digits := by
    rw [List.takeWhile_append_of_pos hdigits]
    cases rest with
    | nil => simp
    | cons c rest => simp_all
  have hdrop : (digits ++ rest).dropWhile Char.isDigit = rest := by
    rw [List.dropWhile_append_of_pos hdigits]
    cases rest with
    | nil => rfl
    | cons c rest => simp_all
  rw [read, if_neg (by decide), htake, hdrop, if_pos ⟨rfl, hne⟩]

end Piece

-- ======================================================= tidy writings

namespace Writing

open Piece

/-- Whether the text begins with a digit. -/
def digitFirst (w : Writing) : Bool :=
  w.chars.head?.any Char.isDigit

/-- Quotes are closed, outside of them stands neither `$` nor `?`, and no
literal has a digit behind it. -/
inductive Tidy : Writing → Prop where
  | nil : Tidy []
  | char {c : Char} {w : Writing} (hmark : isMark c = false) (hc : c ≠ '?' ∧ c ≠ '$')
      (hw : Tidy w) : Tidy (.char c :: w)
  | quoted {mark : Char} {content : List Char} {w : Writing} (hmark : isMark mark)
      (hcontent : mark ∉ content) (hw : Tidy w) :
      Tidy (ofChars (mark :: (content ++ [mark])) ++ w)
  | literal {v : Value} {w : Writing} (hw : Tidy w) (hdigit : w.digitFirst = false) :
      Tidy (.literal v :: w)

end Writing

-- ========================================================== numbering

namespace Placeholder

theorem numberChars_within {mark : Char} {content : List Char} (hcontent : mark ∉ content)
    (count : Nat) (rest : List Char) :
    numberChars (some mark) count (content ++ mark :: rest)
      = content ++ mark :: numberChars none count rest := by
  induction content with
  | nil => rw [List.nil_append, List.nil_append, numberChars, if_pos rfl]
  | cons c content ih =>
      rw [List.mem_cons, not_or] at hcontent
      rw [List.cons_append, numberChars, if_neg (Ne.symm hcontent.1), ih hcontent.2,
        List.cons_append]

theorem numberChars_quoted {mark : Char} (hmark : Piece.isMark mark) {content : List Char}
    (hcontent : mark ∉ content) (count : Nat) (rest : List Char) :
    numberChars none count (mark :: (content ++ mark :: rest))
      = mark :: (content ++ mark :: numberChars none count rest) := by
  unfold Piece.isMark at hmark
  rw [Bool.or_eq_true, beq_iff_eq, beq_iff_eq] at hmark
  rw [numberChars, if_pos hmark, numberChars_within hcontent]

theorem numberChars_other {c : Char} (hmark : Piece.isMark c = false) (hc : c ≠ '?')
    (count : Nat) (rest : List Char) :
    numberChars none count (c :: rest) = c :: numberChars none count rest := by
  unfold Piece.isMark at hmark
  rw [Bool.or_eq_false_iff, beq_eq_false_iff_ne, beq_eq_false_iff_ne] at hmark
  rw [numberChars, if_neg (not_or.2 hmark), if_neg hc]

/-- Without a `?` there is nothing to number. -/
theorem numberChars_of_not_mem (quote : Option Char) (count : Nat) {cs : List Char}
    (h : '?' ∉ cs) : numberChars quote count cs = cs := by
  induction cs generalizing quote with
  | nil => rw [numberChars]
  | cons c cs ih =>
      rw [List.mem_cons, not_or] at h
      cases quote with
      | some mark => rw [numberChars, ih _ h.2]
      | none =>
          rw [numberChars]
          split
          · rw [ih _ h.2]
          · rw [if_neg (Ne.symm h.1), ih _ h.2]

/-- A text begins with a digit once its placeholders are numbered if it
does before. -/
theorem head_numberChars (count : Nat) (cs : List Char) :
    (numberChars none count cs).head?.any Char.isDigit = cs.head?.any Char.isDigit := by
  cases cs with
  | nil => rfl
  | cons c cs =>
      rw [numberChars]
      split
      · rfl
      · split
        · next hc => subst hc; rfl
        · rfl

end Placeholder

namespace Writing

open Piece Placeholder

/-- What is read of a text whose placeholders are numbered behind `count`
others, beside what is read of the text. -/
structure Numbered (count : Nat) (w : Writing) (pieces : List Piece) : Prop where
  parameters : pieces.filterMap digits?
    = (List.range' (count + 1) w.literals.length).map fun k => (toString k).toList
  bare : other '?' ∉ pieces
  unnumbered : pieces.map Piece.unnumbered = read w.chars

/-- Numbering changes nothing of what is read of a tidy writing but its
placeholders. -/
theorem Tidy.numbered {w : Writing} (h : w.Tidy) (count : Nat) :
    Numbered count w (read (numberChars none count w.chars)) := by
  induction h generalizing count with
  | nil =>
      rw [chars_nil, numberChars, read_nil]
      exact ⟨rfl, by simp, read_nil.symm⟩
  | @char c w hmark hc hw ih =>
      have hchars : chars (.char c :: w) = c :: w.chars := rfl
      obtain ⟨hparameters, hbare, hunnumbered⟩ := ih count
      rw [hchars, numberChars_other hmark hc.1, read_other hmark hc.2]
      refine ⟨hparameters, ?_, ?_⟩
      · rw [List.mem_cons, not_or]
        exact ⟨fun heq => hc.1 (Piece.other.inj heq).symm, hbare⟩
      · rw [hchars, read_other hmark hc.2, List.map_cons, hunnumbered, Piece.unnumbered]
  | @quoted mark content w hmark hcontent hw ih =>
      have hchars : chars (ofChars (mark :: (content ++ [mark])) ++ w)
          = mark :: (content ++ mark :: w.chars) := by simp
      have hliterals : literals (ofChars (mark :: (content ++ [mark])) ++ w) = w.literals := by
        rw [literals_append, literals_ofChars, List.nil_append]
      obtain ⟨hparameters, hbare, hunnumbered⟩ := ih count
      rw [hchars, numberChars_quoted hmark hcontent, read_quoted hmark hcontent]
      refine ⟨?_, ?_, ?_⟩
      · rw [hliterals]
        exact hparameters
      · rw [List.mem_cons, not_or]
        exact ⟨nofun, hbare⟩
      · rw [hchars, read_quoted hmark hcontent, List.map_cons, hunnumbered, Piece.unnumbered]
  | @literal v w hw hdigit ih =>
      have hchars : chars (.literal v :: w) = '?' :: w.chars := rfl
      have hnumber : numberChars none count ('?' :: w.chars)
          = '$' :: (Nat.toDigits 10 (count + 1) ++ numberChars none (count + 1) w.chars) := rfl
      obtain ⟨hparameters, hbare, hunnumbered⟩ := ih (count + 1)
      have hhead : (numberChars none (count + 1) w.chars).head?.any Char.isDigit = false := by
        rw [head_numberChars]
        exact hdigit
      rw [hchars, hnumber, read_parameter
        (fun c hc => Nat.isDigit_of_mem_toDigits (by decide) (by decide) hc)
        Nat.toDigits_ne_nil hhead]
      refine ⟨?_, ?_, ?_⟩
      · have hliterals : literals (.literal v :: w) = v :: w.literals := rfl
        rw [hliterals, List.length_cons, List.range'_succ, List.map_cons, ← hparameters,
          Nat.toString_eq_ofList_toDigits, String.toList_ofList]
        rfl
      · rw [List.mem_cons, not_or]
        exact ⟨nofun, hbare⟩
      · rw [hchars, read_other (by decide) (by decide), List.map_cons, hunnumbered,
          Piece.unnumbered]

end Writing

end RecordQuery
