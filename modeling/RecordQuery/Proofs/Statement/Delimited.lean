/-
Where the pieces of a statement end. Pieces stand next to each other with
nothing between them, so a text tells what it was put together from only
if every piece shows its own end. A word does if no other word that may
stand in its place begins with it, or it with the other; a quoted name
does in front of anything but another mark, for a mark inside the name is
written twice.

A piece that shows its end is cancelled from the front of two equal
writings: it is the same piece in both, and so is what follows. A sound
writing as a whole is known by its text and its literals.
-/
import Mathlib.Data.List.Infix
import RecordQuery.Proofs.Statement.Quoting

namespace RecordQuery

namespace Writing

variable {v w : Writing}

-- ====================================================== text and literals

/-- A writing is known by its text, its literals and where they stand. -/
theorem eq_of_chars : ∀ {v w : Writing}, v.chars = w.chars →
    v.map Glyph.isLiteral = w.map Glyph.isLiteral → v.literals = w.literals → v = w
  | [], [], _, _, _ => rfl
  | [], _ :: _, hchars, _, _ => nomatch hchars
  | _ :: _, [], hchars, _, _ => nomatch hchars
  | .char c :: v, .char d :: w, hchars, hmarked, hliterals => by
      obtain ⟨hc, hchars⟩ := List.cons.inj hchars
      have hrest := eq_of_chars hchars (List.cons.inj hmarked).2 hliterals
      rw [show c = d from hc, hrest]
  | .literal a :: v, .literal b :: w, hchars, hmarked, hliterals => by
      obtain ⟨ha, hliterals⟩ := List.cons.inj hliterals
      have hrest := eq_of_chars (List.cons.inj hchars).2 (List.cons.inj hmarked).2 hliterals
      rw [ha, hrest]
  | .char _ :: _, .literal _ :: _, _, hmarked, _ => nomatch (List.cons.inj hmarked).1
  | .literal _ :: _, .char _ :: _, _, hmarked, _ => nomatch (List.cons.inj hmarked).1

/-- A sound writing is known by its text and its literals: where these
stand is where the text has placeholders. -/
theorem Sound.ext (hv : v.Sound) (hw : w.Sound) (hchars : v.chars = w.chars)
    (hliterals : v.literals = w.literals) : v = w :=
  eq_of_chars hchars (by rw [← hv.flags_chars, ← hw.flags_chars, hchars]) hliterals

-- ================================================================ words

/-- Words of which none is the beginning of another. -/
def PrefixFree (words : List String) : Prop :=
  ∀ a ∈ words, ∀ b ∈ words, a.toList <+: b.toList → a = b

instance (words : List String) : Decidable (PrefixFree words) :=
  inferInstanceAs (Decidable (∀ a ∈ words, ∀ b ∈ words, a.toList <+: b.toList → a = b))

/-- A word that others do not begin with shows its end. -/
theorem word_cancel {words : List String} (hwords : PrefixFree words) {a b : String}
    (ha : a ∈ words) (hb : b ∈ words) (h : ofText a ++ v = ofText b ++ w) : a = b ∧ v = w := by
  have hchars := congrArg chars h
  rw [chars_append, chars_append, chars_ofText, chars_ofText] at hchars
  have hword : a = b := by
    rcases List.prefix_or_prefix_of_prefix ⟨_, hchars⟩ ⟨_, rfl⟩ with hprefix | hprefix
    · exact hwords a ha b hb hprefix
    · exact (hwords b hb a ha hprefix).symm
  subst hword
  exact ⟨rfl, List.append_cancel_left h⟩

-- ========================================================= quoted names

variable {mark : Char}

theorem double_mark (cs : List Char) :
    ofChars (Quoted.double mark (mark :: cs))
      = .char mark :: .char mark :: ofChars (Quoted.double mark cs) := by
  rw [Quoted.double, if_pos rfl]
  rfl

theorem double_other {c : Char} (hc : c ≠ mark) (cs : List Char) :
    ofChars (Quoted.double mark (c :: cs)) = .char c :: ofChars (Quoted.double mark cs) := by
  rw [Quoted.double, if_neg hc]
  rfl

/-- No character of a name is written like the mark that ends the name. -/
theorem double_ne_mark (hv : v.head? ≠ some (.char mark)) (c : Char) (cs : List Char) :
    .char mark :: v ≠ ofChars (Quoted.double mark (c :: cs)) ++ w := by
  intro h
  by_cases hc : c = mark
  · subst hc
    rw [double_mark] at h
    obtain ⟨-, rfl⟩ := List.cons.inj h
    exact hv rfl
  · rw [double_other hc] at h
    exact hc (Glyph.char.inj (List.cons.inj h).1).symm

/-- A name ends at the first mark that is not doubled. -/
theorem double_cancel {cs : List Char} : ∀ {ds : List Char}, v.head? ≠ some (.char mark) →
    w.head? ≠ some (.char mark) →
    ofChars (Quoted.double mark cs) ++ .char mark :: v
      = ofChars (Quoted.double mark ds) ++ .char mark :: w →
    cs = ds ∧ v = w := by
  induction cs with
  | nil =>
      intro ds hv hw h
      cases ds with
      | nil => exact ⟨rfl, (List.cons.inj h).2⟩
      | cons d ds => exact absurd h (double_ne_mark hv d ds)
  | cons c cs ih =>
      intro ds hv hw h
      cases ds with
      | nil => exact absurd h.symm (double_ne_mark hw c cs)
      | cons d ds =>
          by_cases hc : c = mark <;> by_cases hd : d = mark
          · subst hc hd
            rw [double_mark, double_mark] at h
            obtain ⟨rfl, hrest⟩ := ih hv hw (List.cons.inj (List.cons.inj h).2).2
            exact ⟨rfl, hrest⟩
          · subst hc
            rw [double_mark, double_other hd] at h
            exact absurd (Glyph.char.inj (List.cons.inj h).1).symm hd
          · subst hd
            rw [double_other hc, double_mark] at h
            exact absurd (Glyph.char.inj (List.cons.inj h).1) hc
          · rw [double_other hc, double_other hd] at h
            obtain ⟨hcd, h⟩ := List.cons.inj h
            obtain ⟨rfl, hrest⟩ := ih hv hw h
            exact ⟨by rw [Glyph.char.inj hcd], hrest⟩

/-- A quoted name shows its end in front of anything but a mark. -/
theorem quoted_cancel {a b : String} (hv : v.head? ≠ some (.char mark))
    (hw : w.head? ≠ some (.char mark))
    (h : ofText (Quoted.write mark a) ++ v = ofText (Quoted.write mark b) ++ w) :
    a = b ∧ v = w := by
  have hname : ∀ (name : String) (rest : Writing), ofText (Quoted.write mark name) ++ rest
      = .char mark :: (ofChars (Quoted.double mark name.toList) ++ .char mark :: rest) := by
    intro name rest
    simp [ofText, ofChars, Quoted.write]
  rw [hname, hname] at h
  obtain ⟨hchars, hrest⟩ := double_cancel hv hw (List.cons.inj h).2
  exact ⟨String.toList_inj.1 hchars, hrest⟩

end Writing

end RecordQuery
