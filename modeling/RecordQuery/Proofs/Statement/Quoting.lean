/-
Sound writings: the placeholders of the text are the literals, and no
quote is left open at the end.

What a statement is made of is sound piece by piece: a literal, a text
without quotes and question marks, a quoted name whatever the name is, and
a template filled with sound arguments if none of its places stands in
quotes. Sound pieces next to each other are sound, and `Writing.Sound` is
all that is ever needed of a piece to put it into a statement.
-/
import RecordQuery.Proofs.Statement.Glyph

namespace RecordQuery

-- ================================================= reading along a text

namespace Placeholder

theorem afterAll_append (quote : Option Char) (a b : List Char) :
    afterAll quote (a ++ b) = afterAll (afterAll quote a) b :=
  List.foldl_append

theorem afterAll_cons (quote : Option Char) (c : Char) (cs : List Char) :
    afterAll quote (c :: cs) = afterAll (after quote c) cs := rfl

theorem flags_append (quote : Option Char) (a b : List Char) :
    flags quote (a ++ b) = flags quote a ++ flags (afterAll quote a) b := by
  induction a generalizing quote with
  | nil => rfl
  | cons c a ih =>
      rw [List.cons_append, flags, flags, List.cons_append, ih, afterAll_cons]

end Placeholder

namespace Writing

open Placeholder

/-- The placeholders of the text are the literals, and the text ends
outside of quotes. -/
structure Sound (w : Writing) : Prop where
  flags_chars : flags none w.chars = w.map Glyph.isLiteral
  closed : afterAll none w.chars = none

-- =========================================================== positions

/-- The positions of what is flagged, counted from a start. -/
def flaggedFrom (start : Nat) (flags : List Bool) : List Nat :=
  (flags.zipIdx start).filterMap fun (flag, i) => if flag then some i else none

/-- The literals of a writing, and the positions of what they are flagged
with, belong together one by one. -/
theorem flaggedFrom_isLiteral (w : Writing) (start : Nat) :
    (flaggedFrom start (w.map Glyph.isLiteral)).length = w.literals.length
      ∧ ∀ k i : Nat, (flaggedFrom start (w.map Glyph.isLiteral))[k]? = some i →
        ∃ v, start ≤ i ∧ w[i - start]? = some (.literal v) ∧ w.literals[k]? = some v := by
  induction w generalizing start with
  | nil => exact ⟨rfl, fun k i h => by simp [flaggedFrom] at h⟩
  | cons g w ih =>
      obtain ⟨hlength, hget⟩ := ih (start + 1)
      have hlater : ∀ {i : Nat} {v : Value}, start + 1 ≤ i →
          w[i - (start + 1)]? = some (.literal v) → (g :: w)[i - start]? = some (.literal v) := by
        intro i v hi hv
        rw [show i - start = i - (start + 1) + 1 by omega, List.getElem?_cons_succ, hv]
      cases g with
      | char c =>
          have hflagged : flaggedFrom start ((Glyph.char c :: w).map Glyph.isLiteral)
              = flaggedFrom (start + 1) (w.map Glyph.isLiteral) := rfl
          rw [hflagged]
          refine ⟨hlength, fun k i h => ?_⟩
          obtain ⟨v, hi, hw, hk⟩ := hget k i h
          exact ⟨v, by omega, hlater hi hw, hk⟩
      | literal v =>
          have hflagged : flaggedFrom start ((Glyph.literal v :: w).map Glyph.isLiteral)
              = start :: flaggedFrom (start + 1) (w.map Glyph.isLiteral) := rfl
          have hliterals : literals (.literal v :: w) = v :: literals w := rfl
          rw [hflagged, hliterals]
          refine ⟨congrArg (· + 1) hlength, fun k i h => ?_⟩
          cases k with
          | zero =>
              cases h
              exact ⟨v, Nat.le_refl _, by simp, rfl⟩
          | succ k =>
              obtain ⟨u, hi, hw, hk⟩ := hget k i h
              exact ⟨u, by omega, hlater hi hw, hk⟩

/-- The placeholders of a statement are as many as the literals of its
sound writing, and the placeholder of a rank stands where the writing has
the literal of that rank. -/
theorem Sound.positions {w : Writing} (hw : w.Sound) {sql : String}
    (hsql : sql.toList = w.chars) :
    (Placeholder.positions sql).length = w.literals.length
      ∧ ∀ k i : Nat, (Placeholder.positions sql)[k]? = some i →
        ∃ v, w[i]? = some (.literal v) ∧ w.literals[k]? = some v := by
  have hpositions : Placeholder.positions sql = flaggedFrom 0 (w.map Glyph.isLiteral) := by
    unfold Placeholder.positions
    rw [hsql, hw.flags_chars]
    rfl
  obtain ⟨hlength, hget⟩ := flaggedFrom_isLiteral w 0
  rw [hpositions]
  refine ⟨hlength, fun k i h => ?_⟩
  obtain ⟨v, -, hi, hk⟩ := hget k i h
  exact ⟨v, hi, hk⟩

namespace Sound

theorem nil : Sound [] := ⟨rfl, rfl⟩

theorem literal (v : Value) : Sound [.literal v] :=
  ⟨rfl, by rw [chars_literal]; decide⟩

theorem append {v w : Writing} (hv : v.Sound) (hw : w.Sound) : (v ++ w).Sound where
  flags_chars := by
    rw [chars_append, flags_append, hv.closed, hv.flags_chars, hw.flags_chars,
      List.map_append]
  closed := by rw [chars_append, afterAll_append, hv.closed, hw.closed]

-- ========================================================== plain texts

/-- Whether a character neither quotes nor stands for a literal. -/
def isPlain (c : Char) : Bool :=
  !isQuote c && c != '?'

theorem plainChars {cs : List Char} (h : cs.all isPlain) : Sound (ofChars cs) := by
  induction cs with
  | nil => exact nil
  | cons c cs ih =>
      rw [List.all_cons, Bool.and_eq_true] at h
      obtain ⟨hc, hcs⟩ := h
      unfold isPlain at hc
      rw [Bool.and_eq_true, Bool.not_eq_true', bne_iff_ne] at hc
      have hone : Sound (ofChars [c]) := by
        constructor
        · simp [ofChars, chars, flags, Glyph.toChar, Glyph.isLiteral, Glyph.literal?, hc.2]
        · simp [ofChars, chars, afterAll, Glyph.toChar, after, hc.1]
      exact hone.append (ih hcs)

theorem plain {text : String} (h : text.toList.all isPlain) : Sound (ofText text) :=
  plainChars h

theorem separated {separator : String} (hs : separator.toList.all isPlain)
    {ws : List Writing} (h : ∀ w ∈ ws, w.Sound) : Sound (separated separator ws) := by
  unfold Writing.separated
  induction ws with
  | nil => exact nil
  | cons w ws ih =>
      cases ws with
      | nil => simpa using h w List.mem_cons_self
      | cons w' ws =>
          rw [List.intercalate_cons_cons]
          exact ((h w List.mem_cons_self).append (plain hs)).append
            (ih fun x hx => h x (List.mem_cons_of_mem _ hx))

-- ========================================================= quoted names

/-- Inside quotes nothing is a placeholder, and doubled marks leave the
quotes as they are. -/
theorem within_double (mark : Char) (hm : mark ≠ '?') (hq : isQuote mark) (cs : List Char) :
    flags (some mark) (Quoted.double mark cs)
        = (Quoted.double mark cs).map (fun _ => false)
      ∧ afterAll (some mark) (Quoted.double mark cs) = some mark := by
  induction cs with
  | nil => exact ⟨rfl, rfl⟩
  | cons c cs ih =>
      by_cases hc : c = mark
      · subst hc
        simp [Quoted.double, flags, afterAll_cons, after, hq, hm, ih.1, ih.2]
      · simp [Quoted.double, flags, afterAll_cons, after, hc, ih.1, ih.2]

/-- A quoted name is sound, whatever the name holds. -/
theorem quoted {mark : Char} (hm : mark ≠ '?') (hq : isQuote mark) (name : String) :
    Sound (ofText (Quoted.write mark name)) := by
  obtain ⟨hflags, hafter⟩ := within_double mark hm hq name.toList
  have hopen : after none mark = some mark := by simp [after, hq]
  have hclose : after (some mark) mark = none := by simp [after]
  constructor
  · rw [chars_ofText, Quoted.write, String.toList_ofList, flags, hopen, flags_append,
      hflags, hafter]
    simp [ofText, ofChars, flags, Glyph.isLiteral, Glyph.literal?, hm,
      Function.comp_def]
  · rw [chars_ofText, Quoted.write, String.toList_ofList, afterAll_cons, hopen,
      afterAll_append, hafter, afterAll_cons, hclose]
    rfl

-- ============================================================ templates

/-- Whether the places of a template stand outside of quotes and no other
`?` does, where a mark may be open before it. -/
def placed (quote : Option Char) : List Char → Bool
  | '%' :: 's' :: rest => quote.isNone && placed quote rest
  | c :: rest => !(quote.isNone && c == '?') && placed (after quote c) rest
  | [] => quote.isNone

/-- A filled template is sound if its places stand outside of quotes and
the arguments are sound. The mark that is open before the rest of the
template is open before the rest of the writing. -/
theorem fill_from {template : List Char} {quote : Option Char}
    (ht : placed quote template) {args : List Writing} (h : ∀ w ∈ args, w.Sound) :
    flags quote (fill template args).chars = (fill template args).map Glyph.isLiteral
      ∧ afterAll quote (fill template args).chars = none := by
  induction template, args using fill.induct generalizing quote with
  | case1 rest args ih =>
      simp only [placed, Bool.and_eq_true, Option.isNone_iff_eq_none] at ht
      obtain ⟨rfl, ht⟩ := ht
      have harg : (args.headD []).Sound := by
        cases args with
        | nil => exact nil
        | cons w ws => exact h w List.mem_cons_self
      obtain ⟨hflags, hclosed⟩ := ih ht fun w hw => h w (List.mem_of_mem_tail hw)
      rw [fill, chars_append, flags_append, afterAll_append, harg.closed, harg.flags_chars,
        hflags, hclosed, List.map_append]
      exact ⟨rfl, rfl⟩
  | case2 c rest args hne ih =>
      rw [placed, Bool.and_eq_true, Bool.not_eq_true'] at ht
      · obtain ⟨hc, ht⟩ := ht
        obtain ⟨hflags, hclosed⟩ := ih ht h
        rw [fill]
        · have hchars : chars (.char c :: fill rest args) = c :: (fill rest args).chars := rfl
          rw [hchars, flags, afterAll_cons, hc, hflags, hclosed]
          exact ⟨rfl, rfl⟩
        · exact hne
      · exact hne
  | case3 args =>
      rw [placed, Option.isNone_iff_eq_none] at ht
      subst ht
      exact ⟨rfl, rfl⟩

theorem filled {template : List Char} (ht : placed none template) {args : List Writing}
    (h : ∀ w ∈ args, w.Sound) : (fill template args).Sound :=
  ⟨(fill_from ht h).1, (fill_from ht h).2⟩

end Sound

-- ===================================================== filling templates

/-- The text of a filled template is the template filled with texts. -/
theorem chars_fill (template : List Char) (args : List Writing) :
    (fill template args).chars = Template.fillChars template (args.map chars) := by
  induction template, args using fill.induct with
  | case1 rest args ih =>
      rw [fill, chars_append, ih, Template.fillChars, List.map_tail]
      cases args <;> rfl
  | case2 c rest args hne ih =>
      rw [fill, Template.fillChars, ← ih]
      · rfl
      all_goals exact hne
  | case3 args => rfl

/-- The number of places of a template. -/
def places : List Char → Nat
  | '%' :: 's' :: rest => places rest + 1
  | _ :: rest => places rest
  | [] => 0

/-- Where each argument has a place, the literals of a filled template are
those of the arguments, in order. -/
theorem literals_fill {template : List Char} {args : List Writing}
    (h : places template = args.length) :
    (fill template args).literals = args.flatMap literals := by
  induction template, args using fill.induct with
  | case1 rest args ih =>
      cases args with
      | nil => simp [places] at h
      | cons w ws =>
          rw [places, List.length_cons, Nat.add_right_cancel_iff] at h
          rw [fill, literals_append, ih h]
          rfl
  | case2 c rest args hne ih =>
      rw [places] at h
      · rw [fill, ← ih h]
        · rfl
        · exact hne
      · exact hne
  | case3 args =>
      cases args with
      | nil => rfl
      | cons w ws => simp [places] at h

end Writing

end RecordQuery
