/-
What becomes of a written request when its names are read and written
another way: the same request, written by a dialect that writes names in
that way. Only quoted names hold the mark, so everything between them is
kept as it is.

Two pieces that are renamed are not always renamed next to each other: a
name that another mark follows goes on. So a piece may stand behind
another one only if it does not begin with a mark, as a word does not, and
`Renamed` is about a piece in front of anything that does not.
-/
import Mathlib.Data.List.Forall2
import RecordQuery.Dialect.Flavor
import RecordQuery.Proofs.Statement.Names
import RecordQuery.Proofs.Statement.Unquoted
import RecordQuery.Proofs.Statement.Written

namespace RecordQuery

namespace Writing

variable {mark : Char} {spell : String → String} {v v' w w' : Writing} {t : String}

-- ====================================================== side by side

/-- One writing becomes another by writing its names anew, in front of
anything but a mark. -/
def Renamed (mark : Char) (spell : String → String) (v w : Writing) : Prop :=
  ∀ rest : List Char, rest.head? ≠ some mark →
    Quoted.rename mark spell (v.chars ++ rest) = w.chars ++ Quoted.rename mark spell rest

/-- Renamed, and begun by something else than a mark: it may stand behind
any other piece. -/
structure Follows (mark : Char) (spell : String → String) (v w : Writing) : Prop where
  renamed : Renamed mark spell v w
  head : v.chars.head? ≠ some mark

theorem not_mem_of_bare (hmark : Placeholder.isQuote mark) (ht : t.toList.all isBare) :
    mark ∉ t.toList := by
  intro hmem
  have hbare := List.all_eq_true.1 ht mark hmem
  simp [isBare, Sound.isPlain, hmark] at hbare

theorem all_isBare_of_opens (ht : opens t.toList) : t.toList.all isBare := by
  cases hchars : t.toList with
  | nil => rfl
  | cons c cs =>
      rw [hchars, opens, Bool.and_eq_true] at ht
      exact ht.2

/-- Words and what is made of them alone hold no mark. -/
theorem adjoining_unmarked (hmark : Placeholder.isQuote mark) :
    Adjoining fun v => mark ∉ v.chars where
  nil := List.not_mem_nil
  append := fun hv hw => by
    rw [chars_append, List.mem_append, not_or]
    exact ⟨hv, hw⟩
  word := fun ht => by
    rw [chars_ofText]
    exact not_mem_of_bare hmark (all_isBare_of_opens ht)

theorem Renamed.unmarked (h : mark ∉ v.chars) : Renamed mark spell v v :=
  fun _ _ => Quoted.rename_append h

/-- A text without the mark stands in front of anything. -/
theorem Renamed.behindChars {cs : List Char} (hcs : mark ∉ cs) (h : Renamed mark spell v w) :
    Renamed mark spell (ofChars cs ++ v) (ofChars cs ++ w) := by
  intro rest hrest
  rw [chars_append, chars_append, chars_ofChars, List.append_assoc, List.append_assoc,
    Quoted.rename_append hcs, h rest hrest]

theorem Renamed.append (h : Renamed mark spell v w) (h' : Follows mark spell v' w') :
    Renamed mark spell (v ++ v') (w ++ w') := by
  intro rest hrest
  have hhead : (v'.chars ++ rest).head? ≠ some mark := by
    have hown := h'.head
    cases hchars : v'.chars with
    | nil => exact hrest
    | cons c cs => rwa [hchars] at hown
  rw [chars_append, chars_append, List.append_assoc, List.append_assoc, h _ hhead,
    h'.renamed rest hrest]

namespace Follows

theorem unmarked (h : mark ∉ v.chars) : Follows mark spell v v :=
  ⟨.unmarked h, fun hhead => h (List.mem_of_head? hhead)⟩

theorem nil : Follows mark spell [] [] :=
  .unmarked List.not_mem_nil

/-- What begins with a word begins with no mark. -/
theorem behind (hmark : Placeholder.isQuote mark) (ht : opens t.toList)
    (h : Renamed mark spell v w) : Follows mark spell (ofText t ++ v) (ofText t ++ w) := by
  have hnot := not_mem_of_bare hmark (all_isBare_of_opens ht)
  refine ⟨h.behindChars hnot, ?_⟩
  rw [chars_append, chars_ofText]
  cases hchars : t.toList with
  | nil =>
      rw [hchars] at ht
      cases ht
  | cons c cs =>
      rw [hchars] at hnot
      rw [List.cons_append, List.head?_cons]
      intro hhead
      cases hhead
      exact hnot List.mem_cons_self

end Follows

namespace Renamed

theorem text (hmark : Placeholder.isQuote mark) (ht : t.toList.all isBare) :
    Renamed mark spell (ofText t) (ofText t) := by
  refine unmarked ?_
  rw [chars_ofText]
  exact not_mem_of_bare hmark ht

theorem literal (hmark : mark ≠ '?') (a : Value) :
    Renamed mark spell [.literal a] [.literal a] := by
  intro rest _
  exact Quoted.rename_other (Ne.symm hmark)

theorem quoted (name : String) :
    Renamed mark spell (ofText (Quoted.write mark name)) (ofText (spell name)) := by
  intro rest hrest
  rw [chars_ofText, chars_ofText, Quoted.rename_write hrest]

/-- A word between two pieces keeps them apart. -/
theorem joined (hmark : Placeholder.isQuote mark) (ht : opens t.toList)
    (h : Renamed mark spell v w) (h' : Renamed mark spell v' w') :
    Renamed mark spell (v ++ (ofText t ++ v')) (w ++ (ofText t ++ w')) :=
  h.append (.behind hmark ht h')

/-- A word behind a piece. -/
theorem followed (hmark : Placeholder.isQuote mark) (ht : opens t.toList)
    (h : Renamed mark spell v w) : Renamed mark spell (v ++ ofText t) (w ++ ofText t) := by
  have hjoined := h.joined hmark ht Follows.nil.renamed
  rwa [List.append_nil] at hjoined

theorem between {before after : String} (hmark : Placeholder.isQuote mark)
    (hbefore : opens before.toList) (hafter : opens after.toList) (h : Renamed mark spell v w) :
    Renamed mark spell (v.between before after) (w.between before after) := by
  unfold Writing.between
  rw [List.append_assoc, List.append_assoc]
  exact (Follows.behind hmark hbefore (h.followed hmark hafter)).renamed

section Separated

variable {vs ws : List Writing} {separator : String}

theorem each {α : Type} {xs : List α} {f g : α → Writing}
    (h : ∀ x ∈ xs, Renamed mark spell (f x) (g x)) :
    List.Forall₂ (Renamed mark spell) (xs.map f) (xs.map g) := by
  rw [List.forall₂_map_left_iff, List.forall₂_map_right_iff, List.forall₂_same]
  exact h

/-- Pieces that each stand behind a word. -/
theorem eachBehind (hmark : Placeholder.isQuote mark) (hs : opens separator.toList)
    (h : List.Forall₂ (Renamed mark spell) vs ws) :
    Follows mark spell (vs.flatMap fun v => ofText separator ++ v)
      (ws.flatMap fun w => ofText separator ++ w) := by
  induction h with
  | nil => exact .nil
  | cons hhead _ ih =>
      rw [List.flatMap_cons, List.flatMap_cons, List.append_assoc, List.append_assoc]
      exact .behind hmark hs (hhead.append ih)

theorem separated (hmark : Placeholder.isQuote mark) (hs : opens separator.toList)
    (h : List.Forall₂ (Renamed mark spell) vs ws) :
    Renamed mark spell (separated separator vs) (.separated separator ws) := by
  cases h with
  | nil => exact Follows.nil.renamed
  | cons hhead hrest =>
      rw [separated_cons, separated_cons]
      exact hhead.append (eachBehind hmark hs hrest)

end Separated

end Renamed

-- ========================================================== templates

/-- Whether a template has no mark in it and no two places side by side. -/
def spaced (mark : Char) : List Char → Bool
  | '%' :: 's' :: rest => rest.head? != some '%' && spaced mark rest
  | c :: rest => c != mark && spaced mark rest
  | [] => true

/-- Behind a place the filled template goes on with a character of its
own. -/
theorem head?_fill {template : List Char} (ht : spaced mark template)
    (hhead : template.head? ≠ some '%') (args : List Writing) :
    (fill template args).chars.head? ≠ some mark := by
  cases template with
  | nil => exact nofun
  | cons c rest =>
      have hplace : ∀ tail, c = '%' → rest = 's' :: tail → False :=
        fun _ hc _ => hhead (congrArg some hc)
      rw [spaced, Bool.and_eq_true, bne_iff_ne] at ht
      · rw [fill]
        · exact fun hmark => ht.1 (Option.some.inj hmark)
        · exact hplace
      · exact hplace

theorem Renamed.filled {template : List Char} (ht : spaced mark template)
    {args args' : List Writing} (h : List.Forall₂ (Renamed mark spell) args args') :
    Renamed mark spell (fill template args) (fill template args') := by
  induction template, args using fill.induct generalizing args' with
  | case1 rest args ih =>
      rw [spaced, Bool.and_eq_true, bne_iff_ne] at ht
      have hargs : Renamed mark spell (args.headD []) (args'.headD [])
          ∧ List.Forall₂ (Renamed mark spell) args.tail args'.tail := by
        cases h with
        | nil => exact ⟨Follows.nil.renamed, .nil⟩
        | cons hhead hrest => exact ⟨hhead, hrest⟩
      rw [fill, fill]
      exact hargs.1.append ⟨ih ht.2 hargs.2, head?_fill ht.2 ht.1 _⟩
  | case2 c rest args hne ih =>
      rw [spaced, Bool.and_eq_true, bne_iff_ne] at ht
      · have hc : mark ∉ [c] := by simpa using Ne.symm ht.1
        rw [fill, fill]
        · exact (ih ht.2 h).behindChars hc
        all_goals exact hne
      · exact hne
  | case3 args =>
      rw [fill, fill]
      exact Follows.nil.renamed

end Writing

-- ============================================================= dialects

open Writing

/-- The dialect with names written in some other way. -/
def Dialect.naming (d : Dialect) (spell : String → String) : Dialect :=
  { d with quoteTable := spell, quoteColumn := spell }

/-- A dialect that quotes names by a mark, and has the mark in nothing
else. -/
structure Dialect.Marks (mark : Char) (d : Dialect) : Prop where
  isQuote : Placeholder.isQuote mark
  quoteTable : d.quoteTable = Quoted.write mark
  quoteColumn : d.quoteColumn = Quoted.write mark
  nullSafeEq : d.nullSafeEq.toList.all isBare
  unboundedLimit : ∀ text, d.unboundedLimit? = some text → text.toList.all isBare
  spaced : ∀ name template, d.template? name = some template →
    Writing.spaced mark template.toList

theorem Flavor.dialect_marks (flavor : Flavor) : flavor.dialect.Marks flavor.quoteMark where
  isQuote := by cases flavor <;> rfl
  quoteTable := rfl
  quoteColumn := rfl
  nullSafeEq := by cases flavor <;> decide
  unboundedLimit := fun text h => by cases flavor <;> cases h <;> decide
  spaced := fun name template h => by
    cases flavor <;> simp only [dialect, template?] at h <;> split at h <;> cases h <;> decide

section Compile

variable {mark : Char} {spell : String → String} {d : Dialect} {scope : Scope}

theorem Dialect.Marks.table (hd : d.Marks mark) (name : String) :
    Renamed mark spell (ofText (d.quoteTable name)) (ofText (spell name)) :=
  hd.quoteTable ▸ .quoted name

theorem Dialect.Marks.column (hd : d.Marks mark) (name : String) :
    Renamed mark spell (ofText (d.quoteColumn name)) (ofText (spell name)) :=
  hd.quoteColumn ▸ .quoted name

theorem Dialect.Marks.tableColumn (hd : d.Marks mark) (table column : String) :
    Renamed mark spell (ofText (d.quoteTableColumn table column))
      (ofText ((d.naming spell).quoteTableColumn table column)) := by
  unfold quoteTableColumn
  rw [String.append_assoc, String.append_assoc]
  simp only [ofText_append]
  exact (hd.table table).joined hd.isQuote (by decide) (hd.column column)

theorem Scope.columnText_renamed (hd : d.Marks mark) (path : String) :
    Renamed mark spell (ofText (scope.columnText d path))
      (ofText (scope.columnText (d.naming spell) path)) := by
  unfold Scope.columnText
  cases scope.resolve path with
  | ok resolved => exact hd.tableColumn _ _
  | error e => exact Follows.nil.renamed

-- ============================================================= elements

mutual

theorem Element.written_renamed (hd : d.Marks mark) : ∀ element : Element,
    Renamed mark spell (element.written d scope) (element.written (d.naming spell) scope)
  | .value v => by
      refine .literal ?_ v
      rintro rfl
      exact absurd hd.isQuote (by decide)
  | .field path => Scope.columnText_renamed hd path
  | .method name args => by
      have hargs := Element.writtenEach_renamed hd args
      rw [Element.written, Element.written]
      cases h : d.template? name with
      | none =>
          rw [show (d.naming spell).template? name = none from h]
          exact Follows.nil.renamed
      | some template =>
          rw [show (d.naming spell).template? name = some template from h]
          exact .filled (hd.spaced name template h) hargs
termination_by structural element => element

theorem Element.writtenEach_renamed (hd : d.Marks mark) : ∀ elements : List Element,
    List.Forall₂ (Renamed mark spell) (Element.writtenEach d scope elements)
      (Element.writtenEach (d.naming spell) scope elements)
  | [] => .nil
  | element :: rest =>
      .cons (Element.written_renamed hd element) (Element.writtenEach_renamed hd rest)
termination_by structural elements => elements

end

theorem Element.writtenTuple_renamed (hd : d.Marks mark) (elements : List Element) :
    Renamed mark spell (Element.writtenTuple d scope elements)
      (Element.writtenTuple (d.naming spell) scope elements) := by
  have hlist : Renamed mark spell (separated ", " (elements.map (Element.written d scope)))
      (separated ", " (elements.map (Element.written (d.naming spell) scope))) :=
    .separated hd.isQuote (by decide) (Renamed.each fun element _ => element.written_renamed hd)
  unfold Element.writtenTuple
  dsimp only
  split
  · exact hlist.between hd.isQuote (by decide) (by decide)
  · exact hlist

theorem OrderTerm.written_renamed (hd : d.Marks mark) (term : OrderTerm) :
    Renamed mark spell (term.written d scope) (term.written (d.naming spell) scope) := by
  refine (term.element.written_renamed hd).followed hd.isQuote ?_
  cases term.direction <;> decide

-- ============================================================== clauses

theorem Comparison.written_renamed (hd : d.Marks mark) (comparison : Comparison)
    (lhs rhs : Element) : Renamed mark spell (comparison.written d scope lhs rhs)
      (comparison.written (d.naming spell) scope lhs rhs) := by
  have hoperator : (comparison.operator d).toList.all isBare := by
    cases comparison
    case eq | neq => exact hd.nullSafeEq
    all_goals
      rw [Comparison.operator]
      decide
  have hopens : opens s!" {comparison.operator d} ".toList :=
    opens_append (opens_append (by decide) hoperator) (by decide)
  have hlhs : Renamed mark spell (lhs.written d scope) (lhs.written (d.naming spell) scope) :=
    lhs.written_renamed hd
  have hrhs : Renamed mark spell (rhs.written d scope) (rhs.written (d.naming spell) scope) :=
    rhs.written_renamed hd
  have hwhole := hlhs.joined hd.isQuote hopens hrhs
  unfold Comparison.written
  dsimp only
  split
  · exact hwhole.between hd.isQuote (by decide) (by decide)
  · exact hwhole

theorem Clause.writtenIn_renamed (hd : d.Marks mark) (lhs : List Element)
    (rows : List (List Element)) : Renamed mark spell (Clause.writtenIn d scope lhs rows)
      (Clause.writtenIn (d.naming spell) scope lhs rows) := by
  have hlist : Renamed mark spell (separated ", " (rows.map (Element.writtenTuple d scope)))
      (separated ", " (rows.map (Element.writtenTuple (d.naming spell) scope))) :=
    .separated hd.isQuote (by decide)
      (Renamed.each fun row _ => Element.writtenTuple_renamed hd row)
  unfold Clause.writtenIn
  split
  · exact .text hd.isQuote (by decide)
  · refine (Element.writtenTuple_renamed hd lhs).joined hd.isQuote ?_
      (hlist.followed hd.isQuote (by decide))
    split <;> decide

mutual

theorem Clause.written_renamed (hd : d.Marks mark) : ∀ clause : Clause,
    Renamed mark spell (clause.written d scope) (clause.written (d.naming spell) scope)
  | .compare comparison lhs rhs => comparison.written_renamed hd lhs rhs
  | .not operand =>
      (Clause.written_renamed hd operand).between hd.isQuote (by decide) (by decide)
  | .and operands =>
      (Renamed.separated hd.isQuote (by decide) (Clause.writtenEach_renamed hd operands)).between
        hd.isQuote (by decide) (by decide)
  | .or operands =>
      (Renamed.separated hd.isQuote (by decide) (Clause.writtenEach_renamed hd operands)).between
        hd.isQuote (by decide) (by decide)
  | .isIn lhs rows => Clause.writtenIn_renamed hd lhs rows
  | .truthy element => element.written_renamed hd
termination_by structural clause => clause

theorem Clause.writtenEach_renamed (hd : d.Marks mark) : ∀ clauses : List Clause,
    List.Forall₂ (Renamed mark spell) (Clause.writtenEach d scope clauses)
      (Clause.writtenEach (d.naming spell) scope clauses)
  | [] => .nil
  | clause :: rest =>
      .cons (Clause.written_renamed hd clause) (Clause.writtenEach_renamed hd rest)
termination_by structural clauses => clauses

end

end Compile

end RecordQuery
