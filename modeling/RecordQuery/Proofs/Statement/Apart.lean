/-
Elements kept apart by their fragments. A method's form puts the texts of
its arguments next to words of its own and adds no parentheses around
them, so whether a text says which element it was compiled from depends on
every word that may stand next to every other.

Read from the left, an element is an operand with suffixes. An operand, a
literal, a field, a call or a search, shows by its first word what it is,
and by its words where it ends. A suffix, a test or the end that a text is
to have, shows by its first word which it is; but the end looked for is
the last thing that some dialects write, and if it has suffixes of its
own, these are as well suffixes of the whole. Where the dialect closes the
end by a parenthesis, or every such end is an operand, an element is known
by its text and its literals, field by field up to the columns of fields,
and by its joins it is known altogether.
-/
import RecordQuery.Proofs.Layout.Slots
import RecordQuery.Proofs.Path.Columns
import RecordQuery.Proofs.Statement.Forms

namespace RecordQuery

open Writing

variable {flavor : Flavor} {scope : Scope} {fields : List String}

-- ============================================================ suffixes

/-- What is written behind an element that is the first argument of a
method. -/
inductive Suffix where
  | test (name : String)
  | like (part : Element)

namespace Suffix

/-- The method that has an element for its first argument. -/
def on (element : Element) : Suffix → Element
  | test name => .method name [element]
  | like part => .method "ends_with" [element, part]

/-- What the method adds behind its first argument. -/
def written (flavor : Flavor) (scope : Scope) : Suffix → Writing
  | test name => ofText (Flavor.testText name)
  | like part =>
    ofText flavor.likeText ++ (part.written flavor.dialect scope ++ ofText flavor.likeEnd)

/-- Suffixes that make formed elements. -/
def Formed (flavor : Flavor) (fields : List String) : Suffix → Prop
  | test name => name ∈ Flavor.tests
  | like part => part.Formed flavor fields ∧ (flavor = .mysql ∨ part.isOperand)

/-- Suffixes one behind the other. -/
def writtenEach (flavor : Flavor) (scope : Scope) (suffixes : List Suffix) : Writing :=
  suffixes.flatMap (written flavor scope)

theorem writtenEach_cons (s : Suffix) (rest : List Suffix) (w : Writing) :
    writtenEach flavor scope (s :: rest) ++ w
      = s.written flavor scope ++ (writtenEach flavor scope rest ++ w) := by
  rw [writtenEach, List.flatMap_cons, List.append_assoc]
  rfl

end Suffix

/-- An element with suffixes, the first next to it. -/
def Element.followed (element : Element) (suffixes : List Suffix) : Element :=
  suffixes.foldl Suffix.on element

theorem Element.written_followed {suffixes : List Suffix}
    (h : ∀ s ∈ suffixes, s.Formed flavor fields) : ∀ {element : Element},
      (element.followed suffixes).written flavor.dialect scope
        = element.written flavor.dialect scope ++ Suffix.writtenEach flavor scope suffixes := by
  induction suffixes with
  | nil => exact fun {element} => (List.append_nil _).symm
  | cons s rest ih =>
      intro element
      obtain ⟨hs, hrest⟩ := List.forall_mem_cons.1 h
      have hon : (s.on element).written flavor.dialect scope
          = element.written flavor.dialect scope ++ s.written flavor scope := by
        cases s with
        | test name => exact Flavor.written_test hs
        | like part => exact Flavor.written_like
      have hfollowed : ((s.on element).followed rest).written flavor.dialect scope = _ := ih hrest
      rw [hon, List.append_assoc] at hfollowed
      exact hfollowed

/-- Operands with suffixes. -/
inductive Element.Spined (flavor : Flavor) (fields : List String) : Element → Prop
  | mk {operand : Element} {suffixes : List Suffix} (hformed : operand.Formed flavor fields)
      (hop : operand.isOperand) (hsuffixes : ∀ s ∈ suffixes, s.Formed flavor fields) :
      Spined flavor fields (operand.followed suffixes)

namespace Element.Spined

variable {element : Element}

/-- An operand has no suffixes. -/
theorem of_isOperand (h : element.Formed flavor fields) (hop : element.isOperand) :
    element.Spined flavor fields := by
  have hnone : ∀ s ∈ ([] : List Suffix), s.Formed flavor fields :=
    fun _ hs => absurd hs List.not_mem_nil
  exact .mk h hop hnone

/-- A suffix behind an element is one more behind its operand. -/
theorem on (h : element.Spined flavor fields) {s : Suffix} (hs : s.Formed flavor fields) :
    (s.on element).Spined flavor fields := by
  cases h with
  | @mk operand suffixes hformed hop hsuffixes =>
      have hon : s.on (operand.followed suffixes) = operand.followed (suffixes ++ [s]) := by
        rw [followed, followed, List.foldl_append]
        rfl
      rw [hon]
      exact .mk hformed hop
        (List.forall_mem_append.2 ⟨hsuffixes, List.forall_mem_singleton.2 hs⟩)

end Element.Spined

/-- Every element is an operand with suffixes. -/
theorem Element.Formed.spined {element : Element} (h : element.Formed flavor fields) :
    element.Spined flavor fields := by
  induction h with
  | value v => exact .of_isOperand (.value v) rfl
  | field hpath => exact .of_isOperand (.field hpath) rfl
  | call hname harg _ =>
      exact .of_isOperand (.call hname harg) (isOperand_of_mem (List.mem_append_left _ hname) _)
  | search hname htext hpart _ _ =>
      exact .of_isOperand (.search hname htext hpart)
        (isOperand_of_mem (List.mem_append_right _ hname) _)
  | @test name arg hname _ ih =>
      have hs : (Suffix.test name).Formed flavor fields := hname
      exact ih.on hs
  | @like text part _ hpart hclosed ih _ =>
      have hs : (Suffix.like part).Formed flavor fields := ⟨hpart, hclosed⟩
      exact ih.on hs

-- ================================================================ ends

/-- A writing that does not go on with a mark. -/
def Flavor.Unmarked (flavor : Flavor) (w : Writing) : Prop :=
  w.head? ≠ some (.char flavor.quoteMark)

/-- A writing that goes on as it may behind a whole argument. -/
def Writing.Ends (w : Writing) : Prop :=
  ∀ g ∈ w.head?, g = .char ',' ∨ g = .char ')'

namespace Writing.Ends

theorem unmarked {w : Writing} (h : w.Ends) : flavor.Unmarked w := by
  intro hmark
  have hends := h _ hmark
  cases flavor <;> revert hends <;> decide

theorem nil : Writing.Ends [] :=
  fun _ hg => nomatch hg

theorem comma (w : Writing) : (ofText ", " ++ w).Ends := by
  rintro g ⟨⟩
  exact Or.inl rfl

theorem parenthesis (w : Writing) : (ofText ")" ++ w).Ends := by
  rintro g ⟨⟩
  exact Or.inr rfl

theorem searchEnd (name : String) (w : Writing) : (ofText (Flavor.searchEnd name) ++ w).Ends := by
  unfold Flavor.searchEnd
  split <;> exact fun g hg => by cases hg; exact Or.inr rfl

end Writing.Ends

/-- An operand that is known where no mark stands behind it. -/
def Element.KnownOperand (flavor : Flavor) (scope : Scope) (fields : List String)
    (element : Element) : Prop :=
  ∀ (other : Element) (v w : Writing), other.Formed flavor fields → other.isOperand →
    flavor.Unmarked v → flavor.Unmarked w →
    element.written flavor.dialect scope ++ v = other.written flavor.dialect scope ++ w →
    element = other ∧ v = w

/-- A suffix that is known where no mark stands behind it. -/
def Suffix.Known (flavor : Flavor) (scope : Scope) (fields : List String)
    (s : Suffix) : Prop :=
  ∀ (other : Suffix) (v w : Writing), other.Formed flavor fields →
    flavor.Unmarked v → flavor.Unmarked w →
    s.written flavor scope ++ v = other.written flavor scope ++ w → s = other ∧ v = w

/-- An element that is known as a whole argument. -/
def Element.Known (flavor : Flavor) (scope : Scope) (fields : List String)
    (element : Element) : Prop :=
  ∀ (other : Element) (v w : Writing), other.Formed flavor fields → v.Ends → w.Ends →
    element.written flavor.dialect scope ++ v = other.written flavor.dialect scope ++ w →
    element = other ∧ v = w

namespace Suffix

/-- A suffix begins with a blank. -/
theorem head?_written (s : Suffix) (w : Writing) :
    (s.written flavor scope ++ w).head? = some (.char ' ') := by
  cases s with
  | test name =>
      show (ofText (Flavor.testText name) ++ w).head? = _
      unfold Flavor.testText
      split <;> rfl
  | like part => cases flavor <;> rfl

theorem unmarked_writtenEach {v : Writing} (hv : v.Ends) (suffixes : List Suffix) :
    flavor.Unmarked (writtenEach flavor scope suffixes ++ v) := by
  cases suffixes with
  | nil => exact hv.unmarked
  | cons s rest =>
      rw [writtenEach_cons, Flavor.Unmarked, head?_written]
      cases flavor <;> decide

/-- Suffixes are known one by one, up to the end of the argument. -/
theorem writtenEach_cancel {suffixes : List Suffix} :
    ∀ {others : List Suffix} {v w : Writing}, (∀ s ∈ suffixes, s.Known flavor scope fields) →
      (∀ s ∈ others, s.Formed flavor fields) → v.Ends → w.Ends →
      writtenEach flavor scope suffixes ++ v = writtenEach flavor scope others ++ w →
      suffixes = others ∧ v = w := by
  have hblank : ∀ {s : Suffix} {v w : Writing}, v.Ends → v ≠ s.written flavor scope ++ w := by
    rintro s v w hv rfl
    have hend := hv _ (head?_written s w)
    revert hend
    decide
  induction suffixes with
  | nil =>
      intro others v w _ _ hv _ h
      cases others with
      | nil => exact ⟨rfl, h⟩
      | cons s rest =>
          rw [writtenEach_cons] at h
          exact absurd h (hblank hv)
  | cons s rest ih =>
      intro others v w hknown hothers hv hw h
      rw [writtenEach_cons] at h
      cases others with
      | nil => exact absurd h.symm (hblank hw)
      | cons s' rest' =>
          obtain ⟨hs, hrest⟩ := List.forall_mem_cons.1 hknown
          obtain ⟨hs', hrest'⟩ := List.forall_mem_cons.1 hothers
          rw [writtenEach_cons] at h
          obtain ⟨hfirst, hmore⟩ := hs s' _ _ hs' (unmarked_writtenEach hv rest)
            (unmarked_writtenEach hw rest') h
          obtain ⟨hothers, hend⟩ := ih hrest hrest' hv hw hmore
          exact ⟨by rw [hfirst, hothers], hend⟩

theorem text_mem {name : String} (h : name ∈ Flavor.tests) :
    Flavor.testText name ∈ flavor.suffixTexts :=
  List.mem_cons_of_mem _ (List.mem_map_of_mem h)

/-- A test is known by its name. -/
theorem known_test {name : String} (hname : name ∈ Flavor.tests) :
    (test name).Known flavor scope fields := by
  intro other v w hother _ _ h
  cases other with
  | test name' =>
      obtain ⟨htest, hrest⟩ := word_cancel flavor.suffixTexts_free (text_mem hname)
        (text_mem hother) h
      rw [Flavor.testText_inj name hname name' hother htest]
      exact ⟨rfl, hrest⟩
  | like part =>
      rw [written, written, List.append_assoc] at h
      obtain ⟨htext, -⟩ := word_cancel flavor.suffixTexts_free (text_mem hname)
        List.mem_cons_self h
      exact absurd htext (Flavor.testText_ne name hname)

/-- An end that is looked for is known: as a whole argument if the dialect
closes it, and otherwise as an operand. -/
theorem known_like {part : Element} (hclosed : flavor = .mysql ∨ part.isOperand)
    (hknown : part.Known flavor scope fields)
    (hoperand : part.isOperand → part.KnownOperand flavor scope fields) :
    (like part).Known flavor scope fields := by
  intro other v w hother hv hw h
  cases other with
  | test name =>
      rw [written, written, List.append_assoc] at h
      obtain ⟨htext, -⟩ := word_cancel flavor.suffixTexts_free List.mem_cons_self
        (text_mem hother) h
      exact absurd htext.symm (Flavor.testText_ne name hother)
  | like part' =>
      obtain ⟨hpart', hclosed'⟩ := hother
      rw [written, written] at h
      simp only [List.append_assoc, List.append_cancel_left_eq] at h
      by_cases hmysql : flavor = .mysql
      · rw [Flavor.likeEnd, if_pos hmysql] at h
        obtain ⟨rfl, hrest⟩ := hknown part' _ _ hpart' (.parenthesis _) (.parenthesis _) h
        exact ⟨rfl, List.append_cancel_left hrest⟩
      · rw [Flavor.likeEnd, if_neg hmysql] at h
        obtain ⟨rfl, hrest⟩ := hoperand (hclosed.resolve_left hmysql) part' _ _ hpart'
          (hclosed'.resolve_left hmysql) hv hw h
        exact ⟨rfl, hrest⟩

end Suffix

-- ============================================================ columns

/-- A field is written as the column that it reads. -/
theorem Scope.Reads.columnText {dialect : Dialect} {path : String} {ref : ColumnRef}
    (h : scope.Reads dialect path ref) :
    scope.columnText dialect path = dialect.quoteTableColumn ref.table ref.name := by
  obtain ⟨⟨resolved, hresolved, rfl⟩, -⟩ := h
  rw [Scope.columnText, hresolved]

/-- A column is the name of its table and its own, both quoted. -/
theorem Flavor.ofText_column (flavor : Flavor) (table name : String) (w : Writing) :
    ofText (flavor.dialect.quoteTableColumn table name) ++ w
      = ofText (Quoted.write flavor.quoteMark table) ++ (ofText "."
        ++ (ofText (Quoted.write flavor.quoteMark name) ++ w)) := by
  rw [Dialect.quoteTableColumn, ofText_append, ofText_append, List.append_assoc,
    List.append_assoc]
  rfl

/-- A column begins with a mark. -/
theorem Flavor.exists_column (table name : String) :
    ∃ rest, ofText (flavor.dialect.quoteTableColumn table name)
      = ofText (String.singleton flavor.quoteMark) ++ rest := by
  have hquoted : ofText (Quoted.write flavor.quoteMark table)
      = ofText (String.singleton flavor.quoteMark)
        ++ ofChars (Quoted.double flavor.quoteMark table.toList ++ [flavor.quoteMark]) := by
    simp [ofText, ofChars, Quoted.write]
  have hcolumn := flavor.ofText_column table name []
  rw [List.append_nil, hquoted, List.append_assoc] at hcolumn
  exact ⟨_, hcolumn⟩

/-- Of fields that are written as different columns, each is known where no
mark stands behind it. -/
theorem Scope.Distinct.cancel (hfields : scope.Distinct flavor.dialect fields) {p q : String}
    (hp : p ∈ fields) (hq : q ∈ fields) {v w : Writing} (hv : flavor.Unmarked v)
    (hw : flavor.Unmarked w)
    (h : ofText (scope.columnText flavor.dialect p) ++ v
      = ofText (scope.columnText flavor.dialect q) ++ w) : p = q ∧ v = w := by
  obtain ⟨ref, hreads⟩ := hfields.reads p hp
  obtain ⟨ref', hreads'⟩ := hfields.reads q hq
  have hpoint : ∀ rest : Writing, flavor.Unmarked (ofText "." ++ rest) := by
    intro rest
    show some (Glyph.char '.') ≠ _
    cases flavor <;> decide
  rw [hreads.columnText, hreads'.columnText, Flavor.ofText_column, Flavor.ofText_column] at h
  obtain ⟨htable, h⟩ := quoted_cancel (hpoint _) (hpoint _) h
  obtain ⟨hname, hrest⟩ := quoted_cancel hv hw (List.append_cancel_left h)
  exact ⟨hfields.field hp hq hreads hreads' htable hname, hrest⟩

-- ============================================================ operands

namespace Element

/-- The operands that there are. -/
theorem Formed.operand_cases {element : Element} (h : element.Formed flavor fields)
    (hop : element.isOperand) :
    (∃ v, element = .value v) ∨ (∃ path ∈ fields, element = .field path)
      ∨ (∃ name ∈ Flavor.calls, ∃ arg, arg.Formed flavor fields ∧ element = .method name [arg])
      ∨ ∃ name ∈ Flavor.searches, ∃ text part, text.Formed flavor fields
        ∧ part.Formed flavor fields ∧ element = .method name [text, part] := by
  cases h with
  | value v => exact Or.inl ⟨v, rfl⟩
  | field hpath => exact Or.inr (Or.inl ⟨_, hpath, rfl⟩)
  | call hname harg => exact Or.inr (Or.inr (Or.inl ⟨_, hname, _, harg, rfl⟩))
  | search hname htext hpart =>
      exact Or.inr (Or.inr (Or.inr ⟨_, hname, _, _, htext, hpart, rfl⟩))
  | test hname _ =>
      rw [not_isOperand_of_mem hname] at hop
      cases hop
  | like _ _ _ => cases hop

/-- What an operand begins with, unless it is a literal. -/
def opening? (flavor : Flavor) : Element → Option String
  | .value _ => none
  | .field _ => some (String.singleton flavor.quoteMark)
  | .method name _ => some (flavor.opening name)

theorem written_opening (hfields : scope.Distinct flavor.dialect fields) {element : Element}
    (h : element.Formed flavor fields) (hop : element.isOperand) {word : String}
    (hword : element.opening? flavor = some word) : word ∈ flavor.openings
      ∧ ∃ rest, element.written flavor.dialect scope = ofText word ++ rest := by
  rcases h.operand_cases hop with ⟨v, rfl⟩ | ⟨path, hpath, rfl⟩ | ⟨name, hname, arg, -, rfl⟩
    | ⟨name, hname, text, part, -, -, rfl⟩ <;> cases hword
  · refine ⟨List.mem_cons_self, ?_⟩
    obtain ⟨ref, hreads⟩ := hfields.reads path hpath
    show ∃ rest, ofText (scope.columnText flavor.dialect path) = _
    rw [hreads.columnText]
    exact Flavor.exists_column _ _
  · exact ⟨List.mem_cons_of_mem _ (List.mem_map_of_mem (List.mem_append_left _ hname)),
      _, Flavor.written_call hname⟩
  · exact ⟨List.mem_cons_of_mem _ (List.mem_map_of_mem (List.mem_append_right _ hname)),
      _, Flavor.written_search hname⟩

/-- Operands that are written alike begin alike. -/
theorem opening_cancel (hfields : scope.Distinct flavor.dialect fields) {left right : Element}
    {v w : Writing} (hleft : left.Formed flavor fields) (hlop : left.isOperand)
    (hright : right.Formed flavor fields) (hrop : right.isOperand)
    (h : left.written flavor.dialect scope ++ v = right.written flavor.dialect scope ++ w) :
    left.opening? flavor = right.opening? flavor := by
  have hliteral : ∀ {word : String} {x : Value} {v w : Writing}, word ∈ flavor.openings →
      ofText word ++ v ≠ .literal x :: w := by
    intro word x v w hword h
    cases hchars : word.toList with
    | nil =>
        have hempty : word = "" := String.toList_inj.1 hchars
        exact Flavor.openings_nonempty (hempty ▸ hword)
    | cons c cs =>
        rw [ofText, hchars] at h
        cases h
  cases hl : left.opening? flavor with
  | none =>
      cases hr : right.opening? flavor with
      | none => rfl
      | some word =>
          obtain ⟨hword, rest, hwritten⟩ := written_opening hfields hright hrop hr
          cases left <;> cases hl
          rw [hwritten, List.append_assoc] at h
          exact absurd h.symm (hliteral hword)
  | some word =>
      obtain ⟨hword, rest, hwritten⟩ := written_opening hfields hleft hlop hl
      cases hr : right.opening? flavor with
      | none =>
          cases right <;> cases hr
          rw [hwritten, List.append_assoc] at h
          exact absurd h (hliteral hword)
      | some word' =>
          obtain ⟨hword', rest', hwritten'⟩ := written_opening hfields hright hrop hr
          rw [hwritten, hwritten', List.append_assoc, List.append_assoc] at h
          rw [(word_cancel flavor.openings_free hword hword' h).1]

/-- A literal is known. -/
theorem knownOperand_value (hfields : scope.Distinct flavor.dialect fields) (x : Value) :
    (Element.value x).KnownOperand flavor scope fields := by
  intro other v w hother hop _ _ h
  have hopening := opening_cancel hfields (.value x) rfl hother hop h
  rcases hother.operand_cases hop with ⟨y, rfl⟩ | ⟨path, -, rfl⟩ | ⟨name, -, arg, -, rfl⟩
    | ⟨name, -, text, part, -, -, rfl⟩
  · obtain ⟨hliteral, hrest⟩ := List.cons.inj h
    exact ⟨by rw [Glyph.literal.inj hliteral], hrest⟩
  all_goals cases hopening

/-- A field is known by its column. -/
theorem knownOperand_field (hfields : scope.Distinct flavor.dialect fields) {path : String}
    (hpath : path ∈ fields) : (Element.field path).KnownOperand flavor scope fields := by
  intro other v w hother hop hv hw h
  have hopening := opening_cancel hfields (.field hpath) rfl hother hop h
  rcases hother.operand_cases hop with ⟨y, rfl⟩ | ⟨path', hpath', rfl⟩
    | ⟨name, hname, arg, -, rfl⟩ | ⟨name, hname, text, part, -, -, rfl⟩
  · cases hopening
  · obtain ⟨rfl, hrest⟩ := hfields.cancel hpath hpath' hv hw h
    exact ⟨rfl, hrest⟩
  · exact absurd (Option.some.inj hopening).symm
      (Flavor.opening_ne_mark name (List.mem_append_left _ hname))
  · exact absurd (Option.some.inj hopening).symm
      (Flavor.opening_ne_mark name (List.mem_append_right _ hname))

/-- A call is known by its name and its argument. -/
theorem knownOperand_call (hfields : scope.Distinct flavor.dialect fields) {name : String}
    {arg : Element} (hname : name ∈ Flavor.calls) (harg : arg.Formed flavor fields)
    (hknown : arg.Known flavor scope fields) :
    (Element.method name [arg]).KnownOperand flavor scope fields := by
  intro other v w hother hop _ _ h
  have hopening := opening_cancel hfields (.call hname harg)
    (isOperand_of_mem (List.mem_append_left _ hname) _) hother hop h
  rcases hother.operand_cases hop with ⟨y, rfl⟩ | ⟨path, -, rfl⟩
    | ⟨name', hname', arg', harg', rfl⟩ | ⟨name', hname', text, part, -, -, rfl⟩
  · cases hopening
  · exact absurd (Option.some.inj hopening)
      (Flavor.opening_ne_mark name (List.mem_append_left _ hname))
  · have hsame := Option.some.inj hopening
    rw [Flavor.written_call hname, Flavor.written_call hname', hsame] at h
    simp only [List.append_assoc, List.append_cancel_left_eq] at h
    obtain ⟨rfl, hrest⟩ := hknown arg' _ _ harg' (.parenthesis _) (.parenthesis _) h
    exact ⟨by rw [Flavor.opening_inj name hname name' hname' hsame],
      List.append_cancel_left hrest⟩
  · exact absurd (Option.some.inj hopening) (Flavor.opening_ne name hname name' hname')

/-- A search is known by its arguments, and by its name at the end. -/
theorem knownOperand_search (hfields : scope.Distinct flavor.dialect fields) {name : String}
    {text part : Element} (hname : name ∈ Flavor.searches)
    (htext : text.Formed flavor fields) (hpart : part.Formed flavor fields)
    (hknownText : text.Known flavor scope fields) (hknownPart : part.Known flavor scope fields) :
    (Element.method name [text, part]).KnownOperand flavor scope fields := by
  intro other v w hother hop _ _ h
  have hopening := opening_cancel hfields (.search hname htext hpart)
    (isOperand_of_mem (List.mem_append_right _ hname) _) hother hop h
  rcases hother.operand_cases hop with ⟨y, rfl⟩ | ⟨path, -, rfl⟩
    | ⟨name', hname', arg', -, rfl⟩ | ⟨name', hname', text', part', htext', hpart', rfl⟩
  · cases hopening
  · exact absurd (Option.some.inj hopening)
      (Flavor.opening_ne_mark name (List.mem_append_right _ hname))
  · exact absurd (Option.some.inj hopening).symm (Flavor.opening_ne name' hname' name hname)
  · rw [Flavor.written_search hname, Flavor.written_search hname', Option.some.inj hopening] at h
    simp only [List.append_assoc, List.append_cancel_left_eq] at h
    obtain ⟨htexts, hmore⟩ := hknownText text' _ _ htext' (.comma _) (.comma _) h
    obtain ⟨hparts, hend⟩ := hknownPart part' _ _ hpart' (.searchEnd _ _) (.searchEnd _ _)
      (List.append_cancel_left hmore)
    obtain ⟨hword, hrest⟩ := word_cancel Flavor.searchEnds_free (List.mem_map_of_mem hname)
      (List.mem_map_of_mem hname') hend
    exact ⟨by rw [htexts, hparts, Flavor.searchEnd_inj name hname name' hname' hword], hrest⟩

-- =============================================================== known

/-- A known operand with known suffixes is known. -/
theorem KnownOperand.followed {operand : Element} {suffixes : List Suffix}
    (hoperand : operand.KnownOperand flavor scope fields)
    (hformed : ∀ s ∈ suffixes, s.Formed flavor fields)
    (hknown : ∀ s ∈ suffixes, s.Known flavor scope fields) :
    (operand.followed suffixes).Known flavor scope fields := by
  intro other v w hother hv hw h
  obtain ⟨hhead, hop, hothers⟩ := hother.spined
  rw [written_followed hformed, written_followed hothers, List.append_assoc,
    List.append_assoc] at h
  obtain ⟨rfl, hmore⟩ := hoperand _ _ _ hhead hop (Suffix.unmarked_writtenEach hv _)
    (Suffix.unmarked_writtenEach hw _) h
  obtain ⟨rfl, hrest⟩ := Suffix.writtenEach_cancel hknown hothers hv hw hmore
  exact ⟨rfl, hrest⟩

/-- Every operand is known, and every element with known suffixes. -/
theorem Formed.known_followed (hfields : scope.Distinct flavor.dialect fields)
    {element : Element} (h : element.Formed flavor fields) :
    (element.isOperand → element.KnownOperand flavor scope fields)
      ∧ ∀ suffixes, (∀ s ∈ suffixes, Suffix.Formed flavor fields s) →
        (∀ s ∈ suffixes, Suffix.Known flavor scope fields s) →
        (element.followed suffixes).Known flavor scope fields := by
  -- what an element is the first argument of is a suffix of it, so that the induction takes
  -- an element apart down to its operand
  induction h with
  | value v =>
      have hknown := knownOperand_value hfields v
      exact ⟨fun _ => hknown, fun suffixes => hknown.followed⟩
  | field hpath =>
      have hknown := knownOperand_field hfields hpath
      exact ⟨fun _ => hknown, fun suffixes => hknown.followed⟩
  | call hname harg iharg =>
      have hknown := knownOperand_call hfields hname harg (iharg.2 [] nofun nofun)
      exact ⟨fun _ => hknown, fun suffixes => hknown.followed⟩
  | search hname htext hpart ihtext ihpart =>
      have hknown := knownOperand_search hfields hname htext hpart (ihtext.2 [] nofun nofun)
        (ihpart.2 [] nofun nofun)
      exact ⟨fun _ => hknown, fun suffixes => hknown.followed⟩
  | @test name arg hname _ iharg =>
      refine ⟨fun hop => ?_, fun suffixes hformed hknown => ?_⟩
      · rw [not_isOperand_of_mem hname] at hop
        cases hop
      · exact iharg.2 (.test name :: suffixes) (List.forall_mem_cons.2 ⟨hname, hformed⟩)
          (List.forall_mem_cons.2 ⟨Suffix.known_test hname, hknown⟩)
  | @like text part _ hpart hclosed ihtext ihpart =>
      refine ⟨fun hop => ?_, fun suffixes hformed hknown => ?_⟩
      · cases hop
      · have hlike := Suffix.known_like hclosed (ihpart.2 [] nofun nofun) ihpart.1
        exact ihtext.2 (.like part :: suffixes)
          (List.forall_mem_cons.2 ⟨⟨hpart, hclosed⟩, hformed⟩)
          (List.forall_mem_cons.2 ⟨hlike, hknown⟩)

/-- Elements that are written alike, as whole arguments, are the same. -/
theorem Formed.known (hfields : scope.Distinct flavor.dialect fields) {element : Element}
    (h : element.Formed flavor fields) : element.Known flavor scope fields :=
  (h.known_followed hfields).2 [] nofun nofun

end Element

-- =========================================================== fragments

/-- Elements that are compiled to one text, with the same parameters and
the same joins, are the same element: in the dialect that closes the end
looked for, and in the others if no such end is itself a test or ends as
another. -/
theorem Element.eq_of_fragments (flavor : Flavor) (scope : Scope)
    (hmapping : scope.mapping ∈ scope.catalog.mappings) (hbare : scope.aliasPrefix = "")
    (left right : Element) (f g : Fragment) (hf : left.compile flavor.dialect scope = .ok f)
    (hg : right.compile flavor.dialect scope = .ok g)
    (hgrouped : flavor = .mysql ∨ left.Grouped ∧ right.Grouped)
    (hsql : f.sql = g.sql) (hparams : f.params = g.params) (hjoins : f.joins = g.joins) :
    left = right := by
  have hfields := Element.distinct_of_compile hbare hmapping hf hg hjoins
  have hleft := Element.formed_of_compile hf (hgrouped.imp_right And.left)
    (List.subset_append_left left.fields right.fields)
  have hright := Element.formed_of_compile hg (hgrouped.imp_right And.right)
    (List.subset_append_right left.fields right.fields)
  have hrenders := Element.compile_renders flavor.dialect_lawful hf
  have hrenders' := Element.compile_renders flavor.dialect_lawful hg
  have hwritten : left.written flavor.dialect scope = right.written flavor.dialect scope := by
    refine hrenders.sound.ext hrenders'.sound ?_ ?_
    · rw [← hrenders.sql, ← hrenders'.sql, hsql]
    · rw [hrenders.written, hrenders'.written, ← hrenders.params, ← hrenders'.params, hparams]
  exact (hleft.known hfields right [] [] hright .nil .nil (congrArg (· ++ []) hwritten)).1

/-- A test for null of whether one field ends as another. -/
def clubTest : Element :=
  .method "is_null" [.method "ends_with" [.field "club", .field "sponsor.club"]]

/-- The end that the test looks for is an operand, so the test is known. -/
theorem Element.eq_clubTest : ∃ f,
    clubTest.compile Flavor.postgresql.dialect
        (IncludeTree.rootScope memberCatalog memberMapping "m") = .ok f
      ∧ f.sql = "\"m\".\"club\" LIKE '%' || \"sponsor\".\"club\" IS NULL"
      ∧ f.joins.map Join.tableAlias = ["sponsor"]
      ∧ clubTest.Grouped
      ∧ clubTest
        = .method "is_null" [.method "ends_with" [.field "club", .field "sponsor.club"]] := by
  have hgrouped : clubTest.Grouped := by
    simp [clubTest, Element.Grouped, Element.GroupedEach, Element.isOperand]
  refine ⟨_, rfl, by decide, by decide, hgrouped, ?_⟩
  exact Element.eq_of_fragments .postgresql (IncludeTree.rootScope memberCatalog memberMapping "m")
    List.mem_cons_self rfl clubTest _ _ _ rfl rfl (Or.inr ⟨hgrouped, hgrouped⟩) rfl rfl rfl

/-- Where the end looked for is itself the test for null, the fragment is
the same. -/
theorem Element.regrouped_clubTest : ∃ f g,
    clubTest.compile Flavor.postgresql.dialect
        (IncludeTree.rootScope memberCatalog memberMapping "m") = .ok f
      ∧ Element.compile Flavor.postgresql.dialect
          (IncludeTree.rootScope memberCatalog memberMapping "m")
          (.method "ends_with" [.field "club", .method "is_null" [.field "sponsor.club"]]) = .ok g
      ∧ f.sql = g.sql ∧ f.params = g.params ∧ f.joins = g.joins
      ∧ clubTest
        ≠ .method "ends_with" [.field "club", .method "is_null" [.field "sponsor.club"]] :=
  ⟨_, _, rfl, rfl, by decide +kernel, rfl, by decide +kernel, by simp [clubTest]⟩

end RecordQuery
