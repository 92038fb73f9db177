/-
What elements and clauses are written as is tidy, whatever the names in
them hold, in a dialect that quotes by marks and whose methods have neat
forms. Two tidy writings may stand next to each other unless one begins
with a digit that the other's last literal would take up. That is rare
enough to name the writings that may stand anywhere: they are tidy and
firm, and all but memberships in nothing are.
-/
import RecordQuery.Dialect.Flavor
import RecordQuery.Proofs.Statement.Names
import RecordQuery.Proofs.Statement.Pieces
import RecordQuery.Proofs.Statement.Written

namespace RecordQuery

namespace Writing

open Piece

variable {v w : Writing} {t : String}

/-- Tidy, and without a digit in front. -/
structure Firm (w : Writing) : Prop where
  tidy : w.Tidy
  head : w.digitFirst = false

-- ====================================================== side by side

theorem digitFirst_append (hv : v.digitFirst = false) (hw : w.digitFirst = false) :
    (v ++ w).digitFirst = false := by
  cases v with
  | nil => exact hw
  | cons g v => exact hv

theorem Tidy.append (hv : v.Tidy) (hw : w.Firm) : (v ++ w).Tidy := by
  induction hv with
  | nil => exact hw.tidy
  | char hmark hc _ ih => exact .char hmark hc ih
  | quoted hmark hcontent _ ih =>
      rw [List.append_assoc]
      exact .quoted hmark hcontent ih
  | literal _ hdigit ih => exact .literal ih (digitFirst_append hdigit hw.head)

theorem Firm.append (hv : v.Firm) (hw : w.Firm) : (v ++ w).Firm :=
  ⟨hv.tidy.append hw, digitFirst_append hv.head hw.head⟩

theorem Firm.nil : Firm [] := ⟨.nil, rfl⟩

theorem Firm.literal (v : Value) : Firm [.literal v] := ⟨.literal .nil rfl, rfl⟩

-- ============================================================== texts

theorem of_isBare {c : Char} (h : isBare c) : isMark c = false ∧ c ≠ '?' ∧ c ≠ '$' := by
  simp only [isBare, Sound.isPlain, Placeholder.isQuote, isMark, Bool.and_eq_true,
    Bool.not_eq_true', Bool.or_eq_false_iff, bne_iff_ne] at h ⊢
  exact ⟨h.1.1.1, h.1.2, h.2⟩

theorem Tidy.behindChars {cs : List Char} (h : cs.all isBare) (hw : w.Tidy) :
    (ofChars cs ++ w).Tidy := by
  induction cs with
  | nil => exact hw
  | cons c cs ih =>
      rw [List.all_cons, Bool.and_eq_true] at h
      obtain ⟨hc, hcs⟩ := h
      obtain ⟨hmark, hother⟩ := of_isBare hc
      exact .char hmark hother (ih hcs)

/-- Behind a text that opens stands what is tidy. -/
theorem Tidy.behind (h : opens t.toList) (hw : w.Tidy) : (ofText t ++ w).Firm := by
  unfold ofText
  cases hcs : t.toList with
  | nil =>
      rw [hcs] at h
      cases h
  | cons c cs =>
      rw [hcs, opens, Bool.and_eq_true, Bool.not_eq_true'] at h
      exact ⟨hw.behindChars h.2, h.1⟩

theorem Firm.text (h : opens t.toList) : (ofText t).Firm := by
  have hbehind := Tidy.nil.behind h
  rwa [List.append_nil] at hbehind

theorem Firm.adjoining : Adjoining Firm := ⟨.nil, .append, .text⟩

theorem Tidy.text (h : t.toList.all isBare) : (ofText t).Tidy := by
  have hbehind := Tidy.nil.behindChars h
  rwa [List.append_nil] at hbehind

theorem Tidy.between {before after : String} (hbefore : opens before.toList)
    (hafter : opens after.toList) (hw : w.Tidy) : (w.between before after).Firm := by
  unfold Writing.between
  rw [List.append_assoc]
  exact Tidy.behind hbefore (hw.append (.text hafter))

section Separated

variable {separator : String} {ws : List Writing}

/-- What is tidy, each behind a separator. -/
theorem Tidy.eachBehind {α : Type} {xs : List α} {f : α → Writing} (hs : opens separator.toList)
    (h : ∀ x ∈ xs, (f x).Tidy) : Firm (xs.flatMap fun x => ofText separator ++ f x) := by
  induction xs with
  | nil => exact .nil
  | cons x xs ih =>
      rw [List.flatMap_cons]
      exact (Tidy.behind hs (h x List.mem_cons_self)).append
        (ih fun y hy => h y (List.mem_cons_of_mem _ hy))

theorem Tidy.separated (hs : opens separator.toList) (h : ∀ w ∈ ws, w.Tidy) :
    (separated separator ws).Tidy := by
  cases ws with
  | nil => exact .nil
  | cons w ws =>
      rw [separated_cons]
      exact (h w List.mem_cons_self).append
        (Tidy.eachBehind hs fun v hv => h v (List.mem_cons_of_mem _ hv))

end Separated

-- ====================================================== quoted names

/-- A doubled mark ends a quoted piece and begins the next. -/
theorem Tidy.within_double {mark : Char} (hmark : isMark mark) (cs : List Char) :
    ∀ {content : List Char}, mark ∉ content →
      (ofChars (mark :: (content ++ Quoted.double mark cs ++ [mark]))).Tidy := by
  induction cs with
  | nil =>
      intro content hcontent
      have hquoted := Tidy.quoted hmark hcontent .nil
      rw [List.append_nil] at hquoted
      rwa [Quoted.double, List.append_nil]
  | cons c cs ih =>
      intro content hcontent
      rw [Quoted.double]
      split
      · have hrest := Tidy.quoted hmark hcontent (ih (List.not_mem_nil (a := mark)))
        simpa [ofChars] using hrest
      · next hc =>
        have hmore : mark ∉ content ++ [c] := by
          rw [List.mem_append, List.mem_singleton, not_or]
          exact ⟨hcontent, Ne.symm hc⟩
        simpa using ih hmore

theorem Firm.quoted {mark : Char} (hmark : isMark mark) (name : String) :
    (ofText (Quoted.write mark name)).Firm := by
  have htidy := Tidy.within_double hmark name.toList (List.not_mem_nil (a := mark))
  unfold ofText Quoted.write
  rw [String.toList_ofList]
  refine ⟨htidy, ?_⟩
  unfold isMark at hmark
  rw [Bool.or_eq_true, beq_iff_eq, beq_iff_eq] at hmark
  rcases hmark with rfl | rfl <;> rfl

-- ========================================================== templates

/-- Whether a template has nothing outside of quotes that numbering could
take for a placeholder, its places among it, and no digit behind a place
or in front. -/
def neat : Option Char → List Char → Bool
  | quote, '%' :: 's' :: rest =>
    quote.isNone && !rest.head?.any Char.isDigit && neat none rest
  | none, c :: rest =>
    if isMark c then neat (some c) rest else c != '?' && c != '$' && neat none rest
  | some mark, c :: rest => neat (if c = mark then none else some mark) rest
  | quote, [] => quote.isNone

section Fill

variable {template : List Char} {args : List Writing}

theorem Firm.headD (h : ∀ w ∈ args, w.Firm) : (args.headD []).Firm := by
  cases args with
  | nil => exact .nil
  | cons w ws => exact h w List.mem_cons_self

theorem digitFirst_fill (hargs : ∀ w ∈ args, w.Firm) (ht : neat none template)
    (hhead : template.head?.any Char.isDigit = false) :
    (fill template args).digitFirst = false := by
  induction template, args using fill.induct with
  | case1 rest args ih =>
      simp only [neat, Bool.and_eq_true, Bool.not_eq_true'] at ht
      rw [fill]
      exact digitFirst_append (Firm.headD hargs).head
        (ih (fun w hw => hargs w (List.mem_of_mem_tail hw)) ht.2 ht.1.2)
  | case2 c rest args hne _ =>
      rw [fill]
      · exact hhead
      · exact hne
  | case3 args => rfl

/-- A neat template filled with firm arguments is tidy. Where a mark is
open before the rest of the template, it is so together with the mark and
what stands behind it. -/
theorem Tidy.fill_from (hargs : ∀ w ∈ args, w.Firm) :
    (neat none template → (fill template args).Tidy)
      ∧ ∀ mark, isMark mark → neat (some mark) template → ∀ content, mark ∉ content →
        (ofChars (mark :: content) ++ fill template args).Tidy := by
  induction template, args using fill.induct with
  | case1 rest args ih =>
      obtain ⟨hopen, -⟩ := ih fun w hw => hargs w (List.mem_of_mem_tail hw)
      refine ⟨fun ht => ?_, fun mark _ ht => ?_⟩
      · simp only [neat, Bool.and_eq_true, Bool.not_eq_true'] at ht
        rw [fill]
        refine (Firm.headD hargs).tidy.append ⟨hopen ht.2, digitFirst_fill ?_ ht.2 ht.1.2⟩
        exact fun w hw => hargs w (List.mem_of_mem_tail hw)
      · rw [neat] at ht
        cases ht
  | case2 c rest args hne ih =>
      obtain ⟨hopen, hwithin⟩ := ih hargs
      refine ⟨fun ht => ?_, fun mark hmark ht content hcontent => ?_⟩
      · rw [neat] at ht
        · rw [fill]
          · split at ht
            · next hmark => exact hwithin c hmark ht [] List.not_mem_nil
            · next hmark =>
              simp only [Bool.and_eq_true, bne_iff_ne] at ht
              exact .char (Bool.eq_false_iff.2 hmark) ht.1 (hopen ht.2)
          · exact hne
        · exact hne
      · have hmove : ofChars (mark :: content) ++ .char c :: fill rest args
            = ofChars (mark :: (content ++ [c])) ++ fill rest args := by simp [ofChars]
        rw [neat] at ht
        · rw [fill]
          · rw [hmove]
            split at ht
            · next hc =>
              subst hc
              exact .quoted hmark hcontent (hopen ht)
            · next hc =>
              refine hwithin mark hmark ht (content ++ [c]) ?_
              rw [List.mem_append, List.mem_singleton, not_or]
              exact ⟨hcontent, Ne.symm hc⟩
          · exact hne
        · exact hne
  | case3 args =>
      refine ⟨fun _ => .nil, fun mark _ ht => ?_⟩
      cases ht

/-- A neat template without a digit in front is firm once it is filled
with what is firm. -/
theorem Firm.filled (ht : neat none template) (hhead : template.head?.any Char.isDigit = false)
    (hargs : ∀ w ∈ args, w.Firm) : (fill template args).Firm :=
  ⟨(Tidy.fill_from hargs).1 ht, digitFirst_fill hargs ht hhead⟩

end Fill

end Writing

-- ============================================================= dialects

open Writing

/-- A dialect whose names, operators and methods are written tidily. -/
structure Dialect.Neat (d : Dialect) : Prop where
  quoteTable : ∀ name, (ofText (d.quoteTable name)).Firm
  quoteColumn : ∀ name, (ofText (d.quoteColumn name)).Firm
  nullSafeEq : (ofText d.nullSafeEq).Firm
  unboundedLimit : ∀ text, d.unboundedLimit? = some text → (ofText text).Tidy
  neat : ∀ name template, d.template? name = some template →
    Writing.neat none template.toList ∧ template.toList.head?.any Char.isDigit = false

theorem Flavor.postgresql_neat : Flavor.postgresql.dialect.Neat where
  quoteTable := fun name => Firm.quoted (by decide) name
  quoteColumn := fun name => Firm.quoted (by decide) name
  nullSafeEq := Firm.text (by decide)
  unboundedLimit := nofun
  neat := fun name template h => by
    simp only [dialect, template?] at h
    split at h <;> cases h <;> decide

section Compile

variable {dialect : Dialect} {scope : Scope}

theorem Dialect.Neat.quotes (hd : dialect.Neat) : dialect.Quotes Firm :=
  ⟨Firm.adjoining, hd.quoteTable, hd.quoteColumn⟩

theorem Scope.columnText_firm (hd : dialect.Neat) (path : String) :
    (ofText (scope.columnText dialect path)).Firm := by
  unfold Scope.columnText
  split
  · exact hd.quotes.tableColumn _ _
  · exact .nil

-- ============================================================= elements

mutual

theorem Element.written_firm (hd : dialect.Neat) : ∀ element : Element,
    (element.written dialect scope).Firm
  | .value v => .literal v
  | .field path => Scope.columnText_firm hd path
  | .method name args => by
      have hargs := Element.firm_of_mem_writtenEach hd args
      rw [Element.written]
      cases h : dialect.template? name with
      | none => exact .nil
      | some template => exact .filled (hd.neat name template h).1 (hd.neat name template h).2 hargs
termination_by structural element => element

theorem Element.firm_of_mem_writtenEach (hd : dialect.Neat) : ∀ elements : List Element,
    ∀ w ∈ Element.writtenEach dialect scope elements, w.Firm
  | [], w, hw => by cases hw
  | element :: rest, w, hw => by
      rw [Element.writtenEach, List.mem_cons] at hw
      rcases hw with rfl | hw
      · exact Element.written_firm hd element
      · exact Element.firm_of_mem_writtenEach hd rest w hw
termination_by structural elements => elements

end

theorem Element.writtenTuple_firm (hd : dialect.Neat) (elements : List Element) :
    (Element.writtenTuple dialect scope elements).Firm := by
  have hlist : (separated ", " (elements.map (Element.written dialect scope))).Firm := by
    refine Firm.adjoining.separated (by decide) fun w hw => ?_
    obtain ⟨element, -, rfl⟩ := List.mem_map.1 hw
    exact element.written_firm hd
  unfold Element.writtenTuple
  dsimp only
  split
  · exact hlist.tidy.between (by decide) (by decide)
  · exact hlist

theorem OrderTerm.written_firm (hd : dialect.Neat) (term : OrderTerm) :
    (term.written dialect scope).Firm := by
  unfold OrderTerm.written
  refine (term.element.written_firm hd).append ?_
  cases term.direction <;> exact .text (by decide)

-- ============================================================== clauses

theorem Comparison.written_firm (hd : dialect.Neat) (comparison : Comparison)
    (lhs rhs : Element) : (comparison.written dialect scope lhs rhs).Firm := by
  have hoperator : (ofText (comparison.operator dialect)).Firm := by
    cases comparison
    case eq | neq => exact hd.nullSafeEq
    case gt => exact Firm.text (t := ">") (by decide)
    case gte => exact Firm.text (t := ">=") (by decide)
    case lt => exact Firm.text (t := "<") (by decide)
    case lte => exact Firm.text (t := "<=") (by decide)
  have hbetween : (ofText s!" {comparison.operator dialect} ").Firm := by
    have hblank : (ofText " ").Firm := .text (by decide)
    have hpadded := (hblank.append hoperator).append hblank
    rwa [← ofText_append, ← ofText_append] at hpadded
  have hlhs : (lhs.written dialect scope).Firm := lhs.written_firm hd
  have hrhs : (rhs.written dialect scope).Firm := rhs.written_firm hd
  have hwhole := hlhs.append (hbetween.append hrhs)
  unfold Comparison.written
  dsimp only
  split
  · exact hwhole.tidy.between (by decide) (by decide)
  · exact hwhole

/-- A membership in nothing begins with a digit, so it is tidy alone. -/
theorem Clause.writtenIn_tidy (hd : dialect.Neat) (lhs : List Element)
    (rows : List (List Element)) : (Clause.writtenIn dialect scope lhs rows).Tidy := by
  have hlist : (separated ", " (rows.map (Element.writtenTuple dialect scope))).Tidy := by
    refine .separated (by decide) fun w hw => ?_
    obtain ⟨row, -, rfl⟩ := List.mem_map.1 hw
    exact (Element.writtenTuple_firm hd row).tidy
  unfold Clause.writtenIn
  split
  · exact .text (by decide)
  · refine (Element.writtenTuple_firm hd lhs).tidy.append (Tidy.behind ?_ (hlist.append ?_))
    · split <;> decide
    · exact .text (by decide)

mutual

theorem Clause.written_tidy (hd : dialect.Neat) : ∀ clause : Clause,
    (clause.written dialect scope).Tidy
  | .compare comparison lhs rhs => (comparison.written_firm hd lhs rhs).tidy
  | .not operand => ((Clause.written_tidy hd operand).between (by decide) (by decide)).tidy
  | .and operands =>
      ((Tidy.separated (by decide) (Clause.tidy_of_mem_writtenEach hd operands)).between
        (by decide) (by decide)).tidy
  | .or operands =>
      ((Tidy.separated (by decide) (Clause.tidy_of_mem_writtenEach hd operands)).between
        (by decide) (by decide)).tidy
  | .isIn lhs rows => Clause.writtenIn_tidy hd lhs rows
  | .truthy element => (element.written_firm hd).tidy
termination_by structural clause => clause

theorem Clause.tidy_of_mem_writtenEach (hd : dialect.Neat) : ∀ clauses : List Clause,
    ∀ w ∈ Clause.writtenEach dialect scope clauses, w.Tidy
  | [], w, hw => by cases hw
  | clause :: rest, w, hw => by
      rw [Clause.writtenEach, List.mem_cons] at hw
      rcases hw with rfl | hw
      · exact Clause.written_tidy hd clause
      · exact Clause.tidy_of_mem_writtenEach hd rest w hw
termination_by structural clauses => clauses

end

end Compile

end RecordQuery
