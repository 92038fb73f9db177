/-
The texts of a statement that a request's elements have no part in: the
columns that are selected, the conditions of joins, the order by keys,
what limits the rows. They are made of quoted names and bare words, side
by side. What both are, if it is kept side by side, they are as well, and
it is shown once for all such properties of writings.
-/
import RecordQuery.Plan.Statement
import RecordQuery.Proofs.Statement.Quoting

namespace RecordQuery

namespace Writing

-- ================================================================ words

/-- Whether a character stands for nothing but itself outside of quotes. -/
def isBare (c : Char) : Bool :=
  Sound.isPlain c && c != '$'

/-- Whether a text is bare and begins with something else than a digit. -/
def opens : List Char → Bool
  | [] => false
  | c :: cs => !c.isDigit && (c :: cs).all isBare

theorem all_isBare_toString (n : Nat) : (toString n).toList.all isBare := by
  refine List.all_eq_true.2 fun c hc => ?_
  have hdigit : c.isDigit := by
    rw [Nat.toString_eq_ofList_toDigits, String.toList_ofList] at hc
    exact Nat.isDigit_of_mem_toDigits (by decide) (by decide) hc
  simp only [isBare, Sound.isPlain, Placeholder.isQuote, Bool.and_eq_true, Bool.not_eq_true',
    Bool.or_eq_false_iff, beq_eq_false_iff_ne, bne_iff_ne]
  refine ⟨⟨⟨⟨?_, ?_⟩, ?_⟩, ?_⟩, ?_⟩ <;>
    · rintro rfl
      exact absurd hdigit (by decide)

theorem opens_append {a b : String} (ha : opens a.toList) (hb : b.toList.all isBare) :
    opens (a ++ b).toList := by
  rw [String.toList_append]
  cases hchars : a.toList with
  | nil =>
      rw [hchars] at ha
      cases ha
  | cons c cs =>
      rw [hchars, opens, Bool.and_eq_true] at ha
      rw [List.cons_append, opens, Bool.and_eq_true, ← List.cons_append, List.all_append,
        Bool.and_eq_true]
      exact ⟨ha.1, ha.2, hb⟩

-- ====================================================== side by side

/-- A property that words have and that is kept side by side. -/
structure Adjoining (P : Writing → Prop) : Prop where
  nil : P []
  append : ∀ {v w : Writing}, P v → P w → P (v ++ w)
  word : ∀ {t : String}, opens t.toList → P (ofText t)

namespace Adjoining

variable {P : Writing → Prop}

theorem separated (h : Adjoining P) {separator : String} (hs : opens separator.toList)
    {ws : List Writing} (hws : ∀ w ∈ ws, P w) : P (separated separator ws) := by
  unfold Writing.separated
  induction ws with
  | nil => exact h.nil
  | cons w ws ih =>
      obtain ⟨hw, hrest⟩ := List.forall_mem_cons.1 hws
      cases ws with
      | nil => simpa using hw
      | cons w' ws =>
          rw [List.intercalate_cons_cons]
          exact h.append (h.append hw (h.word hs)) (ih hrest)

/-- Texts with a separator between them. -/
theorem intercalate (h : Adjoining P) {separator : String} (hs : opens separator.toList)
    {texts : List String} (htexts : ∀ text ∈ texts, P (ofText text)) :
    P (ofText (separator.intercalate texts)) := by
  rw [ofText_intercalate]
  exact h.separated hs (List.forall_mem_map.2 htexts)

end Adjoining

theorem Sound.adjoining : Adjoining Sound where
  nil := .nil
  append := .append
  word := fun {t} h => by
    refine .plain (List.all_eq_true.2 fun c hc => ?_)
    cases hchars : t.toList with
    | nil =>
        rw [hchars] at hc
        cases hc
    | cons d cs =>
        rw [hchars, opens, Bool.and_eq_true, List.all_eq_true] at h
        rw [hchars] at hc
        have hbare := h.2 c hc
        rw [isBare, Bool.and_eq_true] at hbare
        exact hbare.1

end Writing

-- ================================================================ names

open Writing

/-- A property that words and quoted names have and that is kept side by
side. -/
structure Dialect.Quotes (P : Writing → Prop) (d : Dialect) : Prop where
  adjoining : Adjoining P
  table : ∀ name, P (ofText (d.quoteTable name))
  column : ∀ name, P (ofText (d.quoteColumn name))

namespace Dialect.Quotes

variable {P : Writing → Prop} {d : Dialect}

theorem tableColumn (h : d.Quotes P) (table column : String) :
    P (ofText (d.quoteTableColumn table column)) := by
  unfold quoteTableColumn
  rw [ofText_append, ofText_append]
  have hpoint : P (ofText ".") := h.adjoining.word (by decide)
  exact h.adjoining.append (h.adjoining.append (h.table table) hpoint) (h.column column)

theorem select (h : d.Quotes P) (c : ColumnRef) : P (ofText (c.select d)) := by
  unfold ColumnRef.select
  rw [ofText_append]
  refine h.adjoining.append (h.tableColumn _ _) ?_
  cases c.output with
  | none => exact h.adjoining.nil
  | some output =>
      rw [ofText_append]
      exact h.adjoining.append (h.adjoining.word (by decide)) (h.column output)

theorem ascending (h : d.Quotes P) (key : StructureColumn) :
    P (ofText (key.ascending d).sql) := by
  unfold StructureColumn.ascending
  rw [ofText_append]
  exact h.adjoining.append (h.tableColumn _ _) (h.adjoining.word (by decide))

theorem join (h : d.Quotes P) (step : Step) : P (ofText (step.join d none).sql) := by
  have hcondition : ∀ pair, P (ofText (step.condition d pair)) := by
    intro pair
    unfold Step.condition
    rw [ofText_append, ofText_append]
    have hequals : P (ofText " = ") := h.adjoining.word (by decide)
    exact h.adjoining.append (h.adjoining.append (h.tableColumn _ _) hequals) (h.tableColumn _ _)
  have hconditions :
      P (ofText (" AND ".intercalate (step.relation.pairs.map (step.condition d)))) :=
    h.adjoining.intercalate (by decide) (List.forall_mem_map.2 fun pair _ => hcondition pair)
  have hjoin : P (ofText "LEFT JOIN ") := h.adjoining.word (by decide)
  have has : P (ofText " AS ") := h.adjoining.word (by decide)
  have hon : P (ofText " ON ") := h.adjoining.word (by decide)
  simp only [Step.join, ofText_append]
  refine h.adjoining.append ?_ h.adjoining.nil
  refine h.adjoining.append (h.adjoining.append ?_ hon) hconditions
  exact h.adjoining.append (h.adjoining.append (h.adjoining.append hjoin (h.table _)) has)
    (h.table _)

end Dialect.Quotes

/-- What limits the rows is made of words and numbers, and of the limit
that stands for none. -/
theorem Plan.limitText_of_adjoining {P : Writing → Prop} (h : Adjoining P) (plan : Plan)
    (hunbounded : ∀ text, plan.dialect.unboundedLimit? = some text →
      P (ofText (" LIMIT " ++ text))) :
    P (ofText plan.limitText) := by
  have hlimit : ∀ n : Nat, P (ofText (" LIMIT " ++ toString n)) :=
    fun n => h.word (opens_append (by decide) (all_isBare_toString n))
  have hoffset : ∀ n : Nat, P (ofText (" OFFSET " ++ toString n)) :=
    fun n => h.word (opens_append (by decide) (all_isBare_toString n))
  unfold Plan.limitText
  split
  · exact h.nil
  · exact hlimit _
  · next limit _ _ _ =>
    have hboth := h.append (hlimit limit) (hoffset plan.offset)
    rwa [← ofText_append, ← String.append_assoc] at hboth
  · exact h.nil
  · rw [ofText_append]
    refine h.append ?_ (hoffset _)
    split
    · next text htext => exact hunbounded text htext
    · exact h.nil

end RecordQuery
