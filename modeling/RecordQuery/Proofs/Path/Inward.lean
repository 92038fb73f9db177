/-
What is written in the scope of an included relation. Its filter and its
order look at the relation's own table: a dotted path is refused before
any relation of it is looked up. So whatever is wrong with them, they
report no unknown relation, and where one is reported while the included
relations of a request are walked, it is an included one.
-/
import RecordQuery.Plan.Build
import RecordQuery.Proofs.Acceptance.Conjoined

namespace RecordQuery

/-- A computation that does not fail for an unknown relation. -/
def NeverUnknown {α : Type} (x : Except CompileError α) : Prop :=
  ∀ model relation path, x ≠ .error (.unknownRelation model relation path)

namespace NeverUnknown

variable {α β : Type} {x : Except CompileError α} {f : α → Except CompileError β}

theorem pure (a : α) : NeverUnknown (pure a : Except CompileError α) :=
  fun _ _ _ => nofun

/-- What fails for collisions only. -/
theorem of_collidesOnly (h : CollidesOnly x) : NeverUnknown x := by
  intro model relation path hx
  obtain ⟨name, first, second, heq⟩ := h _ hx
  cases heq

theorem bind (hx : NeverUnknown x) (hf : ∀ a, NeverUnknown (f a)) : NeverUnknown (x >>= f) := by
  intro model relation path h
  rcases bind_eq_error.1 h with h | ⟨a, -, h⟩
  · exact hx _ _ _ h
  · exact hf a _ _ _ h

theorem map {g : α → β} (hx : NeverUnknown x) : NeverUnknown (x.map g) :=
  fun _ _ _ h => hx _ _ _ (map_eq_error.1 h)

theorem mapM (hf : ∀ a, NeverUnknown (f a)) (as : List α) : NeverUnknown (as.mapM f) := by
  induction as with
  | nil =>
      rw [List.mapM_nil]
      exact pure []
  | cons a as ih =>
      rw [List.mapM_cons]
      exact (hf a).bind fun _ => ih.bind fun _ => pure _

/-- A computation run over what may be absent. -/
theorem optionMapM (hf : ∀ a, NeverUnknown (f a)) (a? : Option α) :
    NeverUnknown (a?.mapM f) := by
  cases a? with
  | none => exact pure none
  | some a =>
      rw [Option.mapM_some]
      exact (hf a).map

end NeverUnknown

open NeverUnknown

variable {dialect : Dialect} {scope : Scope}

-- =============================================================== lookups

theorem Mapping.columnOfField_neverUnknown (m : Mapping) (field : String) :
    NeverUnknown (m.columnOfField field) := by
  unfold columnOfField
  split
  · exact pure _
  · exact fun _ _ _ => nofun

theorem Mapping.fieldStructure_neverUnknown (m : Mapping) (tableAlias : String)
    (fields : List String) : NeverUnknown (m.fieldStructure tableAlias fields) := by
  unfold fieldStructure
  split
  · exact pure _
  · exact mapM (fun field => (m.columnOfField_neverUnknown field).map) fields

/-- In the scope of an included relation a dotted path is refused. -/
theorem Scope.field_neverUnknown (h : scope.relation ≠ none) (path : String) :
    NeverUnknown (scope.field dialect path) := by
  unfold field
  split
  · exact (scope.mapping.columnOfField_neverUnknown path).map.map
  · split
    · exact fun _ _ _ => nofun
    · next hnone => exact absurd hnone h

theorem Dialect.form_neverUnknown (name : String) (args : List Element) :
    NeverUnknown (dialect.form name args) := by
  have hcheck : NeverUnknown (Signature.check name args) := by
    unfold Signature.check
    split
    · exact fun _ _ _ => nofun
    · split
      · exact fun _ _ _ => nofun
      · split
        · exact fun _ _ _ => nofun
        · exact pure _
  refine hcheck.bind fun signature => ?_
  split
  · exact pure _
  · exact fun _ _ _ => nofun

-- ============================================================== compiling

mutual

theorem Element.compile_neverUnknown (h : scope.relation ≠ none) : ∀ element : Element,
    NeverUnknown (element.compile dialect scope)
  | .value _ => pure _
  | .field path => Scope.field_neverUnknown h path
  | .method name args =>
      (Dialect.form_neverUnknown name args).bind fun _ =>
        (Element.compileArgs_neverUnknown h args {}).bind fun _ => pure _
termination_by structural element => element

theorem Element.compileArgs_neverUnknown (h : scope.relation ≠ none) :
    ∀ (args : List Element) (sofar : Arguments),
    NeverUnknown (Element.compileArgs dialect scope sofar args)
  | [], sofar => pure sofar
  | arg :: rest, sofar =>
      (Element.compile_neverUnknown h arg).bind fun f =>
        (of_collidesOnly (Joins.merge_collidesOnly f.joins sofar.joins)).map.bind fun more =>
          Element.compileArgs_neverUnknown h rest more
termination_by structural args => args

end

theorem Element.compileList_neverUnknown (h : scope.relation ≠ none) (elements : List Element) :
    NeverUnknown (Element.compileList dialect scope elements) :=
  (mapM (Element.compile_neverUnknown h) elements).bind fun fs =>
    of_collidesOnly (Fragment.join_collidesOnly ", " fs)

theorem Comparison.compile_neverUnknown (h : scope.relation ≠ none) (comparison : Comparison)
    (lhs rhs : Element) :
    NeverUnknown (comparison.compile dialect scope lhs rhs) :=
  (Element.compile_neverUnknown h lhs).bind fun _ =>
    (Element.compile_neverUnknown h rhs).bind fun right =>
      (of_collidesOnly (Fragment.append_collidesOnly _ right)).bind fun _ => pure _

theorem Clause.compileIn_neverUnknown (h : scope.relation ≠ none) (lhs : List Element)
    (rows : List (List Element)) : NeverUnknown (Clause.compileIn dialect scope lhs rows) := by
  unfold Clause.compileIn
  dsimp only
  split
  · exact fun _ _ _ => nofun
  · split
    · exact fun _ _ _ => nofun
    · refine (Element.compileList_neverUnknown h lhs).bind fun left => ?_
      split
      · exact pure _
      · have htuples : NeverUnknown (rows.mapM fun row => do
            let tuple ← Element.compileList dialect scope row
            Pure.pure (tuple.tuple lhs.length)) :=
          mapM (fun row => (Element.compileList_neverUnknown h row).bind fun _ => pure _) rows
        refine htuples.bind fun tuples => ?_
        refine (of_collidesOnly (Fragment.join_collidesOnly ", " tuples)).bind fun list => ?_
        exact (of_collidesOnly (Fragment.append_collidesOnly _ list)).bind fun _ => pure _

/-- Members that were compiled may collide when they are put together. -/
theorem Fragment.group_neverUnknown (separator : String) (fs : List Fragment) :
    NeverUnknown (do
      let f ← Fragment.join separator fs
      Pure.pure f.parenthesize) :=
  (of_collidesOnly (Fragment.join_collidesOnly separator fs)).bind fun _ => pure _

mutual

/-- A condition in the scope of an included relation reports no unknown
relation. -/
theorem Clause.compile_neverUnknown (h : scope.relation ≠ none) : ∀ clause : Clause,
    NeverUnknown (clause.compile dialect scope)
  | .compare comparison lhs rhs => Comparison.compile_neverUnknown h comparison lhs rhs
  | .not operand => (Clause.compile_neverUnknown h operand).bind fun _ => pure _
  | .and operands => by
      rw [Clause.compile]
      split
      · exact fun _ _ _ => nofun
      · exact (Clause.compileEach_neverUnknown h operands).bind fun fs =>
          Fragment.group_neverUnknown " AND " fs
  | .or operands => by
      rw [Clause.compile]
      split
      · exact fun _ _ _ => nofun
      · exact (Clause.compileEach_neverUnknown h operands).bind fun fs =>
          Fragment.group_neverUnknown " OR " fs
  | .isIn lhs rows => Clause.compileIn_neverUnknown h lhs rows
  | .truthy element => Element.compile_neverUnknown h element
termination_by structural clause => clause

theorem Clause.compileEach_neverUnknown (h : scope.relation ≠ none) : ∀ clauses : List Clause,
    NeverUnknown (Clause.compileEach dialect scope clauses)
  | [] => pure []
  | clause :: rest =>
      (Clause.compile_neverUnknown h clause).bind fun _ =>
        (Clause.compileEach_neverUnknown h rest).bind fun _ => pure _
termination_by structural clauses => clauses

end

theorem OrderTerm.compile_neverUnknown (h : scope.relation ≠ none) (term : OrderTerm) :
    NeverUnknown (term.compile dialect scope) :=
  (Element.compile_neverUnknown h term.element).bind fun _ => pure _

/-- Entering a relation reports no unknown one. -/
theorem Walk.enter_neverUnknown (catalog : Catalog) (walk : Walk) (step : Step)
    (fields : List String) (filter : Option Clause) (order : List OrderTerm) :
    NeverUnknown (walk.enter dialect catalog step fields filter order) := by
  have hown : some step.relation.field ≠ none := Option.some_ne_none _
  unfold Walk.enter
  refine (optionMapM (Clause.compile_neverUnknown hown) filter).bind fun filter' => ?_
  refine (mapM (OrderTerm.compile_neverUnknown hown) order).bind fun orders => ?_
  refine (of_collidesOnly (Joins.insert_collidesOnly walk.joins _)).bind fun joins => ?_
  exact (Mapping.fieldStructure_neverUnknown step.target step.pathAlias fields).bind
    fun _ => pure _

end RecordQuery
