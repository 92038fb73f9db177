/-
The fields that a scope accepts. A path of relations reaches a mapping if
each relation is one of the mapping before it and leads to a mapping of
the catalog. A field is found if its path reaches a mapping that has it;
the scope of an included relation finds none but its own. Whether a field
can be written depends on this, and on whether the paths on its way clash
with each other or with the root.
-/
import RecordQuery.Proofs.Acceptance.Decided

namespace RecordQuery

open RelationPath

-- ============================================================== reaching

/-- A path of relations leads from one mapping to another. -/
inductive Catalog.Reaches (catalog : Catalog) : Mapping → RelationPath → Mapping → Prop where
  | here {m : Mapping} : Reaches catalog m [] m
  | follow {m target last : Mapping} {r : Relation} {name : String} {path : RelationPath}
      (hrelation : m.relation? name = some r) (htarget : catalog.mapping? r.target = some target)
      (hrest : Reaches catalog target path last) : Reaches catalog m (name :: path) last

/-- A field is stored in one of the columns. -/
def Mapping.HasField (m : Mapping) (field : String) : Prop :=
  ∃ c ∈ m.columns, c.field = field

/-- A field can be looked up: its relations reach a mapping that has it,
and it follows none in the scope of an included relation. -/
structure Scope.Finds (scope : Scope) (path : String) : Prop where
  own : scope.relation ≠ none → FieldPath.isDotted path = false
  reached : ∃ m, scope.catalog.Reaches scope.mapping (FieldPath.split path).1 m
    ∧ m.HasField (FieldPath.split path).2

namespace Catalog

variable {catalog : Catalog} {m last last' : Mapping} {path : RelationPath}

theorem Reaches.unique (h : catalog.Reaches m path last) (h' : catalog.Reaches m path last') :
    last = last' := by
  induction h with
  | here =>
      cases h'
      rfl
  | follow hrelation htarget _ ih =>
      cases h' with
      | follow hrelation' htarget' hrest' =>
          cases hrelation.symm.trans hrelation'
          cases htarget.symm.trans htarget'
          exact ih hrest'

/-- The mapping behind steps taken from a mapping. -/
def behind (m : Mapping) (steps : List Step) : Mapping :=
  (steps.getLast?.map Step.target).getD m

theorem behind_cons (m : Mapping) (step : Step) (steps : List Step) :
    behind m (step :: steps) = behind step.target steps := by
  unfold behind
  rw [List.getLast?_cons]
  cases steps.getLast? <;> rfl

/-- Steps are taken along a path that reaches a mapping. -/
theorem steps_decided {name : String} : ∀ {path : RelationPath} {m : Mapping}
    {leftAlias before : String},
    Decided (catalog.steps m leftAlias before name path)
      (fun steps => catalog.Reaches m path (behind m steps)) (∃ last, catalog.Reaches m path last)
  | [], m, _, _ => (Decided.pure .here).congr (iff_of_true trivial ⟨m, .here⟩)
  | relation :: rest, m, leftAlias, before => by
      unfold Catalog.steps Catalog.step
      cases hrelation : m.relation? relation with
      | none =>
          refine Decided.error ?_
          rintro ⟨last, h⟩
          cases h with
          | follow hrelation' => cases hrelation.symm.trans hrelation'
      | some r =>
          cases htarget : catalog.mapping? r.target with
          | none =>
              simp only [htarget]
              refine Decided.error ?_
              rintro ⟨last, h⟩
              cases h with
              | follow hrelation' htarget' =>
                  cases hrelation.symm.trans hrelation'
                  cases htarget.symm.trans htarget'
          | some target =>
              simp only [htarget]
              refine Decided.congr (Decided.thenPure steps_decided fun more hmore => ?_) ?_
              · rw [behind_cons]
                exact .follow hrelation htarget hmore
              · constructor
                · rintro ⟨last, h⟩
                  exact ⟨last, .follow hrelation htarget h⟩
                · rintro ⟨last, h⟩
                  cases h with
                  | follow hrelation' htarget' hrest =>
                      cases hrelation.symm.trans hrelation'
                      cases htarget.symm.trans htarget'
                      exact ⟨last, hrest⟩

end Catalog

theorem Mapping.columnRef_decided {m : Mapping} {tableAlias outputPrefix field : String} :
    Decided (m.columnRef tableAlias outputPrefix field) (fun _ => True) (m.HasField field) := by
  refine Decided.map (P := fun _ => True) ?_ fun _ _ => trivial
  unfold columnOfField columnOfField?
  split
  · next c hc =>
    refine (Decided.pure trivial).congr (iff_of_true trivial ?_)
    exact ⟨c, List.mem_of_find?_eq_some hc, by simpa using List.find?_some hc⟩
  · next hnone =>
    refine Decided.error ?_
    rintro ⟨c, hc, rfl⟩
    exact List.find?_eq_none.1 hnone c hc (by simp)

namespace Scope

variable {dialect : Dialect} {scope : Scope} {path : String}

/-- A path resolves if it reaches a mapping that has the field at its
end. -/
theorem resolve_decided :
    Decided (scope.resolve path)
      (fun resolved => List.Forall₂ scope.Leads (FieldPath.relationPaths path) resolved.steps)
      (∃ m, scope.catalog.Reaches scope.mapping (FieldPath.split path).1 m
        ∧ m.HasField (FieldPath.split path).2) := by
  refine Decided.imp (P := fun _ => True) ?_ fun resolved hresolved _ => leads_of_resolve hresolved
  refine (Catalog.steps_decided.bind
    (D := ∃ m, scope.catalog.Reaches scope.mapping (FieldPath.split path).1 m
      ∧ m.HasField (FieldPath.split path).2) fun steps hsteps => ?_).congr ?_
  · -- the mapping that is reached is the one behind the steps
    refine (Mapping.columnRef_decided.thenPure fun _ _ => trivial).congr ?_
    constructor
    · exact fun h => ⟨_, hsteps, h⟩
    · rintro ⟨m, hm, h⟩
      cases hsteps.unique hm
      exact h
  · constructor
    · exact And.right
    · exact fun h => ⟨h.imp fun _ hm => hm.1, h⟩

/-- The joins of the steps that paths lead to are put together, none under
the alias of the root, unless the paths clash. -/
theorem joins_decided (hbare : scope.aliasPrefix = "") {paths : List RelationPath}
    {steps : List Step} (hsteps : List.Forall₂ scope.Leads paths steps)
    (hgrounded : Grounded paths) :
    Decided (scope.joins dialect steps) (fun joins => scope.Clear dialect joins paths)
      (¬ Clash scope.tableAlias paths) := by
  have hsettled : Settled (scope.joins dialect steps)
      (fun joins => scope.Clear dialect joins paths) (Clash scope.tableAlias paths) := by
    refine (Joined.merge_steps hbare hsteps .nil (List.Subset.refl _)).bind fun joins _ hjoins => ?_
    refine (hjoins.apartFrom hbare (List.Subset.refl _)).bind fun _ _ hapart => .pure ?_
    exact ⟨hjoins, hgrounded, hjoins.not_clash hbare hgrounded hapart⟩
  refine hsettled.decided ?_ fun joins hjoins => hjoins.apart
  refine (Joins.merge_collidesOnly _ _).bind fun joins => ?_
  exact (Joins.apartFrom_collidesOnly joins _).bind fun _ e h => by cases h

/-- A field is written if the scope finds it and the paths on its way do
not clash. -/
theorem field_decided (hbare : scope.aliasPrefix = "") :
    Decided (scope.field dialect path)
      (fun f => scope.Clear dialect f.joins (FieldPath.relationPaths path))
      (scope.Finds path ∧ ¬ Clash scope.tableAlias (FieldPath.relationPaths path)) := by
  unfold field
  split
  · next hdot =>
    rw [Bool.not_eq_true'] at hdot
    have hsplit := FieldPath.split_of_not_dotted hdot
    have hpaths : FieldPath.relationPaths path = [] := by
      rw [FieldPath.relationPaths, hsplit]
      rfl
    rw [hpaths]
    refine Decided.congr (Decided.map (R := fun f : Fragment => scope.Clear dialect f.joins [])
      Mapping.columnRef_decided fun _ _ => .nil) ?_
    constructor
    · intro h
      refine ⟨⟨fun _ => hdot, scope.mapping, ?_⟩, not_clash_nil⟩
      rw [hsplit]
      exact ⟨.here, h⟩
    · rintro ⟨⟨-, m, hreaches, h⟩, -⟩
      rw [hsplit] at hreaches h
      cases hreaches
      exact h
  · next hdot =>
    cases hrelation : scope.relation with
    | some relation =>
        refine Decided.error ?_
        rintro ⟨⟨hown, -⟩, -⟩
        rw [hown (by rw [hrelation]; exact Option.some_ne_none relation)] at hdot
        exact hdot rfl
    | none =>
        refine (resolve_decided.bind fun resolved hresolved =>
          (joins_decided hbare hresolved (.prefixes _)).thenPure fun _ hjoins => hjoins).congr ?_
        refine and_congr_left' ⟨fun hreached => ?_, Finds.reached⟩
        exact ⟨fun h => absurd hrelation h, hreached⟩

end Scope

end RecordQuery
