/-
Paths followed in a scope. A path of relations leads step by step to the
scope of another table; what is reached depends on the path alone, and the
table there has the path's alias. The steps that a request takes for a
path are those of its beginnings, each named as its beginning is.
-/
import RecordQuery.Proofs.Except
import RecordQuery.Proofs.Path.Alias

namespace RecordQuery

/-- The beginnings of the relations that a field's path follows, the
shorter before the longer. -/
def FieldPath.relationPaths (path : String) : List RelationPath :=
  (split path).1.inits.tail

-- ============================================================= one step

namespace Catalog

variable {catalog : Catalog} {m : Mapping} {relation leftAlias before path : String}
  {step : Step}

/-- Which step is taken does not depend on the path it is reported
with. -/
theorem step_of_path (h : catalog.step m relation leftAlias before path = .ok step)
    (path' : String) : catalog.step m relation leftAlias before path' = .ok step := by
  unfold Catalog.step at h ⊢
  cases hr : m.relation? relation with
  | none =>
      rw [hr] at h
      cases h
  | some r =>
      simp only [hr] at h ⊢
      cases ht : catalog.mapping? r.target with
      | none =>
          rw [ht] at h
          cases h
      | some target =>
          simp only [ht] at h ⊢
          exact h

/-- A step follows a relation of the mapping to a mapping of the
catalog. -/
theorem of_step
    (h : catalog.step m relation leftAlias before path = .ok step) :
    m.relation? relation = some step.relation ∧ step.relation.field = relation
      ∧ catalog.mapping? step.relation.target = some step.target := by
  unfold Catalog.step at h
  split at h
  · cases h
  · next r hr =>
    split at h
    · cases h
    · next target htarget =>
      cases h
      exact ⟨hr, by simpa using List.find?_some hr, htarget⟩

/-- The table joined has an alias that continues the one before; the join
starts from the alias on the left. -/
theorem aliases_of_step (h : catalog.step m relation leftAlias before path = .ok step) :
    step.leftAlias = leftAlias ∧ step.pathAlias = Step.joinAlias before relation := by
  obtain ⟨-, hfield, -⟩ := of_step h
  unfold Catalog.step at h
  split at h
  · cases h
  · split at h
    · cases h
    · cases h
      exact ⟨rfl, by rw [← hfield]⟩

end Catalog

-- =============================================================== scopes

namespace Scope

/-- The scope that a step leads to. -/
def enter (scope : Scope) (step : Step) : Scope :=
  { scope with mapping := step.target, tableAlias := step.pathAlias, aliasPrefix := step.pathAlias }

/-- The scope of the filter and the order of the relation that a step
follows: the table that is joined, and no other. -/
def within (scope : Scope) (step : Step) : Scope :=
  { catalog := scope.catalog, mapping := step.target, tableAlias := step.pathAlias
    relation := some step.relation.field }

/-- The step along a relation of a scope's mapping. -/
def step (scope : Scope) (relation : String) : Except CompileError Step :=
  scope.catalog.step scope.mapping relation scope.tableAlias scope.aliasPrefix ""

/-- The scope that a path leads to. -/
def reach (scope : Scope) (path : RelationPath) : Except CompileError Scope :=
  path.foldlM (fun here relation => (here.step relation).map here.enter) scope

/-- A path leads to the table that a step joins. -/
def Leads (scope : Scope) (path : RelationPath) (last : Step) : Prop :=
  ∃ before relation here, path = before ++ [relation] ∧ scope.reach before = .ok here
    ∧ here.step relation = .ok last

variable {scope here : Scope} {path before : RelationPath} {relation : String} {last : Step}

theorem reach_snoc :
    scope.reach (path ++ [relation])
      = scope.reach path >>= fun here => (here.step relation).map here.enter := by
  unfold reach
  rw [List.foldlM_append]
  simp only [List.foldlM_cons, List.foldlM_nil, bind_pure]

/-- A path that leads somewhere is the longest of its beginnings. -/
theorem Leads.mem_inits_tail (h : scope.Leads path last) : path ∈ path.inits.tail := by
  obtain ⟨before, relation, here, rfl, -, -⟩ := h
  rw [RelationPath.inits_tail_snoc]
  exact List.mem_append_right _ (List.mem_singleton_self _)

/-- A path leads to one table. -/
theorem Leads.unique {last' : Step} (h : scope.Leads path last) (h' : scope.Leads path last') :
    last = last' := by
  obtain ⟨before, relation, here, rfl, hreach, hstep⟩ := h
  obtain ⟨before', relation', here', heq, hreach', hstep'⟩ := h'
  obtain ⟨rfl, hlast⟩ := List.append_inj' heq rfl
  cases hlast
  rw [hreach] at hreach'
  cases hreach'
  rw [hstep] at hstep'
  cases hstep'
  rfl

/-- Where a path leads, the table has the path's alias. -/
theorem aliases_of_reach (hbare : scope.aliasPrefix = "") : ∀ {here : Scope},
    scope.reach path = .ok here →
      here.catalog = scope.catalog ∧ here.tableAlias = path.aliasUnder scope.tableAlias
        ∧ here.aliasPrefix = path.tableAlias := by
  induction path using List.reverseRecOn with
  | nil =>
      intro here h
      cases pure_eq_ok.1 h
      exact ⟨rfl, rfl, hbare⟩
  | append_singleton path relation ih =>
      intro here h
      rw [reach_snoc] at h
      obtain ⟨between, hbetween, h⟩ := bind_eq_ok.1 h
      obtain ⟨last, hlast, rfl⟩ := map_eq_ok.1 h
      obtain ⟨hcatalog, -, hbefore⟩ := ih hbetween
      obtain ⟨-, halias⟩ := Catalog.aliases_of_step hlast
      rw [hbefore, ← RelationPath.tableAlias_snoc] at halias
      exact ⟨hcatalog, by rw [RelationPath.aliasUnder_snoc]; exact halias, halias⟩

/-- The step at the end of a path is named as the path is. -/
theorem Leads.aliases (hbare : scope.aliasPrefix = "") (h : scope.Leads path last) :
    last.pathAlias = path.tableAlias
      ∧ last.leftAlias = RelationPath.aliasUnder scope.tableAlias path.dropLast
      ∧ last.leftAlias ++ "." ++ last.relation.field = path.source scope.tableAlias := by
  obtain ⟨before, relation, here, rfl, hreach, hstep⟩ := h
  obtain ⟨-, hhere, hbefore⟩ := aliases_of_reach hbare hreach
  obtain ⟨hleft, hpath⟩ := Catalog.aliases_of_step hstep
  obtain ⟨-, hfield, -⟩ := Catalog.of_step hstep
  rw [hleft, hpath, hhere, hbefore, hfield, RelationPath.source_snoc,
    RelationPath.tableAlias_snoc, List.dropLast_concat]
  exact ⟨rfl, rfl, rfl⟩

/-- A step taken where a path leads goes on with the path. -/
theorem reach_step {name path' : String} {step : Step} (hreach : scope.reach before = .ok here)
    (hcatalog : here.catalog = scope.catalog)
    (hstep : scope.catalog.step here.mapping name here.tableAlias here.aliasPrefix path'
      = .ok step) :
    scope.Leads (before ++ [name]) step
      ∧ scope.reach (before ++ [name]) = .ok (here.enter step) := by
  have hnext : here.step name = .ok step := by
    unfold Scope.step
    rw [hcatalog]
    exact Catalog.step_of_path hstep ""
  refine ⟨⟨before, name, here, rfl, hreach, hnext⟩, ?_⟩
  rw [reach_snoc, hreach]
  exact map_eq_ok.2 ⟨step, hnext, rfl⟩

-- ================================================================ steps

/-- The beginnings of a path that goes on after another, less those of the
other. -/
theorem inits_tail_cons (relation : String) (rest : RelationPath) :
    (relation :: rest).inits.tail = [relation] :: rest.inits.tail.map (relation :: ·) := by
  cases rest <;> simp

/-- The steps along a path are those that its beginnings lead to. -/
theorem leads_of_steps {rest : RelationPath} {name : String} :
    ∀ {before : RelationPath} {here : Scope} {steps : List Step},
      scope.reach before = .ok here → here.catalog = scope.catalog →
      scope.catalog.steps here.mapping here.tableAlias here.aliasPrefix name rest = .ok steps →
      List.Forall₂ scope.Leads (rest.inits.tail.map (before ++ ·)) steps := by
  induction rest with
  | nil =>
      intro before here steps _ _ h
      cases pure_eq_ok.1 h
      exact .nil
  | cons relation rest ih =>
      intro before here steps hreach hcatalog h
      obtain ⟨step, hstep, h⟩ := bind_eq_ok.1 h
      obtain ⟨more, hmore, h⟩ := bind_eq_ok.1 h
      cases pure_eq_ok.1 h
      obtain ⟨hleads, hnext⟩ := reach_step hreach hcatalog hstep
      have hrest := ih hnext hcatalog hmore
      rw [inits_tail_cons, List.map_cons, List.map_map]
      refine .cons hleads ?_
      simpa [Function.comp_def] using hrest

/-- Resolving a field takes the steps that the beginnings of its relations
lead to. -/
theorem leads_of_resolve {name : String} {resolved : Resolved}
    (h : scope.resolve name = .ok resolved) :
    List.Forall₂ scope.Leads (FieldPath.relationPaths name) resolved.steps := by
  obtain ⟨steps, hsteps, h⟩ := bind_eq_ok.1 h
  obtain ⟨column, -, h⟩ := bind_eq_ok.1 h
  cases pure_eq_ok.1 h
  have hleads := leads_of_steps (show scope.reach [] = .ok scope from rfl) rfl hsteps
  simp only [List.nil_append, List.map_id'] at hleads
  exact hleads

end Scope

end RecordQuery
