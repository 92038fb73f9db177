/-
Resolving a path, step by step. The relations of a path are followed one
after the other: each is looked up in the mapping that those before it
reach, and its table is joined to the table that the step before joined,
under an alias that goes on with that table's. The first segment that
leads nowhere is the one reported, with the model reached there.

Mapping, left alias and alias prefix all change along the way, and the
first step starts from another alias than it continues. What a step looks
like at a position is therefore said of the steps before the position
alone: `Step.aliasBehind` is the alias that they end in.
-/
import RecordQuery.Proofs.Acceptance.Fields
import RecordQuery.Proofs.Layout.Slots
import RecordQuery.Proofs.Path.Columns
import RecordQuery.Proofs.Schema.Coherent

namespace RecordQuery

-- ================================================================ paths

namespace FieldPath

/-- There is no point within a segment. -/
theorem not_point_mem_segments {cs segment : List Char} :
    segment ∈ segments cs → '.' ∉ segment := by
  induction cs generalizing segment with
  | nil =>
      intro hmem
      rw [segments, List.mem_singleton] at hmem
      simp [hmem]
  | cons c cs ih =>
      intro hmem
      by_cases hc : c = '.'
      · rw [segments, if_pos hc] at hmem
        rcases List.mem_cons.1 hmem with rfl | hmem
        · simp
        · exact ih hmem
      · obtain ⟨first, more, hsegments⟩ := List.exists_cons_of_ne_nil (segments_ne_nil cs)
        rw [segments, if_neg hc, hsegments] at hmem
        rcases List.mem_cons.1 hmem with rfl | hmem
        · have hfirst := ih (hsegments ▸ List.mem_cons_self)
          simp [hfirst, Ne.symm hc]
        · exact ih (hsegments ▸ List.mem_cons_of_mem _ hmem)

end FieldPath

-- =============================================================== aliases

/-- The alias that steps end in: that of the last table they join, and if
there is none the one they start from. -/
def Step.aliasBehind (start : String) (steps : List Step) : String :=
  (steps.getLast?.map Step.pathAlias).getD start

theorem Step.aliasBehind_cons (start : String) (step : Step) (steps : List Step) :
    Step.aliasBehind start (step :: steps) = Step.aliasBehind step.pathAlias steps := by
  unfold Step.aliasBehind
  rw [List.getLast?_cons]
  cases steps.getLast? <;> rfl

namespace Catalog

variable {catalog : Catalog} {m here last target : Mapping} {r : Relation}
  {name path leftAlias before : String} {names taken rest : RelationPath} {e : CompileError}

-- ============================================================== one step

/-- A step joins the table that its relation declares. -/
theorem table_of_step {step : Step} (hm : m ∈ catalog.mappings)
    (h : catalog.step m name leftAlias before path = .ok step) :
    step.target.table = step.relation.targetTable := by
  obtain ⟨hrelation, -, htarget⟩ := of_step h
  obtain ⟨hmem, hmodel⟩ := mem_of_mapping? htarget
  have hcoherent := fault?_eq_none_iff.1 catalog.fault?_mappings
  exact (hcoherent.targets m hm step.relation (List.mem_of_find?_eq_some hrelation) step.target
    hmem hmodel).1.symm

theorem step_eq_ok (hrelation : m.relation? name = some r)
    (htarget : catalog.mapping? r.target = some target) :
    catalog.step m name leftAlias before path
      = .ok { relation := r, target, leftAlias, pathAlias := Step.joinAlias before r.field } := by
  simp only [Catalog.step, hrelation, htarget]

theorem step_unknown (h : m.relation? name = none) :
    catalog.step m name leftAlias before path = .error (.unknownRelation m.model name path) := by
  simp only [Catalog.step, h]

theorem step_unmapped (hrelation : m.relation? name = some r)
    (htarget : catalog.mapping? r.target = none) :
    catalog.step m name leftAlias before path
      = .error (.unmappedRelationType r.field r.target) := by
  simp only [Catalog.step, hrelation, htarget]

theorem steps_cons_error (h : catalog.step m name leftAlias before path = .error e) :
    catalog.steps m leftAlias before path (name :: rest) = .error e := by
  rw [steps, h]
  rfl

-- ============================================================= all steps

/-- The step at a position follows the relation of its name from where the
names before it lead, and joins the relation's target to the table that the
steps before it end in, under an alias that goes on with theirs. The table
is the one that the relation declares, if the names are followed from a
mapping of the catalog. -/
structure StepAt (catalog : Catalog) (m : Mapping) (leftAlias before : String)
    (taken : RelationPath) (earlier : List Step) (name : String) (step : Step) : Prop where
  relation : ∃ here, catalog.Reaches m taken here ∧ here.relation? name = some step.relation
  target : catalog.mapping? step.relation.target = some step.target
  table : m ∈ catalog.mappings → step.target.table = step.relation.targetTable
  leftAlias : step.leftAlias = Step.aliasBehind leftAlias earlier
  pathAlias : step.pathAlias = Step.joinAlias (Step.aliasBehind before earlier) name

/-- A step of a path is one of the path from another mapping that leads to
the path's beginning. -/
theorem StepAt.cons {first step : Step} {earlier : List Step} {next : String}
    (hfirst : catalog.step m next leftAlias before path = .ok first)
    (h : catalog.StepAt first.target first.pathAlias first.pathAlias taken earlier name step) :
    catalog.StepAt m leftAlias before (next :: taken) (first :: earlier) name step := by
  obtain ⟨hrelation, -, htarget⟩ := of_step hfirst
  obtain ⟨here, hreaches, hname⟩ := h.relation
  refine ⟨⟨here, .follow hrelation htarget hreaches, hname⟩, h.target, fun _ => ?_, ?_, ?_⟩
  · exact h.table (mem_of_mapping? htarget).1
  · rw [Step.aliasBehind_cons]
    exact h.leftAlias
  · rw [Step.aliasBehind_cons]
    exact h.pathAlias

/-- There is a step for each name, and each is the one at its position. -/
theorem stepAt_of_steps {names : RelationPath} :
    ∀ {m : Mapping} {leftAlias before : String} {steps : List Step},
      catalog.steps m leftAlias before path names = .ok steps →
      steps.length = names.length ∧ ∀ (i : Nat) (name : String) (step : Step),
        names[i]? = some name → steps[i]? = some step →
        catalog.StepAt m leftAlias before (names.take i) (steps.take i) name step := by
  induction names with
  | nil =>
      intro m leftAlias before steps h
      cases pure_eq_ok.1 h
      exact ⟨rfl, by simp⟩
  | cons next names ih =>
      intro m leftAlias before steps h
      obtain ⟨first, hfirst, h⟩ := bind_eq_ok.1 h
      obtain ⟨more, hmore, h⟩ := bind_eq_ok.1 h
      cases pure_eq_ok.1 h
      obtain ⟨hlength, hat⟩ := ih hmore
      refine ⟨by simp [hlength], fun i name step hname hstep => ?_⟩
      cases i with
      | zero =>
          simp only [List.getElem?_cons_zero, Option.some.injEq] at hname hstep
          subst hname hstep
          obtain ⟨hrelation, -, htarget⟩ := of_step hfirst
          obtain ⟨hleft, hpath⟩ := aliases_of_step hfirst
          exact ⟨⟨m, .here, hrelation⟩, htarget, fun hm => table_of_step hm hfirst, hleft, hpath⟩
      | succ i =>
          rw [List.getElem?_cons_succ] at hname hstep
          exact (hat i name step hname hstep).cons hfirst

-- ============================================================== failures

/-- Steps go on from where names lead as they would start there, with other
aliases. -/
theorem steps_error_of_reaches (hreaches : catalog.Reaches m taken here)
    (h : ∀ leftAlias before, catalog.steps here leftAlias before path rest = .error e) :
    ∀ leftAlias before,
      catalog.steps m leftAlias before path (taken ++ rest) = .error e := by
  induction hreaches with
  | here => exact h
  | follow hrelation htarget _ ih =>
      intro leftAlias before
      rw [List.cons_append, steps, step_eq_ok hrelation htarget]
      show catalog.steps _ _ _ path _ >>= _ = _
      rw [ih h]
      rfl

/-- Why names lead nowhere: behind those that lead somewhere, a name that is
no relation of the mapping reached, or one whose target is not
registered. -/
inductive Stops (catalog : Catalog) (m : Mapping) (path : String) :
    RelationPath → CompileError → Prop where
  | unknown {taken rest : RelationPath} {name : String} {here : Mapping}
      (hreaches : catalog.Reaches m taken here) (hnone : here.relation? name = none) :
      Stops catalog m path (taken ++ name :: rest) (.unknownRelation here.model name path)
  | unmapped {taken rest : RelationPath} {name : String} {here : Mapping} {r : Relation}
      (hreaches : catalog.Reaches m taken here) (hrelation : here.relation? name = some r)
      (hnone : catalog.mapping? r.target = none) :
      Stops catalog m path (taken ++ name :: rest) (.unmappedRelationType name r.target)

theorem Stops.cons (hrelation : m.relation? name = some r)
    (htarget : catalog.mapping? r.target = some target) (h : catalog.Stops target path names e) :
    catalog.Stops m path (name :: names) e := by
  cases h with
  | unknown hreaches hnone => exact .unknown (.follow hrelation htarget hreaches) hnone
  | unmapped hreaches hfound hnone =>
      exact .unmapped (.follow hrelation htarget hreaches) hfound hnone

theorem stops_of_steps {names : RelationPath} :
    ∀ {m : Mapping} {leftAlias before : String},
      catalog.steps m leftAlias before path names = .error e → catalog.Stops m path names e := by
  induction names with
  | nil =>
      intro m leftAlias before h
      cases h
  | cons name names ih =>
      intro m leftAlias before h
      cases hrelation : m.relation? name with
      | none =>
          rw [steps_cons_error (step_unknown hrelation)] at h
          cases h
          exact .unknown .here hrelation
      | some r =>
          have hfield : r.field = name := by simpa using List.find?_some hrelation
          cases htarget : catalog.mapping? r.target with
          | none =>
              rw [steps_cons_error (step_unmapped hrelation htarget), hfield] at h
              cases h
              exact .unmapped .here hrelation htarget
          | some target =>
              rw [steps, step_eq_ok hrelation htarget] at h
              cases hmore : catalog.steps target (Step.joinAlias before r.field)
                  (Step.joinAlias before r.field) path names with
              | error e' =>
                  simp only [bind, Except.bind, hmore] at h
                  cases h
                  exact (ih hmore).cons hrelation htarget
              | ok more =>
                  simp only [bind, Except.bind, hmore] at h
                  cases h

/-- Steps fail for what stops them, whatever the aliases. -/
theorem steps_eq_error_iff :
    catalog.steps m leftAlias before path names = .error e ↔ catalog.Stops m path names e := by
  constructor
  · exact stops_of_steps
  · intro h
    cases h with
    | unknown hreaches hnone =>
        apply steps_error_of_reaches hreaches
        intro leftAlias before
        exact steps_cons_error (step_unknown hnone)
    | @unmapped taken rest name here r hreaches hrelation hnone =>
        have hfield : r.field = name := by simpa using List.find?_some hrelation
        apply steps_error_of_reaches hreaches
        intro leftAlias before
        have hstep : catalog.step here name leftAlias before path
            = .error (.unmappedRelationType r.field r.target) := step_unmapped hrelation hnone
        rw [hfield] at hstep
        exact steps_cons_error hstep

end Catalog

-- ======================================================= the statement

/-- A field that no column holds is reported with the model. -/
theorem Mapping.columnRef_of_not_hasField {m : Mapping} {tableAlias outputPrefix field : String}
    (h : ¬ m.HasField field) :
    m.columnRef tableAlias outputPrefix field = .error (.unmappedField m.model field) := by
  have hnone : m.columnOfField? field = none := by
    apply List.find?_eq_none.2
    intro c hc hfield
    exact h ⟨c, hc, by simpa using hfield⟩
  simp only [Mapping.columnRef, Mapping.columnOfField, hnone, Except.map]

namespace Scope

variable {scope : Scope} {path : String} {e : CompileError}

/-- Why a path leads to no field: a segment before the last leads nowhere, or
the last one is no field of the mapping that the others reach. -/
inductive Misses (scope : Scope) (path : String) : CompileError → Prop where
  | segment {e : CompileError}
      (hstops : scope.catalog.Stops scope.mapping path (FieldPath.split path).1 e) :
      Misses scope path e
  | field {last : Mapping}
      (hreaches : scope.catalog.Reaches scope.mapping (FieldPath.split path).1 last)
      (hnone : ¬ last.HasField (FieldPath.split path).2) :
      Misses scope path (.unmappedField last.model (FieldPath.split path).2)

/-- What a path resolves to: the steps along its relations, and a column of
the mapping behind them, of the table that they end in. -/
structure Walked (scope : Scope) (path : String) (resolved : Resolved) : Prop where
  length : resolved.steps.length = (FieldPath.split path).1.length
  steps : ∀ (i : Nat) (name : String) (step : Step), (FieldPath.split path).1[i]? = some name →
    resolved.steps[i]? = some step →
    scope.catalog.StepAt scope.mapping scope.tableAlias scope.aliasPrefix
      ((FieldPath.split path).1.take i) (resolved.steps.take i) name step
  reached : scope.catalog.Reaches scope.mapping (FieldPath.split path).1 resolved.mapping
  column : ∃ c ∈ resolved.mapping.columns, c.field = (FieldPath.split path).2
    ∧ resolved.column
      = { table := Step.aliasBehind scope.tableAlias resolved.steps, name := c.name }

/-- Behind its steps a path is resolved by the mapping that they lead to. -/
theorem resolve_of_steps {steps : List Step}
    (h : scope.catalog.steps scope.mapping scope.tableAlias scope.aliasPrefix path
      (FieldPath.split path).1 = .ok steps) :
    scope.resolve path
      = ((Catalog.behind scope.mapping steps).columnRef (Step.aliasBehind scope.tableAlias steps) ""
          (FieldPath.split path).2).map fun column =>
        { steps, mapping := Catalog.behind scope.mapping steps, column } := by
  unfold resolve Catalog.behind Step.aliasBehind
  simp only [bind, Except.bind, h]
  cases ((steps.getLast?.map Step.target).getD scope.mapping).columnRef
    ((steps.getLast?.map Step.pathAlias).getD scope.tableAlias) "" (FieldPath.split path).2 <;> rfl

/-- Where its steps fail, so does the path. -/
theorem resolve_of_steps_error
    (h : scope.catalog.steps scope.mapping scope.tableAlias scope.aliasPrefix path
      (FieldPath.split path).1 = .error e) : scope.resolve path = .error e := by
  unfold resolve
  simp only [bind, Except.bind, h]

theorem walked_of_resolve {resolved : Resolved} (h : scope.resolve path = .ok resolved) :
    scope.Walked path resolved := by
  cases hsteps : scope.catalog.steps scope.mapping scope.tableAlias scope.aliasPrefix path
      (FieldPath.split path).1 with
  | error e =>
      rw [resolve_of_steps_error hsteps] at h
      cases h
  | ok steps =>
      rw [resolve_of_steps hsteps] at h
      obtain ⟨column, hcolumn, rfl⟩ := map_eq_ok.1 h
      obtain ⟨c, hc, rfl⟩ := map_eq_ok.1 hcolumn
      obtain ⟨hmem, hfield⟩ := Mapping.of_columnOfField hc
      obtain ⟨hlength, hat⟩ := Catalog.stepAt_of_steps hsteps
      exact ⟨hlength, hat, (Catalog.steps_decided.sound hsteps).1, c, hmem, hfield, rfl⟩

/-- A path that is not resolved fails for what it misses. -/
theorem misses_of_resolve (h : scope.resolve path = .error e) : scope.Misses path e := by
  cases hsteps : scope.catalog.steps scope.mapping scope.tableAlias scope.aliasPrefix path
      (FieldPath.split path).1 with
  | error e' =>
      rw [resolve_of_steps_error hsteps] at h
      cases h
      exact .segment (Catalog.stops_of_steps hsteps)
  | ok steps =>
      have hreaches := (Catalog.steps_decided.sound hsteps).1
      rw [resolve_of_steps hsteps] at h
      by_cases hfield : (Catalog.behind scope.mapping steps).HasField (FieldPath.split path).2
      · obtain ⟨ref, href⟩ := Mapping.columnRef_decided.complete hfield
        rw [href] at h
        cases h
      · rw [Mapping.columnRef_of_not_hasField hfield] at h
        cases h
        exact .field hreaches hfield

/-- What a path misses is what it fails for. -/
theorem resolve_of_misses (h : scope.Misses path e) : scope.resolve path = .error e := by
  cases h with
  | segment hstops => exact resolve_of_steps_error (Catalog.steps_eq_error_iff.2 hstops)
  | @field last hreaches hnone =>
      obtain ⟨steps, hsteps⟩ : ∃ steps, scope.catalog.steps scope.mapping scope.tableAlias
          scope.aliasPrefix path (FieldPath.split path).1 = .ok steps :=
        Catalog.steps_decided.complete ⟨last, hreaches⟩
      have hlast : last = Catalog.behind scope.mapping steps :=
        hreaches.unique (Catalog.steps_decided.sound hsteps).1
      rw [resolve_of_steps hsteps, ← hlast, Mapping.columnRef_of_not_hasField hnone]
      rfl

/-- A path resolves exactly if each segment before the last is a relation of
the mapping reached, its target is registered, and the last one is a field of
the last mapping; it is then walked as `Walked` says. It fails exactly for
what it misses first. Its segments are what stands between its points. -/
theorem resolves_step_by_step (scope : Scope) (path : String) :
    ((∃ resolved, scope.resolve path = .ok resolved)
      ↔ ∃ last, scope.catalog.Reaches scope.mapping (FieldPath.split path).1 last
        ∧ last.HasField (FieldPath.split path).2)
    ∧ (∀ resolved, scope.resolve path = .ok resolved → scope.Walked path resolved)
    ∧ (∀ e, scope.resolve path = .error e ↔ scope.Misses path e)
    ∧ ['.'].intercalate (((FieldPath.split path).1 ++ [(FieldPath.split path).2]).map
        String.toList) = path.toList
    ∧ ∀ segment ∈ (FieldPath.split path).1 ++ [(FieldPath.split path).2],
        '.' ∉ segment.toList := by
  refine ⟨resolve_decided.iff, fun resolved h => walked_of_resolve h, fun e => ?_, ?_, ?_⟩
  · exact ⟨misses_of_resolve, resolve_of_misses⟩
  · rw [← FieldPath.segments_eq_split, FieldPath.intercalate_segments]
  · intro segment hsegment
    have hmem : segment.toList ∈ FieldPath.segments path.toList := by
      rw [FieldPath.segments_eq_split]
      exact List.mem_map_of_mem hsegment
    exact FieldPath.not_point_mem_segments hmem

/-- Two relations on the way to a column, under a prefix. -/
theorem resolves_sponsor_of_sponsored : ∃ resolved,
    let scope : Scope :=
      { catalog := memberCatalog, mapping := memberMapping, tableAlias := "m",
        aliasPrefix := "sub" }
    scope.resolve "sponsored.sponsor.number" = .ok resolved
      ∧ memberMapping ∈ memberCatalog.mappings
      ∧ resolved.steps.map Step.leftAlias = ["m", "sub_sponsored"]
      ∧ resolved.steps.map Step.pathAlias = ["sub_sponsored", "sub_sponsored_sponsor"]
      ∧ scope.Walked "sponsored.sponsor.number" resolved := by
  obtain ⟨-, hwalked, -⟩ := resolves_step_by_step
    { catalog := memberCatalog, mapping := memberMapping, tableAlias := "m", aliasPrefix := "sub" }
    "sponsored.sponsor.number"
  exact ⟨_, rfl, List.mem_singleton_self _, by decide, by decide, hwalked _ rfl⟩

end Scope

end RecordQuery
