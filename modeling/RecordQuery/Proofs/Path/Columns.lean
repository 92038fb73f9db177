/-
Fields known by their columns. Of the path of a field a statement keeps the
column it leads to, under the alias of its table, and the joins on the way.
That is enough to know the path again: among the joins of one statement an
alias is that of one path of relations, in the table at its end a column's
name is that of one field, and relations and field together are the path.
-/
import RecordQuery.Proofs.Path.Fields
import RecordQuery.Proofs.Path.Gathered
import RecordQuery.Proofs.Schema.Sealed

namespace RecordQuery

-- =============================================================== paths

namespace FieldPath

theorem segments_ne_nil (cs : List Char) : segments cs ≠ [] := by
  cases cs with
  | nil => exact List.cons_ne_nil _ _
  | cons c cs =>
      unfold segments
      split
      · exact List.cons_ne_nil _ _
      · split <;> exact List.cons_ne_nil _ _

/-- The segments of a path, with points between them, are the path. -/
theorem intercalate_segments (cs : List Char) : ['.'].intercalate (segments cs) = cs := by
  induction cs with
  | nil => rfl
  | cons c cs ih =>
      obtain ⟨first, more, hsegments⟩ := List.exists_cons_of_ne_nil (segments_ne_nil cs)
      rw [hsegments] at ih
      by_cases hc : c = '.'
      · rw [segments, if_pos hc, hsegments, List.intercalate_cons_cons, ih, hc]
        rfl
      · rw [segments, if_neg hc, hsegments]
        cases more with
        | nil =>
            rw [List.intercalate_singleton] at ih ⊢
            rw [ih]
        | cons second more =>
            rw [List.intercalate_cons_cons] at ih ⊢
            rw [List.cons_append, List.cons_append, ih]

/-- The segments of a path are the relations to follow and the field at the
end. -/
theorem segments_eq_split (path : String) :
    segments path.toList = ((split path).1 ++ [(split path).2]).map String.toList := by
  have hne : (segments path.toList).map String.ofList ≠ [] := by
    rw [ne_eq, List.map_eq_nil_iff]
    exact segments_ne_nil _
  have hparts : (split path).1 ++ [(split path).2] = (segments path.toList).map String.ofList := by
    rw [split, List.getLastD_eq_getLast?, List.getLast?_eq_some_getLast hne]
    exact List.dropLast_append_getLast hne
  rw [hparts, List.map_map]
  simp [Function.comp_def]

/-- A path is known by the relations to follow and the field at the end. -/
theorem split_inj {p q : String} (h : split p = split q) : p = q := by
  rw [← String.toList_inj, ← intercalate_segments p.toList, segments_eq_split, h,
    ← segments_eq_split, intercalate_segments]

end FieldPath

-- ============================================================= columns

/-- Where columns have different names, a column is that of one field. -/
theorem Mapping.field_of_columnRef {m : Mapping} (hm : (m.columns.map Column.name).Nodup)
    {tableAlias field field' : String} {ref ref' : ColumnRef}
    (h : m.columnRef tableAlias "" field = .ok ref)
    (h' : m.columnRef tableAlias "" field' = .ok ref') (hname : ref.name = ref'.name) :
    field = field' := by
  obtain ⟨c, hc, rfl⟩ := map_eq_ok.1 h
  obtain ⟨c', hc', rfl⟩ := map_eq_ok.1 h'
  obtain ⟨hmem, rfl⟩ := of_columnOfField hc
  obtain ⟨hmem', rfl⟩ := of_columnOfField hc'
  rw [List.inj_on_of_nodup_map hm hmem hmem' hname]

namespace Scope

variable {dialect : Dialect} {scope : Scope} {joins : Joins} {paths paths' : List RelationPath}

/-- A step leads to a mapping of the catalog. -/
theorem Leads.mem_mappings {path : RelationPath} {last : Step} (hbare : scope.aliasPrefix = "")
    (h : scope.Leads path last) : last.target ∈ scope.catalog.mappings := by
  obtain ⟨before, relation, here, -, hreach, hstep⟩ := h
  obtain ⟨-, -, htarget⟩ := Catalog.of_step hstep
  rw [(aliases_of_reach hbare hreach).1] at htarget
  exact (Catalog.mem_of_mapping? htarget).1

/-- Paths that have the same joins agree with each other. -/
theorem Joined.append (h : scope.Joined dialect joins paths)
    (h' : scope.Joined dialect joins paths') :
    ∃ all, scope.Joined dialect all (paths ++ paths') := by
  obtain ⟨brought, rfl, hbrings, hagree, hjoins⟩ := h
  obtain ⟨brought', rfl, hbrings', hagree', hjoins'⟩ := h'
  refine ⟨_, brought ++ brought', List.map_append, List.forall_mem_append.2 ⟨hbrings, hbrings'⟩,
    ?_, rfl⟩
  rw [List.map_append]
  refine hagree'.append_firsts (hagree.subset ?_)
  -- the second joins are those kept of the first, so nothing is added to these
  rw [← hjoins', hjoins]
  exact List.append_subset_of_subset_of_subset (List.Subset.refl _) fun _ => mem_of_mem_firstsBy

/-- Fields that are written as columns, each as another one. -/
structure Distinct (dialect : Dialect) (scope : Scope) (fields : List String) : Prop where
  reads : ∀ p ∈ fields, ∃ ref, scope.Reads dialect p ref
  field : ∀ {p q : String} {ref ref' : ColumnRef}, p ∈ fields → q ∈ fields →
    scope.Reads dialect p ref → scope.Reads dialect q ref' → ref.table = ref'.table →
    ref.name = ref'.name → p = q

/-- Fields that are compiled, and whose relations have joins of one
statement, are written as different columns. -/
theorem Joined.distinct (hbare : scope.aliasPrefix = "")
    (hmapping : scope.mapping ∈ scope.catalog.mappings) {fields : List String}
    (hjoined : scope.Joined dialect joins (fields.flatMap FieldPath.relationPaths))
    (hcompiled : ∀ field ∈ fields, ∃ f, scope.field dialect field = .ok f) :
    scope.Distinct dialect fields := by
  refine ⟨fun p hp => ?_, fun {p q ref ref'} hp hq hreads hreads' htable hname => ?_⟩
  · obtain ⟨f, hf⟩ := hcompiled p hp
    exact reads_of_field hf
  · have hused : ∀ {field last}, field ∈ fields → scope.Leads (FieldPath.split field).1 last →
        (FieldPath.split field).1 ∈ fields.flatMap FieldPath.relationPaths :=
      fun hfield hleads => List.mem_flatMap.2 ⟨_, hfield, hleads.mem_inits_tail⟩
    have hapart : ∀ path ∈ fields.flatMap FieldPath.relationPaths,
        Casing.fold path.tableAlias ≠ Casing.fold scope.tableAlias := by
      intro path hpath
      obtain ⟨field, hfield, hpath⟩ := List.mem_flatMap.1 hpath
      obtain ⟨f, hf⟩ := hcompiled field hfield
      exact (apart_of_field hbare hf).2 path hpath
    rcases hreads.columnRef with ⟨hown, hcolumn⟩ | ⟨last, hleads, hcolumn⟩ <;>
      rcases hreads'.columnRef with ⟨hown', hcolumn'⟩ | ⟨last', hleads', hcolumn'⟩
    · have hfield := Mapping.field_of_columnRef (Catalog.nodup_names hmapping) hcolumn hcolumn'
        hname
      exact FieldPath.split_inj (Prod.ext (hown.trans hown'.symm) hfield)
    · rw [(Mapping.of_columnRef hcolumn).1, (Mapping.of_columnRef hcolumn').1,
        (hleads'.aliases hbare).1] at htable
      exact absurd (congrArg Casing.fold htable.symm) (hapart _ (hused hq hleads'))
    · rw [(Mapping.of_columnRef hcolumn).1, (Mapping.of_columnRef hcolumn').1,
        (hleads.aliases hbare).1] at htable
      exact absurd (congrArg Casing.fold htable) (hapart _ (hused hp hleads))
    · have hpath : (FieldPath.split p).1 = (FieldPath.split q).1 := by
        refine hjoined.eq_of_tableAlias hbare (.flatMap fun field => .prefixes _) hapart
          (hused hp hleads) (hused hq hleads') (congrArg Casing.fold ?_)
        rw [← (hleads.aliases hbare).1, ← (hleads'.aliases hbare).1,
          ← (Mapping.of_columnRef hcolumn).1, ← (Mapping.of_columnRef hcolumn').1, htable]
      rw [← hpath] at hleads'
      cases hleads.unique hleads'
      have hfield := Mapping.field_of_columnRef (Catalog.nodup_names (hleads.mem_mappings hbare))
        hcolumn hcolumn' hname
      exact FieldPath.split_inj (Prod.ext hpath hfield)

end Scope

-- ============================================================= elements

/-- A compiled element has the joins of the relations that its fields
follow. -/
theorem Element.joined_of_compile {dialect : Dialect} {scope : Scope} {element : Element}
    {f : Fragment} (hbare : scope.aliasPrefix = "") (h : element.compile dialect scope = .ok f) :
    scope.Joined dialect f.joins (element.fields.flatMap FieldPath.relationPaths) := by
  cases hrelation : scope.relation with
  | none =>
      rw [← Element.atFields_eq_flatMap]
      exact (Element.compile_settled hbare (Scope.fieldsBring_root hbare hrelation)
        (List.Subset.refl _)).ok h
  | some relation =>
      have hnone : element.fields.flatMap FieldPath.relationPaths
          = element.fields.flatMap fun _ => [] :=
        List.flatMap_congr fun field hfield => by
          obtain ⟨g, hg⟩ := Element.field_of_compile h field hfield
          rw [FieldPath.relationPaths, Scope.split_of_nested hrelation hg]
          rfl
      rw [hnone, ← Element.atFields_eq_flatMap]
      exact (Element.compile_settled hbare (Scope.fieldsBring_nested hrelation)
        (List.Subset.refl _)).ok h

/-- The fields of two compiled elements that have the same joins are written
as different columns. -/
theorem Element.distinct_of_compile {dialect : Dialect} {scope : Scope} {left right : Element}
    {f g : Fragment} (hbare : scope.aliasPrefix = "")
    (hmapping : scope.mapping ∈ scope.catalog.mappings)
    (hf : left.compile dialect scope = .ok f) (hg : right.compile dialect scope = .ok g)
    (hjoins : f.joins = g.joins) : scope.Distinct dialect (left.fields ++ right.fields) := by
  have hright := Element.joined_of_compile hbare hg
  rw [← hjoins] at hright
  obtain ⟨all, hjoined⟩ := (Element.joined_of_compile hbare hf).append hright
  rw [← List.flatMap_append] at hjoined
  exact hjoined.distinct hbare hmapping
    (List.forall_mem_append.2 ⟨Element.field_of_compile hf, Element.field_of_compile hg⟩)

end RecordQuery
