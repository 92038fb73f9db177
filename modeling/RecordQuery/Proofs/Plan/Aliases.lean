/-
The aliases of a plan. A request uses the paths of its includes, and the
beginnings of every path that its filter and order follow. Each brings a
join under its alias, and a plan has one join for each: it is built only
if no two different paths have the same alias, and a collision is
reported only if two have.
-/
import RecordQuery.Proofs.Path.Compiled
import RecordQuery.Proofs.Plan.Use

namespace RecordQuery

open RelationPath

-- ============================================================ used paths

mutual

/-- An included relation and those below it, parents first, each with the
path that leads to it. -/
def IncludeTree.nested (before : RelationPath) (name : String) :
    IncludeTree → List (RelationPath × IncludeTree)
  | ⟨fields, relations, filter, order⟩ =>
    (before ++ [name], ⟨fields, relations, filter, order⟩) ::
      IncludeTree.nestedEach (before ++ [name]) relations
termination_by structural inc => inc

/-- Included relations and those below them, one after the other. -/
def IncludeTree.nestedEach (before : RelationPath) :
    List (String × IncludeTree) → List (RelationPath × IncludeTree)
  | [] => []
  | (name, inc) :: rest => inc.nested before name ++ IncludeTree.nestedEach before rest
termination_by structural relations => relations

end

namespace IncludeTree

/-- The paths to the included relations. -/
def includedPaths (inc : IncludeTree) : List RelationPath :=
  (nestedEach [] inc.relations).map Prod.fst

/-- The fields that are written in the filter and the order of a request. -/
def writtenFields (inc : IncludeTree) : List String :=
  (inc.filter.map Clause.fields).getD [] ++ inc.order.flatMap fun term => term.element.fields

/-- The fields of the filter and the order of a request, those that are
named without being written included: the operands of a membership in an
empty list. -/
def namedFields (inc : IncludeTree) : List String :=
  (inc.filter.map Clause.namedFields).getD [] ++ inc.order.flatMap fun term => term.element.fields

/-- The paths that a request uses: those to included relations, and the
beginnings of all that its filter and order follow. -/
def usedPaths (inc : IncludeTree) : List RelationPath :=
  inc.includedPaths ++ inc.writtenFields.flatMap FieldPath.relationPaths

/-- The paths that a request names, whether or not they are written. -/
def namedPaths (inc : IncludeTree) : List RelationPath :=
  inc.includedPaths ++ inc.namedFields.flatMap FieldPath.relationPaths

variable {inc : IncludeTree} {field : String}

theorem mem_writtenFields_of_order {term : OrderTerm} (hterm : term ∈ inc.order)
    (hfield : field ∈ term.element.fields) : field ∈ inc.writtenFields :=
  List.mem_append_right _ (List.mem_flatMap.2 ⟨term, hterm, hfield⟩)

theorem mem_usedPaths_of_field {path : RelationPath} (hfield : field ∈ inc.writtenFields)
    (hpath : path ∈ FieldPath.relationPaths field) : path ∈ inc.usedPaths :=
  List.mem_append_right _ (List.mem_flatMap.2 ⟨field, hfield, hpath⟩)

/-- What named fields follow is named. -/
theorem flatMap_subset_namedPaths {fields : List String} (h : fields ⊆ inc.namedFields) :
    fields.flatMap FieldPath.relationPaths ⊆ inc.namedPaths := by
  intro path hpath
  obtain ⟨field, hfield, hpath⟩ := List.mem_flatMap.1 hpath
  exact List.mem_append_right _ (List.mem_flatMap.2 ⟨field, h hfield, hpath⟩)

/-- What is written is named. -/
theorem usedPaths_subset (inc : IncludeTree) : inc.usedPaths ⊆ inc.namedPaths := by
  have hfilter : (inc.filter.map Clause.fields).getD []
      ⊆ (inc.filter.map Clause.namedFields).getD [] := by
    cases inc.filter with
    | none => exact List.Subset.refl _
    | some clause => exact Clause.atFields_subset _ clause
  have hfields : inc.writtenFields ⊆ inc.namedFields :=
    List.append_subset_of_subset_of_subset (List.subset_append_of_subset_left _ hfilter)
      (List.subset_append_right _ _)
  exact List.append_subset_of_subset_of_subset (List.subset_append_left _ _)
    (flatMap_subset_namedPaths hfields)

end IncludeTree

-- ============================================================= the walk

variable {dialect : Dialect} {scope : Scope} {named : List RelationPath}

theorem Mapping.fieldStructure_settled {m : Mapping} {Q : Prop} {tableAlias : String}
    {fields : List String} :
    Settled (m.fieldStructure tableAlias fields) (fun _ => True) Q := by
  unfold Mapping.fieldStructure
  split
  · exact .pure trivial
  · exact (Settled.mapM (P := fun _ _ => True) fun _ _ =>
      Mapping.columnOfField_settled.map fun _ _ => trivial).imp (fun _ _ _ => trivial) id

/-- The filter and order of an included relation collide with nothing. -/
theorem Clause.compile_nested {clause : Clause} {relation : String} {Q : Prop}
    (hbare : scope.aliasPrefix = "") (hrelation : scope.relation = some relation) :
    Settled (clause.compile dialect scope) (fun _ => True) Q := by
  have hnone : clause.atNamed (fun _ => []) ⊆ ([] : List RelationPath) := by
    rw [Clause.atNamed_nil]
    exact List.Subset.refl _
  refine (Clause.compile_settled hbare (Scope.fieldsBring_nested hrelation) hnone).imp
    (fun _ _ _ => trivial) ?_
  rintro (⟨p, hp, -⟩ | ⟨p, hp, -⟩) <;> cases hp

theorem OrderTerm.compile_nested {term : OrderTerm} {relation : String} {Q : Prop}
    (hbare : scope.aliasPrefix = "") (hrelation : scope.relation = some relation) :
    Settled (term.compile dialect scope) (fun _ => True) Q := by
  have helement : Settled ((Clause.truthy term.element).compile dialect scope) (fun _ => True) Q :=
    Clause.compile_nested hbare hrelation
  exact helement.bind fun _ _ _ => .pure trivial

/-- Entering a relation adds the join of its path. -/
theorem Walk.enter_settled (hbare : scope.aliasPrefix = "") {walk : Walk} {step : Step}
    {path : RelationPath} {a : List RelationPath} {fields : List String}
    {filter : Option Clause} {order : List OrderTerm} (hleads : scope.Leads path step)
    (hwalk : scope.Joined dialect walk.joins a) (hnamed : a ++ [path] ⊆ named) :
    Settled (walk.enter dialect scope.catalog step fields filter order)
      (fun done => scope.Joined dialect done.2.joins (a ++ [path]))
      (Clash scope.tableAlias named) := by
  unfold Walk.enter
  refine (Settled.optionMapM (P := fun _ _ => True) trivial fun _ _ =>
    (Clause.compile_nested rfl rfl)).bind fun filter' hfilter _ => ?_
  have hbrings : scope.Brings dialect path (step.join dialect filter') := by
    refine ⟨step, filter', hleads, rfl, fun f hf => ?_⟩
    obtain ⟨clause, -, hclause⟩ := exists_of_option_mapM hfilter hf
    exact ⟨clause, hclause⟩
  refine (Settled.mapM (P := fun _ _ => True) fun _ _ =>
    (OrderTerm.compile_nested rfl rfl)).bind fun orders _ _ => ?_
  refine (hwalk.insert hbare hbrings hnamed).bind fun joins _ hjoins => ?_
  exact Mapping.fieldStructure_settled.bind fun _ _ _ => .pure hjoins

mutual

/-- The walk over an included relation adds the joins of its path and of
those below it. -/
theorem IncludeTree.layout_settled (hbare : scope.aliasPrefix = "") : ∀ {inc : IncludeTree}
    {here : Scope} {before : RelationPath} {name : String} {walk : Walk} {a : List RelationPath},
    scope.reach before = .ok here → here.catalog = scope.catalog →
    scope.Joined dialect walk.joins a →
    a ++ (inc.nested before name).map Prod.fst ⊆ named →
    Settled (inc.layout dialect scope.catalog here.mapping here.tableAlias here.aliasPrefix walk
        name)
      (fun done => scope.Joined dialect done.2.joins
        (a ++ (inc.nested before name).map Prod.fst))
      (Clash scope.tableAlias named)
  | ⟨fields, relations, filter, order⟩, here, before, name, walk, a, hreach, hcatalog, hwalk,
    hnamed => by
      unfold IncludeTree.layout
      rw [IncludeTree.nested, List.map_cons, List.append_cons] at hnamed ⊢
      refine Catalog.step_settled.bind fun step hstep _ => ?_
      obtain ⟨hleads, hnext⟩ := Scope.reach_step hreach hcatalog hstep
      refine (Walk.enter_settled hbare hleads hwalk
        fun p hp => hnamed (List.mem_append_left _ hp)).bind fun entered _ hentered => ?_
      exact (IncludeTree.layoutEach_settled hbare hnext hcatalog hentered hnamed).bind
        fun done _ hdone => .pure hdone
termination_by structural inc => inc

/-- The walk over included relations adds the joins of all their paths. -/
theorem IncludeTree.layoutEach_settled (hbare : scope.aliasPrefix = "") :
    ∀ {relations : List (String × IncludeTree)} {here : Scope} {before : RelationPath}
      {walk : Walk} {a : List RelationPath},
    scope.reach before = .ok here → here.catalog = scope.catalog →
    scope.Joined dialect walk.joins a →
    a ++ (IncludeTree.nestedEach before relations).map Prod.fst ⊆ named →
    Settled (IncludeTree.layoutEach dialect scope.catalog here.mapping here.tableAlias
        here.aliasPrefix walk relations)
      (fun done => scope.Joined dialect done.2.joins
        (a ++ (IncludeTree.nestedEach before relations).map Prod.fst))
      (Clash scope.tableAlias named)
  | [], here, before, walk, a, _, _, hwalk, _ => by
      rw [IncludeTree.nestedEach, List.map_nil, List.append_nil]
      exact .pure hwalk
  | (name, inc) :: rest, here, before, walk, a, hreach, hcatalog, hwalk, hnamed => by
      rw [IncludeTree.nestedEach, List.map_append, ← List.append_assoc] at hnamed ⊢
      refine (IncludeTree.layout_settled hbare hreach hcatalog hwalk
        fun p hp => hnamed (List.mem_append_left _ hp)).bind fun between _ hbetween => ?_
      exact (IncludeTree.layoutEach_settled hbare hreach hcatalog hbetween hnamed).bind
        fun done _ hdone => .pure hdone
termination_by structural relations => relations

end

/-- Compiled terms, one after the other, add the joins of the fields of
each. -/
theorem Walk.orderBy_settled {paths : String → List RelationPath}
    (hbare : scope.aliasPrefix = "")
    (hfields : scope.FieldsBring dialect paths) {terms : List OrderTerm} :
    ∀ {joins : Joins} {a : List RelationPath}, scope.Joined dialect joins a →
      (a ++ terms.flatMap fun term => term.element.atFields paths) ⊆ named →
      Settled (Walk.orderBy dialect scope joins terms)
        (fun done => scope.Joined dialect done.2
          (a ++ terms.flatMap fun term => term.element.atFields paths))
        (Clash scope.tableAlias named) := by
  induction terms with
  | nil =>
      intro joins a hjoins _
      rw [List.flatMap_nil, List.append_nil]
      exact .pure hjoins
  | cons term rest ih =>
      intro joins a hjoins hnamed
      rw [List.flatMap_cons, ← List.append_assoc] at hnamed ⊢
      have hboth : a ++ term.element.atFields paths ⊆ named :=
        fun p hp => hnamed (List.mem_append_left _ hp)
      refine (OrderTerm.compile_settled hbare hfields
        fun p hp => hboth (List.mem_append_right _ hp)).bind fun f _ hf => ?_
      refine (hjoins.merge hbare hf hboth).bind fun more _ hmore => ?_
      exact (ih hmore hnamed).bind fun done _ hdone => .pure hdone

-- ============================================================= grounded

mutual

/-- Included relations are reached one after the other. -/
theorem IncludeTree.grounded_nested : ∀ {inc : IncludeTree} {paths : List RelationPath}
    {before : RelationPath} {name : String}, Grounded paths → (before = [] ∨ before ∈ paths) →
    Grounded (paths ++ (inc.nested before name).map Prod.fst)
  | ⟨fields, relations, filter, order⟩, paths, before, name, hpaths, hbefore => by
      rw [IncludeTree.nested, List.map_cons, List.append_cons]
      exact IncludeTree.grounded_nestedEach (hpaths.snoc_child hbefore name) (Or.inr (by simp))
termination_by structural inc => inc

theorem IncludeTree.grounded_nestedEach : ∀ {relations : List (String × IncludeTree)}
    {paths : List RelationPath} {before : RelationPath}, Grounded paths →
    (before = [] ∨ before ∈ paths) →
    Grounded (paths ++ (IncludeTree.nestedEach before relations).map Prod.fst)
  | [], paths, before, hpaths, _ => by
      rw [IncludeTree.nestedEach, List.map_nil, List.append_nil]
      exact hpaths
  | (name, inc) :: rest, paths, before, hpaths, hbefore => by
      rw [IncludeTree.nestedEach, List.map_append, ← List.append_assoc]
      exact IncludeTree.grounded_nestedEach (IncludeTree.grounded_nested hpaths hbefore)
        (hbefore.imp_right (List.mem_append_left _))
termination_by structural relations => relations

end

/-- What a request uses is reached one after the other. -/
theorem IncludeTree.grounded_usedPaths (inc : IncludeTree) : Grounded inc.usedPaths := by
  refine .append ?_ (.flatMap fun field => .prefixes _)
  have hincluded : Grounded ([] ++ inc.includedPaths) :=
    IncludeTree.grounded_nestedEach .nil (Or.inl rfl)
  rwa [List.nil_append] at hincluded

-- ================================================================ plans

section Plans

variable {catalog : Catalog} {m : Mapping} {inc : IncludeTree} {tableAlias : String} {offset : Nat}
  {limit : Option Nat} {plan : Plan}

/-- A plan has the joins of the paths used, none of which has the alias of
the root, unless paths clash. -/
theorem Plan.build_settled :
    Settled (Plan.build catalog dialect m inc tableAlias offset limit)
      (fun plan =>
        (IncludeTree.rootScope catalog m tableAlias).Joined dialect plan.joins inc.usedPaths
        ∧ ∀ p ∈ inc.usedPaths, Casing.fold p.tableAlias ≠ Casing.fold tableAlias)
      (Clash tableAlias inc.namedPaths) := by
  set scope := IncludeTree.rootScope catalog m tableAlias with hscope
  have hroot : scope.FieldsBring dialect FieldPath.relationPaths :=
    Scope.fieldsBring_root rfl rfl
  have horder : (inc.order.flatMap fun term => term.element.atFields FieldPath.relationPaths)
      = (inc.order.flatMap fun term => term.element.fields).flatMap FieldPath.relationPaths := by
    rw [List.flatMap_assoc]
    exact List.flatMap_congr fun term _ => Element.atFields_eq_flatMap _ term.element
  have hused : inc.usedPaths = inc.includedPaths
      ++ ((inc.filter.map Clause.fields).getD []).flatMap FieldPath.relationPaths
      ++ inc.order.flatMap fun term => term.element.atFields FieldPath.relationPaths := by
    rw [horder, IncludeTree.usedPaths, IncludeTree.writtenFields, List.flatMap_append,
      List.append_assoc]
  have hnamed := inc.usedPaths_subset
  rw [hused] at hnamed ⊢
  refine Mapping.fieldStructure_settled.bind fun fields _ _ => ?_
  have hincluded : [] ++ inc.includedPaths ⊆ inc.namedPaths := List.subset_append_left _ _
  refine (IncludeTree.layoutEach_settled rfl (show scope.reach [] = .ok scope from rfl) rfl .nil
    hincluded).bind fun laid _ hlaid => ?_
  rw [List.nil_append] at hlaid
  -- the filter's joins come behind those of the walk
  refine (Settled.optionMapM (P := fun clause? f? => scope.Joined dialect
    ((f?.map Fragment.joins).getD [])
    (((clause?.map Clause.fields).getD []).flatMap FieldPath.relationPaths)) .nil
    fun clause hclause => ?_).bind fun condition _ hcondition => ?_
  · rw [Option.map_some, Option.getD_some, ← Clause.atFields_eq_flatMap]
    refine Clause.compile_settled rfl hroot ?_
    rw [Clause.atNamed_eq_flatMap]
    have hfields : clause.namedFields ⊆ inc.namedFields := by
      rw [IncludeTree.namedFields, hclause]
      exact List.subset_append_left _ _
    exact IncludeTree.flatMap_subset_namedPaths hfields
  refine (hlaid.merge rfl hcondition fun p hp =>
    hnamed (List.mem_append_left _ hp)).bind fun joins _ hjoins => ?_
  refine (Walk.orderBy_settled rfl hroot hjoins hnamed).bind fun ordered _ hordered => ?_
  exact (hordered.apartFrom rfl hnamed).bind fun _ _ hapart => .pure ⟨hordered, hapart⟩

/-- The joins of a plan: one for each path used, in the order of first
use. -/
theorem Plan.joins_of_build
    (h : Plan.build catalog dialect m inc tableAlias offset limit = .ok plan) :
    ∃ kept : List (RelationPath × Join), kept.map Prod.fst = inc.usedPaths.eraseDups
      ∧ kept.map Prod.snd = plan.joins
      ∧ ∀ b ∈ kept, (IncludeTree.rootScope catalog m tableAlias).Brings dialect b.1 b.2 := by
  obtain ⟨hjoined, hapart⟩ := Plan.build_settled.ok h
  exact hjoined.kept rfl fun p hp q hq => hjoined.eq_of_tableAlias rfl inc.grounded_usedPaths
    hapart hp hq

/-- In a plan an alias identifies one path. The paths used have different
aliases, none of them that of the root, and the plan has one join for
each. Where there is no plan because aliases collide, two different paths
that the request names have one alias, or one has the alias of the
root. -/
theorem Plan.alias_identifies_path (catalog : Catalog) (dialect : Dialect) (m : Mapping)
    (inc : IncludeTree) (tableAlias : String) (offset : Nat) (limit : Option Nat) :
    (∀ plan, Plan.build catalog dialect m inc tableAlias offset limit = .ok plan →
      (∀ p ∈ inc.usedPaths, ∀ q ∈ inc.usedPaths,
        Casing.same p.tableAlias q.tableAlias → p = q)
      ∧ (∀ p ∈ inc.usedPaths, ¬ Casing.same p.tableAlias tableAlias)
      ∧ plan.joins.map Join.tableAlias = inc.usedPaths.eraseDups.map RelationPath.tableAlias)
    ∧ ∀ name first second, Plan.build catalog dialect m inc tableAlias offset limit
        = .error (.aliasCollision name first second) →
      (∃ p ∈ inc.namedPaths, ∃ q ∈ inc.namedPaths,
        p ≠ q ∧ Casing.same p.tableAlias q.tableAlias)
      ∨ ∃ p ∈ inc.namedPaths, Casing.same p.tableAlias tableAlias := by
  constructor
  · intro plan h
    obtain ⟨hjoined, hapart⟩ := Plan.build_settled.ok h
    obtain ⟨kept, hpaths, hjoins, hbrings⟩ := Plan.joins_of_build h
    refine ⟨fun p hp q hq halias => ?_, fun p hp halias => ?_, ?_⟩
    · exact hjoined.eq_of_tableAlias rfl inc.grounded_usedPaths hapart hp hq
        (Casing.same_iff.1 halias)
    · exact hapart p hp (Casing.same_iff.1 halias)
    · rw [← hpaths, ← hjoins, List.map_map, List.map_map]
      exact List.map_congr_left fun b hb => ((hbrings b hb).names rfl).1
  · intro name first second h
    exact Plan.build_settled.collision h

end Plans

/-- A mapping of which one relation is named as two steps of another
are. -/
def stopMapping : Mapping where
  model := "Stop"
  table := "stops"
  columns :=
    [{ name := "id", field := "id", type := .int64 },
     { name := "next_id", field := "nextId", type := .optional .int64 }]
  relations :=
    [{ field := "next", kind := .one, target := "Stop", targetTable := "stops"
       pairs := [⟨"next_id", "id"⟩] },
     { field := "next_next", kind := .many, target := "Stop", targetTable := "stops"
       pairs := [⟨"id", "next_id"⟩] }]
  primaryKey := ["id"]

def stopCatalog : Catalog := ⟨[stopMapping], by decide⟩

/-- One path included, filtered by and sorted by. -/
def stopInclude : Include where
  tree :=
    { relations := [("next", { relations := [("next", {})] })]
      filter := some (.truthy (.field "next.next.id"))
      order := [⟨.field "next.id", .ascending⟩] }

/-- A path used many times has one join; two paths of one alias collide. -/
theorem Plan.alias_of_stops :
    (∃ plan, Plan.build stopCatalog Flavor.sqlite.dialect stopMapping stopInclude "stops" 0 none
        = .ok plan
      ∧ plan.joins.map Join.tableAlias = ["next", "next_next"]
      ∧ ∀ p ∈ stopInclude.tree.usedPaths, ∀ q ∈ stopInclude.tree.usedPaths,
        Casing.same p.tableAlias q.tableAlias → p = q)
    ∧ ∃ name first second,
      Plan.build stopCatalog Flavor.sqlite.dialect stopMapping
          (stopInclude.addRelation "next_next" {}) "stops" 0 none
        = .error (.aliasCollision name first second)
      ∧ ((∃ p ∈ (stopInclude.addRelation "next_next" {}).tree.namedPaths,
          ∃ q ∈ (stopInclude.addRelation "next_next" {}).tree.namedPaths,
            p ≠ q ∧ Casing.same p.tableAlias q.tableAlias)
        ∨ ∃ p ∈ (stopInclude.addRelation "next_next" {}).tree.namedPaths,
          Casing.same p.tableAlias "stops") := by
  refine ⟨⟨_, rfl, by decide, ?_⟩, ⟨_, _, _, rfl, ?_⟩⟩
  · exact ((Plan.alias_identifies_path stopCatalog Flavor.sqlite.dialect stopMapping stopInclude
      "stops" 0 none).1 _ rfl).1
  · exact (Plan.alias_identifies_path stopCatalog Flavor.sqlite.dialect stopMapping
      (stopInclude.addRelation "next_next" {}) "stops" 0 none).2 _ _ _ rfl

end RecordQuery
