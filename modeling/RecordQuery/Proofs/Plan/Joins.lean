/-
The joins of a plan, one by one. A request takes the paths of its includes,
parents before what is below them, each with the include's filter; then the
paths of the fields written in its filter, and those of its order. A plan
has one join for each path, in the order in which the paths are first
taken, and with the filter that comes with the first: as includes come
first, a join has a filter exactly if its path is included with one.

So a path that is included without a filter and a field that follows it
have the same joins, while a field that follows a path included with a
filter is looked up among the related records that the filter leaves.
-/
import RecordQuery.Proofs.Path.Gathered
import RecordQuery.Proofs.Plan.InScope

namespace RecordQuery

open RelationPath

-- ========================================================== paths taken

namespace IncludeTree

variable {inc : IncludeTree} {path : RelationPath}

/-- The paths that a request takes, includes first, each as often as it is
taken. -/
def taken (inc : IncludeTree) : List TakenPath :=
  ((nestedEach [] inc.relations).map fun entry => (entry.1, entry.2.filter)) ++
    inc.writtenFields.flatMap FieldPath.taken

/-- The filter of the relation included at a path, if one is included there
and has a filter. -/
def filterAt (inc : IncludeTree) (path : RelationPath) : Option Clause :=
  ((nestedEach [] inc.relations).find? fun entry => entry.1 == path).bind fun entry =>
    entry.2.filter

theorem map_fst_taken (inc : IncludeTree) : inc.taken.map Prod.fst = inc.usedPaths := by
  have hfields : (inc.writtenFields.flatMap FieldPath.taken).map Prod.fst
      = inc.writtenFields.flatMap FieldPath.relationPaths := by
    rw [List.map_flatMap]
    refine List.flatMap_congr fun field _ => ?_
    rw [FieldPath.taken, List.map_map]
    exact List.map_id _
  rw [taken, List.map_append, hfields, List.map_map]
  rfl

/-- Every path is first taken with the filter of its include, if it has
one. -/
theorem firsts_taken (inc : IncludeTree) :
    firstsBy Prod.fst inc.taken = inc.usedPaths.eraseDups.map fun p => (p, inc.filterAt p) := by
  have hkept : ∀ t ∈ firstsBy Prod.fst inc.taken, t = (t.1, inc.filterAt t.1) := by
    rintro ⟨p, clause?⟩ ht
    refine Prod.ext rfl ?_
    have hfind := find?_of_mem_firstsBy ht
    rw [taken, List.find?_append, List.find?_map] at hfind
    simp only [Function.comp_def] at hfind
    unfold filterAt
    cases hentry : (nestedEach [] inc.relations).find? fun entry => entry.1 == p with
    | some entry =>
        rw [hentry] at hfind
        exact (congrArg (Option.map Prod.snd) hfind |> Option.some.inj).symm
    | none =>
        rw [hentry] at hfind
        obtain ⟨field, -, hmem⟩ := List.mem_flatMap.1 (List.mem_of_find?_eq_some hfind)
        obtain ⟨q, -, hq⟩ := List.mem_map.1 hmem
        exact (congrArg Prod.snd hq).symm
  rw [← map_fst_taken, ← map_firstsBy, List.map_map]
  conv_lhs => rw [← List.map_id (firstsBy Prod.fst inc.taken)]
  exact List.map_congr_left hkept

/-- Where no include has a filter, there is none. -/
theorem filterAt_eq_none
    (h : ∀ entry ∈ nestedEach [] inc.relations, entry.1 = path → entry.2.filter = none) :
    inc.filterAt path = none := by
  unfold filterAt
  cases hentry : (nestedEach [] inc.relations).find? fun entry => entry.1 == path with
  | none => rfl
  | some entry =>
      exact h entry (List.mem_of_find?_eq_some hentry) (by simpa using List.find?_some hentry)

/-- A field that is written takes paths that are used, without a filter. -/
theorem of_mem_taken_field {field : String} (hfield : field ∈ inc.writtenFields) :
    ∀ t ∈ FieldPath.taken field, t.1 ∈ inc.usedPaths ∧ t.2 = none := by
  intro t ht
  obtain ⟨p, hp, rfl⟩ := List.mem_map.1 ht
  exact ⟨mem_usedPaths_of_field hfield hp, rfl⟩

theorem of_mem_taken_filter {clause : Clause} (hclause : inc.filter = some clause) :
    ∀ t ∈ clause.taken, t.1 ∈ inc.usedPaths ∧ t.2 = none := by
  intro t ht
  rw [Clause.taken, Clause.atFields_eq_flatMap] at ht
  obtain ⟨field, hfield, ht⟩ := List.mem_flatMap.1 ht
  refine of_mem_taken_field (List.mem_append_left _ ?_) t ht
  rwa [hclause]

theorem of_mem_taken_order {term : OrderTerm} (hterm : term ∈ inc.order) :
    ∀ t ∈ term.element.taken, t.1 ∈ inc.usedPaths ∧ t.2 = none := by
  intro t ht
  rw [Element.taken, Element.atFields_eq_flatMap] at ht
  obtain ⟨field, hfield, ht⟩ := List.mem_flatMap.1 ht
  exact of_mem_taken_field (mem_writtenFields_of_order hterm hfield) t ht

/-- No relation that is included under an alias has a filter. -/
def Unrestricted (inc : IncludeTree) (tableAlias : String) : Prop :=
  ∀ entry ∈ nestedEach [] inc.relations, entry.1.tableAlias = tableAlias →
    entry.2.filter = none

/-- A join is written for a path used, with the filter of the relation that
is included there. -/
def JoinsPath (dialect : Dialect) (scope : Scope) (inc : IncludeTree) (path : RelationPath)
    (join : Join) : Prop :=
  ∃ last filter, scope.Leads path last
    ∧ (inc.filterAt path).mapM (Clause.compile dialect (scope.within last)) = .ok filter
    ∧ join.IsOf dialect scope.tableAlias path last filter

end IncludeTree

-- ============================================================= the walk

variable {dialect : Dialect} {scope : Scope}

/-- Entering a relation takes its path, with the filter of the include. -/
theorem Walk.gathers_enter {walk : Walk} {step : Step} {path : RelationPath}
    {taken : List TakenPath} {fields : List String} {filter : Option Clause}
    {order : List OrderTerm} {done : Structure × Walk} (hleads : scope.Leads path step)
    (hwalk : scope.Gathers dialect taken walk.joins)
    (h : walk.enter dialect scope.catalog step fields filter order = .ok done) :
    scope.Gathers dialect (taken ++ [(path, filter)]) done.2.joins := by
  obtain ⟨filter', hfilter, h⟩ := bind_eq_ok.1 h
  obtain ⟨orders, -, h⟩ := bind_eq_ok.1 h
  obtain ⟨joins, hjoins, h⟩ := bind_eq_ok.1 h
  obtain ⟨fields', -, h⟩ := bind_eq_ok.1 h
  cases pure_eq_ok.1 h
  exact hwalk.insert ⟨step, filter', hleads, hfilter, rfl⟩ hjoins

mutual

/-- The walk over an included relation takes its path and those below
it. -/
theorem IncludeTree.gathers_layout : ∀ {inc : IncludeTree} {here : Scope} {before : RelationPath}
    {name : String} {walk : Walk} {taken : List TakenPath} {done : (Relation × Structure) × Walk},
    scope.reach before = .ok here → here.catalog = scope.catalog →
    scope.Gathers dialect taken walk.joins →
    inc.layout dialect scope.catalog here.mapping here.tableAlias here.aliasPrefix walk name
      = .ok done →
    scope.Gathers dialect
      (taken ++ (inc.nested before name).map fun entry => (entry.1, entry.2.filter)) done.2.joins
  | ⟨fields, relations, filter, order⟩, here, before, name, walk, taken, done, hreach, hcatalog,
    hwalk, h => by
      obtain ⟨step, hstep, h⟩ := bind_eq_ok.1 h
      obtain ⟨entered, henter, h⟩ := bind_eq_ok.1 h
      obtain ⟨below, hbelow, h⟩ := bind_eq_ok.1 h
      cases pure_eq_ok.1 h
      obtain ⟨hleads, hnext⟩ := Scope.reach_step hreach hcatalog hstep
      rw [IncludeTree.nested, List.map_cons, List.append_cons]
      exact IncludeTree.gathers_layoutEach hnext hcatalog (Walk.gathers_enter hleads hwalk henter)
        hbelow
termination_by structural inc => inc

/-- The walk over included relations takes the paths of all. -/
theorem IncludeTree.gathers_layoutEach : ∀ {relations : List (String × IncludeTree)}
    {here : Scope} {before : RelationPath} {walk : Walk} {taken : List TakenPath}
    {done : List (Relation × Structure) × Walk},
    scope.reach before = .ok here → here.catalog = scope.catalog →
    scope.Gathers dialect taken walk.joins →
    IncludeTree.layoutEach dialect scope.catalog here.mapping here.tableAlias here.aliasPrefix walk
      relations = .ok done →
    scope.Gathers dialect
      (taken
        ++ (IncludeTree.nestedEach before relations).map fun entry => (entry.1, entry.2.filter))
      done.2.joins
  | [], here, before, walk, taken, done, _, _, hwalk, h => by
      cases pure_eq_ok.1 h
      rwa [IncludeTree.nestedEach, List.map_nil, List.append_nil]
  | (name, inc) :: rest, here, before, walk, taken, done, hreach, hcatalog, hwalk, h => by
      obtain ⟨between, hbetween, h⟩ := bind_eq_ok.1 h
      obtain ⟨more, hmore, h⟩ := bind_eq_ok.1 h
      cases pure_eq_ok.1 h
      rw [IncludeTree.nestedEach, List.map_append, ← List.append_assoc]
      have hboth := IncludeTree.gathers_layoutEach hreach hcatalog
        (IncludeTree.gathers_layout hreach hcatalog hwalk hbetween) hmore
      exact hboth
termination_by structural relations => relations

end

/-- Compiled terms, one after the other, take the paths of the fields of
each. -/
theorem Walk.gathers_orderBy {terms : List OrderTerm} :
    ∀ {joins : Joins} {taken : List TakenPath} {done : List Fragment × Joins},
      scope.Gathers dialect taken joins →
      Walk.orderBy dialect scope joins terms = .ok done →
      scope.Gathers dialect (taken ++ terms.flatMap fun term => term.element.taken) done.2 := by
  induction terms with
  | nil =>
      intro joins taken done hjoins h
      cases pure_eq_ok.1 h
      rwa [List.flatMap_nil, List.append_nil]
  | cons term rest ih =>
      intro joins taken done hjoins h
      obtain ⟨f, hf, h⟩ := bind_eq_ok.1 h
      obtain ⟨more, hmore, h⟩ := bind_eq_ok.1 h
      obtain ⟨rest', hrest, h⟩ := bind_eq_ok.1 h
      cases pure_eq_ok.1 h
      rw [List.flatMap_cons, ← List.append_assoc]
      have hboth := ih (hjoins.merge (OrderTerm.gathers_of_compile hf) hmore) hrest
      exact hboth

-- ================================================================ plans

section Plans

variable {catalog : Catalog} {m : Mapping} {inc : IncludeTree} {tableAlias : String} {offset : Nat}
  {limit : Option Nat} {plan : Plan}

/-- A plan has the joins of the paths that the request takes. -/
theorem Plan.gathers_of_build
    (h : Plan.build catalog dialect m inc tableAlias offset limit = .ok plan) :
    (IncludeTree.rootScope catalog m tableAlias).Gathers dialect inc.taken plan.joins := by
  obtain ⟨fields, relations, walk, condition, joins, order, joins', -, hwalk, hcondition, hjoins,
    horder, -, rfl⟩ := Plan.of_build h
  set scope := IncludeTree.rootScope catalog m tableAlias
  have hnone : scope.Gathers dialect [] [] := .nil
  have hincluded := IncludeTree.gathers_layoutEach (show scope.reach [] = .ok scope from rfl) rfl
    hnone hwalk
  have hfilter : scope.Gathers dialect
      (((inc.filter.map Clause.fields).getD []).flatMap FieldPath.taken)
      ((condition.map Fragment.joins).getD []) := by
    rcases option_mapM_eq_ok hcondition with ⟨hnone, rfl⟩ | ⟨clause, f, hsome, rfl, hf⟩
    · rw [hnone]
      exact .nil
    · rw [hsome, Option.map_some, Option.getD_some, ← Clause.atFields_eq_flatMap]
      exact Clause.gathers_of_compile hf
  have hordered := Walk.gathers_orderBy (hincluded.merge hfilter hjoins) horder
  have hterms : (inc.order.flatMap fun term => term.element.taken)
      = (inc.order.flatMap fun term => term.element.fields).flatMap FieldPath.taken := by
    rw [List.flatMap_assoc]
    exact List.flatMap_congr fun term _ => Element.atFields_eq_flatMap _ term.element
  rw [hterms, List.nil_append, List.append_assoc, ← List.flatMap_append] at hordered
  exact hordered

/-- A plan has a join for each path used, with the filter that is included
there. -/
theorem Plan.forall₂_joins
    (h : Plan.build catalog dialect m inc tableAlias offset limit = .ok plan) :
    List.Forall₂
      (fun path join => (IncludeTree.rootScope catalog m tableAlias).JoinOf dialect
        (path, inc.filterAt path) join)
      inc.usedPaths.eraseDups plan.joins := by
  obtain ⟨hjoined, hapart⟩ := Plan.build_settled.ok h
  have hkept := (Plan.gathers_of_build h).kept rfl ?_
  · rw [IncludeTree.firsts_taken, List.forall₂_map_left_iff] at hkept
    exact hkept
  · rw [IncludeTree.map_fst_taken]
    exact fun p hp q hq => hjoined.eq_of_tableAlias rfl inc.grounded_usedPaths hapart hp hq

/-- What a plan joins for a path is what any request joins for it that takes
it with the same filter. -/
theorem Plan.mem_joins_of_taken
    (h : Plan.build catalog dialect m inc tableAlias offset limit = .ok plan)
    {path : RelationPath} {join : Join} (hused : path ∈ inc.usedPaths)
    (hjoin : (IncludeTree.rootScope catalog m tableAlias).JoinOf dialect (path, inc.filterAt path)
      join) : join ∈ plan.joins := by
  obtain ⟨join', hmem, hjoin'⟩ :=
    exists_of_forall₂ (Plan.forall₂_joins h) (List.mem_eraseDups.2 hused)
  rwa [hjoin.unique hjoin']

/-- The joins of a plan are those of the paths used: one for each path, in
the order of first use, written for the path, with the filter of the
relation that is included there; and of each alias there is one. A field
that follows a path without a filter has the plan's join for it. -/
theorem Plan.joins_follow_paths (catalog : Catalog) (dialect : Dialect) (m : Mapping)
    (inc : IncludeTree) (tableAlias : String) (offset : Nat) (limit : Option Nat) (plan : Plan)
    (h : Plan.build catalog dialect m inc tableAlias offset limit = .ok plan) :
    List.Forall₂ (inc.JoinsPath dialect (IncludeTree.rootScope catalog m tableAlias))
        inc.usedPaths.eraseDups plan.joins
      ∧ (plan.joins.map fun join => Casing.fold join.tableAlias).Nodup
      ∧ ∀ field f, (IncludeTree.rootScope catalog m tableAlias).field dialect field = .ok f →
        ∀ path ∈ FieldPath.relationPaths field, path ∈ inc.usedPaths →
          inc.filterAt path = none →
          ∃ join ∈ plan.joins, join ∈ f.joins ∧ join.tableAlias = path.tableAlias := by
  refine ⟨?_, ?_, ?_⟩
  · refine (Plan.forall₂_joins h).imp ?_
    rintro path _ ⟨last, filter, hleads, hfilter, rfl⟩
    exact ⟨last, filter, hleads, hfilter, hleads.isOf_join rfl filter⟩
  · obtain ⟨brought, -, hjoins⟩ := Plan.gathers_of_build h
    rw [hjoins]
    exact nodup_map_firstsBy (fun join : Join => Casing.fold join.tableAlias) brought
  · intro field f hf path hpath hused hnone
    obtain ⟨join, hmem, hjoin⟩ := Scope.exists_join_of_field rfl hf path hpath
    exact ⟨join, Plan.mem_joins_of_taken h hused (hnone ▸ hjoin), hmem, (hjoin.names rfl).1⟩

/-- A path that is included with a filter and followed by the root filter
has one join, with the filter; paths that are only followed have none. -/
theorem Plan.joins_of_members : ∃ plan,
    Plan.build memberCatalog Flavor.sqlite.dialect memberMapping scopedInclude "m" 0 none
        = .ok plan
      ∧ plan.joins.map (fun join => (join.tableAlias, join.params))
        = [("sponsor", [.int64 3]), ("sponsored", []), ("sponsored_sponsored", [])]
      ∧ List.Forall₂
        (scopedInclude.JoinsPath Flavor.sqlite.dialect
          (IncludeTree.rootScope memberCatalog memberMapping "m"))
        [["sponsor"], ["sponsored"], ["sponsored", "sponsored"]] plan.joins := by
  refine ⟨_, rfl, by decide, ?_⟩
  exact (Plan.joins_follow_paths memberCatalog Flavor.sqlite.dialect memberMapping scopedInclude
    "m" 0 none _ rfl).1

-- ========================================================= needed joins

/-- Each of some joins is among those of a plan: under its alias, of its
kind and for its relation, and unchanged if no relation is included under
the alias with a filter. -/
def Plan.Keeps (plan : Plan) (inc : IncludeTree) (joins : Joins) : Prop :=
  ∀ join ∈ joins, ∃ kept ∈ plan.joins, kept.tableAlias = join.tableAlias
    ∧ kept.kind = join.kind ∧ kept.source = join.source
    ∧ (inc.Unrestricted join.tableAlias → kept = join)

/-- Joins of paths that are used, taken without filters, are kept. -/
theorem Plan.keeps_of_gathers
    (h : Plan.build catalog dialect m inc tableAlias offset limit = .ok plan)
    {joins : Joins} {taken : List TakenPath}
    (hjoins : (IncludeTree.rootScope catalog m tableAlias).Gathers dialect taken joins)
    (htaken : ∀ t ∈ taken, t.1 ∈ inc.usedPaths ∧ t.2 = none) : plan.Keeps inc joins := by
  intro join hjoin
  obtain ⟨brought, hbrought, rfl⟩ := hjoins
  obtain ⟨⟨path, clause?⟩, ht, hof⟩ :=
    exists_of_forall₂ hbrought.flip (mem_of_mem_firstsBy hjoin)
  obtain ⟨hused, rfl⟩ := htaken _ ht
  have hof : (IncludeTree.rootScope catalog m tableAlias).JoinOf dialect (path, none) join := hof
  obtain ⟨kept, hkept, hkeptOf⟩ :=
    exists_of_forall₂ (Plan.forall₂_joins h) (List.mem_eraseDups.2 hused)
  have hnames := hof.names rfl
  have hkeptNames := hkeptOf.names rfl
  refine ⟨kept, hkept, by rw [hkeptNames.1, hnames.1], ?_, by rw [hkeptNames.2, hnames.2], ?_⟩
  · obtain ⟨last, filter, hleads, -, rfl⟩ := hof
    obtain ⟨last', filter', hleads', -, rfl⟩ := hkeptOf
    rw [hleads.unique hleads']
    rfl
  · intro hfree
    have hnone : inc.filterAt path = none := IncludeTree.filterAt_eq_none fun entry hentry heq =>
      hfree entry hentry (by rw [heq, hnames.1])
    rw [hnone] at hkeptOf
    exact hkeptOf.unique hof

/-- The root filter and the terms of the root order are compiled, and the
joins that they need are kept. -/
theorem Plan.keeps_needed_joins (catalog : Catalog) (dialect : Dialect) (m : Mapping)
    (inc : IncludeTree) (tableAlias : String) (offset : Nat) (limit : Option Nat) (plan : Plan)
    (h : Plan.build catalog dialect m inc tableAlias offset limit = .ok plan) :
    (∀ clause, inc.filter = some clause →
      ∃ f, clause.compile dialect (IncludeTree.rootScope catalog m tableAlias) = .ok f
        ∧ plan.Keeps inc f.joins)
      ∧ ∀ term ∈ inc.order,
        ∃ f, term.compile dialect (IncludeTree.rootScope catalog m tableAlias) = .ok f
          ∧ plan.Keeps inc f.joins := by
  obtain ⟨-, hfilter, horder⟩ := Plan.placed_of_build h
  constructor
  · intro clause hclause
    obtain ⟨f, hf⟩ := hfilter clause hclause
    exact ⟨f, hf, Plan.keeps_of_gathers h (Clause.gathers_of_compile hf)
      (IncludeTree.of_mem_taken_filter hclause)⟩
  · intro term hterm
    obtain ⟨f, hf⟩ := horder term hterm
    exact ⟨f, hf, Plan.keeps_of_gathers h (OrderTerm.gathers_of_compile hf)
      (IncludeTree.of_mem_taken_order hterm)⟩

/-- A relation that is included without a filter, or not at all, is joined as
the root filter needs it. -/
theorem Plan.keeps_sponsored : ∃ plan f,
    Plan.build memberCatalog Flavor.sqlite.dialect memberMapping scopedInclude "m" 0 none
        = .ok plan
      ∧ Clause.compile Flavor.sqlite.dialect
          (IncludeTree.rootScope memberCatalog memberMapping "m")
          (.compare .eq (.field "sponsored.sponsored.club") (.field "sponsor.club")) = .ok f
      ∧ f.joins.map Join.tableAlias = ["sponsored", "sponsored_sponsored", "sponsor"]
      ∧ ∀ join ∈ f.joins, scopedInclude.Unrestricted join.tableAlias → join ∈ plan.joins := by
  refine ⟨_, _, rfl, rfl, by decide, ?_⟩
  obtain ⟨f, hf, hkept⟩ := (Plan.keeps_needed_joins memberCatalog Flavor.sqlite.dialect
    memberMapping scopedInclude "m" 0 none _ rfl).1 _ rfl
  cases hf
  intro join hjoin hfree
  obtain ⟨kept, hmem, -, -, -, hsame⟩ := hkept join hjoin
  exact hsame hfree ▸ hmem

/-- A relation that is included with a filter is joined with it, where the
root filter needs the relation without. -/
theorem Plan.restricts_sponsor : ∃ plan f,
    Plan.build memberCatalog Flavor.sqlite.dialect memberMapping scopedInclude "m" 0 none
        = .ok plan
      ∧ Clause.compile Flavor.sqlite.dialect
          (IncludeTree.rootScope memberCatalog memberMapping "m")
          (.compare .eq (.field "sponsored.sponsored.club") (.field "sponsor.club")) = .ok f
      ∧ ∃ join ∈ f.joins, join.tableAlias = "sponsor" ∧ ∀ kept ∈ plan.joins,
        kept.tableAlias = join.tableAlias → kept.sql ≠ join.sql ∧ kept.params ≠ join.params :=
  ⟨_, _, rfl, rfl, by decide⟩

end Plans

end RecordQuery
