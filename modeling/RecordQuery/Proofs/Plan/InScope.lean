/-
The tables that a plan mentions. A statement knows the root's table under
its alias, and a table for each of its joins. Each join starts from a table
known by then; what the statement selects, filters and sorts by are columns
of tables that it knows, each a column of the mapping that is joined under
the alias; and the filter and the order of an included relation read its
own table alone.

Joins come from the walk over the includes and from the paths of the
filter and of the order, in this order. What carries the proof is that the
paths used are grounded, each behind the one that it continues, and that
the joins are those of the paths, in the order of first use.
-/
import RecordQuery.Proofs.Layout.Slots
import RecordQuery.Proofs.Path.Fields
import RecordQuery.Proofs.Plan.Aliases

namespace RecordQuery

-- ============================================================ vocabulary

section Vocabulary

variable (catalog : Catalog) (m : Mapping) (inc : IncludeTree) (plan : Plan)

/-- A plan's statement knows the table of a mapping under an alias: that of
the root, or that at the end of a path used whose join is in the plan. -/
def Plan.Knows (name : String) (target : Mapping) : Prop :=
  (name = plan.tableAlias ∧ target = m)
    ∨ ∃ path ∈ inc.usedPaths, ∃ last filter,
      (IncludeTree.rootScope catalog m plan.tableAlias).Leads path last
        ∧ last.join plan.dialect filter ∈ plan.joins
        ∧ name = last.pathAlias ∧ target = last.target

/-- A column of a table that the statement knows under the column's
alias. -/
def Plan.HasColumn (ref : ColumnRef) : Prop :=
  ∃ target, plan.Knows catalog m inc ref.table target ∧ target.HasColumn ref.name

end Vocabulary

/-- An include whose filter and order are compiled in a scope. -/
structure IncludeTree.CompiledIn (dialect : Dialect) (scope : Scope) (inc : IncludeTree) :
    Prop where
  filter : ∀ clause, inc.filter = some clause → ∃ f, clause.compile dialect scope = .ok f
  order : ∀ term ∈ inc.order, ∃ f, term.compile dialect scope = .ok f

variable {catalog : Catalog} {dialect : Dialect} {scope : Scope} {m : Mapping} {inc : IncludeTree}
  {tableAlias : String} {offset : Nat} {limit : Option Nat} {plan : Plan}

/-- Every field that is written was compiled. -/
theorem IncludeTree.CompiledIn.field (h : inc.CompiledIn dialect scope) :
    ∀ field ∈ inc.writtenFields, ∃ f, scope.field dialect field = .ok f := by
  intro field hfield
  rcases List.mem_append.1 hfield with hfield | hfield
  · cases hclause : inc.filter with
    | none => simp [hclause] at hfield
    | some clause =>
        rw [hclause] at hfield
        obtain ⟨f, hf⟩ := h.filter clause hclause
        exact Clause.field_of_compile hf field hfield
  · obtain ⟨term, hterm, hfield⟩ := List.mem_flatMap.1 hfield
    obtain ⟨f, hf⟩ := h.order term hterm
    obtain ⟨g, hg, -⟩ := bind_eq_ok.1 hf
    exact Element.field_of_compile hg field hfield

-- ============================================================== columns

namespace Structure

mutual

/-- Every column of a structure is selected for one that stands in it. -/
theorem exists_of_mem_columns : ∀ {s : Structure} {ref : ColumnRef}, ref ∈ s.columns →
    ∃ t ∈ s.preorder, ∃ c ∈ t.keys ++ t.fields, c.ref = ref
  | ⟨m, tableAlias, offset, keys, fields, relations⟩, ref, h => by
      rw [columns_eq, List.mem_append] at h
      rw [preorder]
      rcases h with h | h
      · obtain ⟨c, hc, rfl⟩ := List.mem_map.1 h
        exact ⟨_, List.mem_cons_self, c, hc, rfl⟩
      · obtain ⟨t, ht, hc⟩ := exists_of_mem_columnsBelow h
        exact ⟨t, List.mem_cons_of_mem _ ht, hc⟩
termination_by structural s => s

theorem exists_of_mem_columnsBelow : ∀ {relations : List (Relation × Structure)}
    {ref : ColumnRef}, ref ∈ columnsBelow relations →
    ∃ t ∈ preorderBelow relations, ∃ c ∈ t.keys ++ t.fields, c.ref = ref
  | [], ref, h => absurd h List.not_mem_nil
  | (r, s) :: rest, ref, h => by
      rw [columnsBelow, List.mem_append] at h
      rw [preorderBelow]
      rcases h with h | h
      · obtain ⟨t, ht, hc⟩ := exists_of_mem_columns h
        exact ⟨t, List.mem_append_left _ ht, hc⟩
      · obtain ⟨t, ht, hc⟩ := exists_of_mem_columnsBelow h
        exact ⟨t, List.mem_append_right _ ht, hc⟩
termination_by structural relations => relations

end

/-- The columns of a built structure are columns of its mapping's table. -/
theorem Built.hasColumn {s : Structure} (h : s.Built catalog) {c : StructureColumn}
    (hc : c ∈ s.keys ++ s.fields) :
    c.ref.table = s.tableAlias ∧ s.mapping.HasColumn c.ref.name := by
  obtain ⟨hcolumn, htable, hname⟩ := h.of_columns hc
  exact ⟨htable, hname ▸ List.mem_map_of_mem hcolumn⟩

end Structure

-- ============================================================= the walk

/-- What the walk makes of included relations: each stands at the end of
its path, its filter and order are compiled in its own scope, and every
structure is one of theirs. -/
structure IncludeTree.Placed (dialect : Dialect) (scope : Scope)
    (nested : List (RelationPath × IncludeTree)) (structures : List Structure) : Prop where
  compiled : ∀ entry ∈ nested, ∃ last, scope.Leads entry.1 last
    ∧ entry.2.CompiledIn dialect (scope.within last)
  structures : ∀ s ∈ structures, ∃ entry ∈ nested, ∃ last, scope.Leads entry.1 last
    ∧ s.tableAlias = last.pathAlias ∧ s.mapping = last.target

theorem IncludeTree.Placed.append {nested nested' : List (RelationPath × IncludeTree)}
    {structures structures' : List Structure}
    (h : IncludeTree.Placed dialect scope nested structures)
    (h' : IncludeTree.Placed dialect scope nested' structures') :
    IncludeTree.Placed dialect scope (nested ++ nested') (structures ++ structures') where
  compiled := List.forall_mem_append.2 ⟨h.compiled, h'.compiled⟩
  structures := by
    intro s hs
    rcases List.mem_append.1 hs with hs | hs
    · obtain ⟨entry, hentry, hplace⟩ := h.structures s hs
      exact ⟨entry, List.mem_append_left _ hentry, hplace⟩
    · obtain ⟨entry, hentry, hplace⟩ := h'.structures s hs
      exact ⟨entry, List.mem_append_right _ hentry, hplace⟩

/-- Entering a relation makes a structure of its own. -/
theorem Walk.enter_placed {walk walk' : Walk} {step : Step} {s : Structure}
    {fields : List String} {filter : Option Clause} {order : List OrderTerm}
    (h : walk.enter dialect scope.catalog step fields filter order = .ok (s, walk'))
    (relations : List (String × IncludeTree)) :
    s.tableAlias = step.pathAlias ∧ s.mapping = step.target
      ∧ IncludeTree.CompiledIn dialect (scope.within step)
        ⟨fields, relations, filter, order⟩ := by
  obtain ⟨filter', hfilter, h⟩ := bind_eq_ok.1 h
  obtain ⟨orders, horders, h⟩ := bind_eq_ok.1 h
  obtain ⟨joins, -, h⟩ := bind_eq_ok.1 h
  obtain ⟨fields', -, h⟩ := bind_eq_ok.1 h
  cases pure_eq_ok.1 h
  exact ⟨rfl, rfl, fun clause hclause => ok_of_option_mapM hfilter hclause,
    fun term hterm => ok_of_mem_mapM horders hterm⟩

mutual

/-- The walk places an included relation and those below it. -/
theorem IncludeTree.layout_placed : ∀ {inc : IncludeTree} {here : Scope} {before : RelationPath}
    {name : String} {walk walk' : Walk} {entry : Relation × Structure},
    scope.reach before = .ok here → here.catalog = scope.catalog →
    inc.layout dialect scope.catalog here.mapping here.tableAlias here.aliasPrefix walk name
      = .ok (entry, walk') →
    IncludeTree.Placed dialect scope (inc.nested before name) entry.2.preorder
  | ⟨fields, relations, filter, order⟩, here, before, name, walk, walk', entry, hreach, hcatalog,
    h => by
      obtain ⟨step, hstep, h⟩ := bind_eq_ok.1 h
      obtain ⟨⟨s, entered⟩, henter, h⟩ := bind_eq_ok.1 h
      obtain ⟨⟨below, left⟩, hbelow, h⟩ := bind_eq_ok.1 h
      cases pure_eq_ok.1 h
      obtain ⟨hleads, hnext⟩ := Scope.reach_step hreach hcatalog hstep
      obtain ⟨halias, hmapping, hcompiled⟩ := Walk.enter_placed henter relations
      have hown : IncludeTree.Placed dialect scope
          [(before ++ [name], ⟨fields, relations, filter, order⟩)]
          [{ s with relations := below }] :=
        ⟨by simpa using ⟨step, hleads, hcompiled⟩,
          by simpa using ⟨step, hleads, halias, hmapping⟩⟩
      rw [Structure.preorder_eq]
      exact hown.append (IncludeTree.layoutEach_placed hnext hcatalog hbelow)
termination_by structural inc => inc

/-- The walk places included relations, one after the other. -/
theorem IncludeTree.layoutEach_placed : ∀ {relations : List (String × IncludeTree)}
    {here : Scope} {before : RelationPath} {walk walk' : Walk}
    {entries : List (Relation × Structure)},
    scope.reach before = .ok here → here.catalog = scope.catalog →
    IncludeTree.layoutEach dialect scope.catalog here.mapping here.tableAlias here.aliasPrefix walk
      relations = .ok (entries, walk') →
    IncludeTree.Placed dialect scope (IncludeTree.nestedEach before relations)
      (Structure.preorderBelow entries)
  | [], here, before, walk, walk', entries, _, _, h => by
      cases pure_eq_ok.1 h
      exact ⟨by simp [IncludeTree.nestedEach], by simp [Structure.preorderBelow]⟩
  | (name, inc) :: rest, here, before, walk, walk', entries, hreach, hcatalog, h => by
      obtain ⟨⟨entry, between⟩, hentry, h⟩ := bind_eq_ok.1 h
      obtain ⟨⟨more, left⟩, hmore, h⟩ := bind_eq_ok.1 h
      cases pure_eq_ok.1 h
      exact (IncludeTree.layout_placed hreach hcatalog hentry).append
        (IncludeTree.layoutEach_placed hreach hcatalog hmore)
termination_by structural relations => relations

end

-- ================================================================ plans

/-- The terms of an order are compiled one by one. -/
theorem Walk.forall₂_of_orderBy {terms : List OrderTerm} :
    ∀ {joins : Joins} {done : List Fragment × Joins},
      Walk.orderBy dialect scope joins terms = .ok done →
      List.Forall₂ (fun term f => term.compile dialect scope = .ok f) terms done.1 := by
  induction terms with
  | nil =>
      intro joins done h
      cases pure_eq_ok.1 h
      exact .nil
  | cons term rest ih =>
      intro joins done h
      obtain ⟨f, hf, h⟩ := bind_eq_ok.1 h
      obtain ⟨more, -, h⟩ := bind_eq_ok.1 h
      obtain ⟨rest', hrest, h⟩ := bind_eq_ok.1 h
      cases pure_eq_ok.1 h
      exact .cons hf (ih hrest)

/-- In a built plan the included relations are placed, and the filter and
the order are compiled in the root's scope. -/
theorem Plan.placed_of_build
    (h : Plan.build catalog dialect m inc tableAlias offset limit = .ok plan) :
    IncludeTree.Placed dialect (IncludeTree.rootScope catalog m tableAlias)
        (IncludeTree.nestedEach [] inc.relations) (Structure.preorderBelow plan.layout.relations)
      ∧ inc.CompiledIn dialect (IncludeTree.rootScope catalog m tableAlias) := by
  obtain ⟨fields, relations, walk, condition, joins, order, joins', -, hwalk, hcondition, -, horder,
    -, rfl⟩ := Plan.of_build h
  set scope := IncludeTree.rootScope catalog m tableAlias
  exact ⟨IncludeTree.layoutEach_placed (show scope.reach [] = .ok scope from rfl) rfl hwalk,
    fun clause hclause => ok_of_option_mapM hcondition hclause,
    fun term hterm => ok_of_forall₂ (Walk.forall₂_of_orderBy horder) hterm⟩

theorem Plan.layout_tableAlias
    (h : Plan.build catalog dialect m inc tableAlias offset limit = .ok plan) :
    plan.layout.tableAlias = tableAlias := by
  obtain ⟨_, _, _, _, _, _, _, -, -, -, -, -, -, rfl⟩ := Plan.of_build h
  rfl

/-- The statement knows the table at the end of every path used. -/
theorem Plan.knows_of_used
    (h : Plan.build catalog plan.dialect m inc plan.tableAlias offset limit = .ok plan)
    {path : RelationPath} {last : Step} (hused : path ∈ inc.usedPaths)
    (hleads : (IncludeTree.rootScope catalog m plan.tableAlias).Leads path last) :
    plan.Knows catalog m inc last.pathAlias last.target := by
  obtain ⟨kept, hpaths, hjoins, hbrings⟩ := Plan.joins_of_build h
  have hpath : path ∈ kept.map Prod.fst := by
    rw [hpaths]
    exact List.mem_eraseDups.2 hused
  obtain ⟨b, hb, rfl⟩ := List.mem_map.1 hpath
  obtain ⟨last', filter, hleads', hjoin, -⟩ := hbrings b hb
  cases hleads.unique hleads'
  refine Or.inr ⟨b.1, hused, last, filter, hleads, ?_, rfl, rfl⟩
  rw [← hjoin, ← hjoins]
  exact List.mem_map_of_mem hb

/-- One alias is known for one mapping. -/
theorem Plan.knows_unique
    (h : Plan.build catalog plan.dialect m inc plan.tableAlias offset limit = .ok plan)
    {name : String} {target target' : Mapping} (hknows : plan.Knows catalog m inc name target)
    (hknows' : plan.Knows catalog m inc name target') : target = target' := by
  obtain ⟨hjoined, hapart⟩ := Plan.build_settled.ok h
  have hnames : ∀ {path : RelationPath} {last : Step},
      (IncludeTree.rootScope catalog m plan.tableAlias).Leads path last →
        last.pathAlias = path.tableAlias := fun hleads => (hleads.aliases rfl).1
  rcases hknows with ⟨rfl, rfl⟩ | ⟨path, hused, last, -, hleads, -, rfl, rfl⟩ <;>
    rcases hknows' with ⟨hname, rfl⟩ | ⟨path', hused', last', -, hleads', -, hname, rfl⟩
  · rfl
  · rw [hnames hleads'] at hname
    exact absurd (congrArg _ hname.symm) (hapart path' hused')
  · rw [hnames hleads] at hname
    exact absurd (congrArg _ hname) (hapart path hused)
  · rw [hnames hleads, hnames hleads'] at hname
    cases hjoined.eq_of_tableAlias rfl inc.grounded_usedPaths hapart hused hused'
      (congrArg _ hname)
    rw [hleads.unique hleads']

/-- Every join starts from the root or from the table of an earlier join,
and its filter is one of the table joined alone. -/
theorem Plan.joins_grounded
    (h : Plan.build catalog dialect m inc tableAlias offset limit = .ok plan)
    {before after : Joins} {join : Join} (hsplit : plan.joins = before ++ join :: after) :
    ∃ path ∈ inc.usedPaths, ∃ last filter,
      (IncludeTree.rootScope catalog m tableAlias).Leads path last
        ∧ join = last.join dialect filter
        ∧ (∀ f, filter = some f → ∃ clause : Clause,
          clause.compile dialect ((IncludeTree.rootScope catalog m tableAlias).within last) = .ok f)
        ∧ (last.leftAlias = tableAlias
          ∨ ∃ earlier ∈ before, earlier.tableAlias = last.leftAlias) := by
  obtain ⟨kept, hpaths, hjoins, hbrings⟩ := Plan.joins_of_build h
  rw [← hjoins] at hsplit
  obtain ⟨first, rest, rfl, rfl, hrest⟩ := List.map_eq_append_iff.1 hsplit
  obtain ⟨b, others, rfl, rfl, -⟩ := List.map_eq_cons_iff.1 hrest
  rw [List.map_append, List.map_cons] at hpaths
  have hb : b ∈ first ++ b :: others := List.mem_append_right _ List.mem_cons_self
  obtain ⟨last, filter, hleads, hjoin, hfilter⟩ := hbrings b hb
  have hused : b.1 ∈ inc.usedPaths := by
    rw [← List.mem_eraseDups, ← hpaths]
    exact List.mem_append_right _ List.mem_cons_self
  refine ⟨b.1, hused, last, filter, hleads, hjoin, hfilter, ?_⟩
  -- the path on the left was used before
  obtain ⟨-, hleft, -⟩ := hleads.aliases rfl
  have hgrounded := (inc.grounded_usedPaths.eraseDups.of_append_cons hpaths.symm).2
  by_cases hnil : b.1.dropLast = []
  · left
    rw [hleft, hnil]
    rfl
  · right
    obtain ⟨c, hc, hpath⟩ := List.mem_map.1 (hgrounded.resolve_left hnil)
    refine ⟨c.2, List.mem_map_of_mem hc, ?_⟩
    rw [hleft, RelationPath.aliasUnder, if_neg hnil, ← hpath]
    exact ((hbrings c (List.mem_append_left _ hc)).names rfl).1

/-- Every table that a plan mentions is one that its statement knows, and
every column one of the mapping it is known for. A join starts from the
root or from an earlier join; the filter in its condition, and the filter
and the order of every included relation, read the table that is joined and
no other; and every column that is selected, filtered or sorted by belongs
to the root's table or to one that is joined. -/
theorem Plan.aliases_in_scope (catalog : Catalog) (dialect : Dialect) (m : Mapping)
    (inc : IncludeTree) (tableAlias : String) (offset : Nat) (limit : Option Nat) (plan : Plan)
    (h : Plan.build catalog dialect m inc tableAlias offset limit = .ok plan) :
    (∀ before join after, plan.joins = before ++ join :: after →
      ∃ path ∈ inc.usedPaths, ∃ last filter,
        (IncludeTree.rootScope catalog m tableAlias).Leads path last
        ∧ join = last.join dialect filter
        ∧ (last.leftAlias = tableAlias
          ∨ ∃ earlier ∈ before, earlier.tableAlias = last.leftAlias)
        ∧ ∀ f, filter = some f → ∃ clause : Clause,
          clause.compile dialect ((IncludeTree.rootScope catalog m tableAlias).within last) = .ok f
          ∧ ((IncludeTree.rootScope catalog m tableAlias).within last).ReadsOwn dialect
            clause.fields)
    ∧ (∀ entry ∈ IncludeTree.nestedEach [] inc.relations, ∃ last,
        (IncludeTree.rootScope catalog m tableAlias).Leads entry.1 last
        ∧ plan.Knows catalog m inc last.pathAlias last.target
        ∧ ((IncludeTree.rootScope catalog m tableAlias).within last).ReadsOwn dialect
          entry.2.writtenFields)
    ∧ (∀ ref ∈ plan.keyColumns ++ plan.selectedColumns, plan.HasColumn catalog m inc ref)
    ∧ (∀ field ∈ inc.writtenFields, ∃ ref,
        (IncludeTree.rootScope catalog m tableAlias).Reads dialect field ref
        ∧ plan.HasColumn catalog m inc ref)
    ∧ ∀ name target target', plan.Knows catalog m inc name target →
        plan.Knows catalog m inc name target' → target = target' := by
  obtain ⟨rfl, rfl⟩ := Plan.names_of_build h
  obtain ⟨hplaced, hcompiled⟩ := Plan.placed_of_build h
  have hincluded : ∀ entry ∈ IncludeTree.nestedEach [] inc.relations,
      entry.1 ∈ inc.usedPaths :=
    fun entry hentry => List.mem_append_left _ (List.mem_map_of_mem hentry)
  refine ⟨fun before join after hsplit => ?_, fun entry hentry => ?_, fun ref href => ?_,
    fun field hfield => ?_, fun name target target' => Plan.knows_unique h⟩
  · obtain ⟨path, hused, last, filter, hleads, hjoin, hfilter, hleft⟩ :=
      Plan.joins_grounded h hsplit
    refine ⟨path, hused, last, filter, hleads, hjoin, hleft, fun f hf => ?_⟩
    obtain ⟨clause, hclause⟩ := hfilter f hf
    exact ⟨clause, hclause, Scope.readsOwn_of_nested rfl (Clause.field_of_compile hclause)⟩
  · obtain ⟨last, hleads, hcompiled⟩ := hplaced.compiled entry hentry
    exact ⟨last, hleads, Plan.knows_of_used h (hincluded entry hentry) hleads,
      Scope.readsOwn_of_nested rfl hcompiled.field⟩
  · rw [Plan.columns_layout] at href
    obtain ⟨s, hs, c, hc, rfl⟩ := Structure.exists_of_mem_columns href
    obtain ⟨hbuilt, hmapping, -⟩ := Plan.layout_built h
    obtain ⟨htable, hname⟩ := (hbuilt.of_mem_preorder hs).1.hasColumn hc
    rw [Structure.preorder_eq] at hs
    rcases List.mem_cons.1 hs with rfl | hs
    · refine ⟨m, Or.inl ⟨?_, rfl⟩, hmapping ▸ hname⟩
      rw [htable, Plan.layout_tableAlias h]
    · obtain ⟨entry, hentry, last, hleads, halias, htarget⟩ := hplaced.structures s hs
      refine ⟨last.target, ?_, htarget ▸ hname⟩
      rw [htable, halias]
      exact Plan.knows_of_used h (hincluded entry hentry) hleads
  · obtain ⟨f, hf⟩ := hcompiled.field field hfield
    obtain ⟨ref, hreads⟩ := Scope.reads_of_field hf
    refine ⟨ref, hreads, ?_⟩
    rcases hreads.column with ⟨-, htable, hname⟩ | ⟨last, hleads, htable, hname⟩
    · exact ⟨m, Or.inl ⟨htable, rfl⟩, hname⟩
    · refine ⟨last.target, ?_, hname⟩
      rw [htable]
      have hused := IncludeTree.mem_usedPaths_of_field hfield hleads.mem_inits_tail
      exact Plan.knows_of_used h hused hleads

/-- A relation included, with a filter; another one followed twice by the
filter, and once by the order. -/
def scopedInclude : IncludeTree where
  relations :=
    [("sponsor", { filter := some (.compare .gt (.field "number") (.value (.int64 3)))
                   order := [⟨.field "club", .descending⟩] })]
  filter := some (.compare .eq (.field "sponsored.sponsored.club") (.field "sponsor.club"))
  order := [⟨.field "sponsored.number", .ascending⟩]

/-- The joins on the way to a table come before the table's own. -/
theorem Plan.in_scope_of_members : ∃ plan,
    Plan.build memberCatalog Flavor.sqlite.dialect memberMapping scopedInclude "m" 0 none
        = .ok plan
      ∧ plan.joins.map Join.tableAlias = ["sponsor", "sponsored", "sponsored_sponsored"]
      ∧ (∀ ref ∈ plan.keyColumns ++ plan.selectedColumns,
        plan.HasColumn memberCatalog memberMapping scopedInclude ref)
      ∧ ∀ field ∈ scopedInclude.writtenFields, ∃ ref,
        (IncludeTree.rootScope memberCatalog memberMapping "m").Reads Flavor.sqlite.dialect
          field ref
        ∧ plan.HasColumn memberCatalog memberMapping scopedInclude ref := by
  refine ⟨_, rfl, by decide, ?_⟩
  obtain ⟨-, -, hselected, hfields, -⟩ := Plan.aliases_in_scope memberCatalog
    Flavor.sqlite.dialect memberMapping scopedInclude "m" 0 none _ rfl
  exact ⟨hselected, hfields⟩

end RecordQuery
