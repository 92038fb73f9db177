/-
The window of a request, applied once. Where some path that a request uses
follows a to-many relation, a record may span rows: the statement is left
without a limit, its order holds the root's key, and the window is left to
whoever reads the rows. Otherwise the statement is limited, and the reader
has no window.

Three parts of a plan decide on this: its joins by their kinds, its layout
by the relations below it, and its text by what it counts. They agree
because each relation in the layout is included at a path that is used, and
each path that is used has a join of its relation's kind.
-/
import RecordQuery.Proofs.Plan.Joins
import RecordQuery.Proofs.Plan.Placeholders

namespace RecordQuery

-- ============================================================ vocabulary

/-- A path whose last relation is to-many. -/
def Scope.ToMany (scope : Scope) (path : RelationPath) : Prop :=
  ∃ last, scope.Leads path last ∧ last.relation.kind = .many

/-- A fragment that a term of the order of a relation included at a path is
compiled to, in the scope of the table that is joined. -/
def Scope.Sorts (dialect : Dialect) (scope : Scope) (placed : RelationPath × OrderTerm)
    (f : Fragment) : Prop :=
  ∃ last, scope.Leads placed.1 last ∧ placed.2.compile dialect (scope.within last) = .ok f

/-- The terms of the orders of included relations, each with the path of its
relation. -/
def IncludeTree.placedTerms (nested : List (RelationPath × IncludeTree)) :
    List (RelationPath × OrderTerm) :=
  nested.flatMap fun entry => entry.2.order.map fun term => (entry.1, term)

/-- A window as it is written behind a statement: its limit, or the one that
the dialect needs to write an offset alone, and its offset. -/
def Window.limitText (dialect : Dialect) (window : Window) : String :=
  (match window.take with
    | some limit => s!" LIMIT {limit}"
    | none =>
      if window.skip = 0 then ""
      else (dialect.unboundedLimit?.map fun unbounded => s!" LIMIT {unbounded}").getD "")
    ++ if window.skip = 0 then "" else s!" OFFSET {window.skip}"

namespace Plan

/-- The statement of a plan up to its order. -/
def selection (plan : Plan) : String :=
  plan.heading ++ String.join (plan.joins.map fun join => " " ++ join.sql)
    ++ (match plan.condition with
      | some f => " WHERE " ++ f.sql
      | none => "")

/-- The order of a statement by terms, none if there are none. -/
def orderedBy (terms : List String) : String :=
  if terms = [] then "" else " ORDER BY " ++ ", ".intercalate terms

end Plan

-- ============================================================= the walk

variable {catalog : Catalog} {dialect : Dialect} {scope : Scope} {m : Mapping} {inc : IncludeTree}
  {tableAlias : String} {offset : Nat} {limit : Option Nat} {plan : Plan}

/-- What the walk over included relations leaves for the end of a plan: the
terms of their orders, and whether one of them is to-many. -/
structure IncludeTree.Leaves (dialect : Dialect) (scope : Scope)
    (nested : List (RelationPath × IncludeTree)) (orders : List Fragment) (many : Bool) :
    Prop where
  orders : List.Forall₂ (scope.Sorts dialect) (placedTerms nested) orders
  many : many → ∃ entry ∈ nested, scope.ToMany entry.1

theorem IncludeTree.Leaves.append {nested nested' : List (RelationPath × IncludeTree)}
    {orders orders' : List Fragment} {many many' : Bool}
    (h : IncludeTree.Leaves dialect scope nested orders many)
    (h' : IncludeTree.Leaves dialect scope nested' orders' many') :
    IncludeTree.Leaves dialect scope (nested ++ nested') (orders ++ orders') (many || many') where
  orders := by
    rw [placedTerms, List.flatMap_append]
    exact List.rel_append h.orders h'.orders
  many := by
    intro hmany
    rcases Bool.or_eq_true_iff.1 hmany with hmany | hmany
    · obtain ⟨entry, hentry, hto⟩ := h.many hmany
      exact ⟨entry, List.mem_append_left _ hentry, hto⟩
    · obtain ⟨entry, hentry, hto⟩ := h'.many hmany
      exact ⟨entry, List.mem_append_right _ hentry, hto⟩

/-- Entering a relation leaves the terms of its order. -/
theorem Walk.enter_leaves {walk walk' : Walk} {step : Step} {path : RelationPath}
    {s : Structure} {fields : List String} {filter : Option Clause} {order : List OrderTerm}
    (hleads : scope.Leads path step)
    (h : walk.enter dialect scope.catalog step fields filter order = .ok (s, walk'))
    (relations : List (String × IncludeTree)) :
    ∃ orders, walk'.orders = walk.orders ++ orders
      ∧ IncludeTree.Leaves dialect scope [(path, ⟨fields, relations, filter, order⟩)] orders
        step.relation.kind.isMany := by
  obtain ⟨filter', -, h⟩ := bind_eq_ok.1 h
  obtain ⟨orders, horders, h⟩ := bind_eq_ok.1 h
  obtain ⟨joins, -, h⟩ := bind_eq_ok.1 h
  obtain ⟨fields', -, h⟩ := bind_eq_ok.1 h
  cases pure_eq_ok.1 h
  refine ⟨orders, rfl, ?_, fun hmany => ⟨_, List.mem_singleton_self _, step, hleads, ?_⟩⟩
  · rw [IncludeTree.placedTerms, List.flatMap_singleton, List.forall₂_map_left_iff]
    exact (forall₂_of_mapM horders).imp fun _ _ hf => ⟨step, hleads, hf⟩
  · cases hkind : step.relation.kind with
    | one => rw [hkind] at hmany; cases hmany
    | many => rfl

theorem Structure.hasMany_eq (s : Structure) : s.hasMany = anyMany s.relations := by
  cases s
  rfl

mutual

/-- The walk over an included relation leaves the terms of its order, then
those of the relations below it. -/
theorem IncludeTree.layout_leaves : ∀ {inc : IncludeTree} {here : Scope} {before : RelationPath}
    {name : String} {walk walk' : Walk} {entry : Relation × Structure},
    scope.reach before = .ok here → here.catalog = scope.catalog →
    inc.layout dialect scope.catalog here.mapping here.tableAlias here.aliasPrefix walk name
      = .ok (entry, walk') →
    ∃ orders, walk'.orders = walk.orders ++ orders
      ∧ IncludeTree.Leaves dialect scope (inc.nested before name) orders
        (entry.1.kind.isMany || entry.2.hasMany)
  | ⟨fields, relations, filter, order⟩, here, before, name, walk, walk', entry, hreach, hcatalog,
    h => by
      obtain ⟨step, hstep, h⟩ := bind_eq_ok.1 h
      obtain ⟨⟨s, entered⟩, henter, h⟩ := bind_eq_ok.1 h
      obtain ⟨⟨below, left⟩, hbelow, h⟩ := bind_eq_ok.1 h
      cases pure_eq_ok.1 h
      obtain ⟨hleads, hnext⟩ := Scope.reach_step hreach hcatalog hstep
      obtain ⟨own, howned, hown⟩ := Walk.enter_leaves hleads henter relations
      obtain ⟨more, hmore, hrest⟩ := IncludeTree.layoutEach_leaves hnext hcatalog hbelow
      refine ⟨own ++ more, ?_, ?_⟩
      · rw [hmore, howned, List.append_assoc]
      · rw [Structure.hasMany_eq]
        exact hown.append hrest
termination_by structural inc => inc

/-- The walk over included relations leaves the terms of the orders of all,
and those below them. -/
theorem IncludeTree.layoutEach_leaves : ∀ {relations : List (String × IncludeTree)}
    {here : Scope} {before : RelationPath} {walk walk' : Walk}
    {entries : List (Relation × Structure)},
    scope.reach before = .ok here → here.catalog = scope.catalog →
    IncludeTree.layoutEach dialect scope.catalog here.mapping here.tableAlias here.aliasPrefix walk
      relations = .ok (entries, walk') →
    ∃ orders, walk'.orders = walk.orders ++ orders
      ∧ IncludeTree.Leaves dialect scope (IncludeTree.nestedEach before relations) orders
        (Structure.anyMany entries)
  | [], here, before, walk, walk', entries, _, _, h => by
      cases pure_eq_ok.1 h
      exact ⟨[], (List.append_nil _).symm, .nil, fun hmany => nomatch hmany⟩
  | (name, inc) :: rest, here, before, walk, walk', entries, hreach, hcatalog, h => by
      obtain ⟨⟨entry, between⟩, hentry, h⟩ := bind_eq_ok.1 h
      obtain ⟨⟨more, left⟩, hmore, h⟩ := bind_eq_ok.1 h
      cases pure_eq_ok.1 h
      obtain ⟨own, howned, hown⟩ := IncludeTree.layout_leaves hreach hcatalog hentry
      obtain ⟨others, hothers, hrest⟩ := IncludeTree.layoutEach_leaves hreach hcatalog hmore
      refine ⟨own ++ others, ?_, hown.append hrest⟩
      rw [hothers, howned, List.append_assoc]
termination_by structural relations => relations

end

-- ============================================================ the paging

theorem RelationKind.isMany_iff {kind : RelationKind} : kind.isMany ↔ kind = .many := by
  cases kind <;> decide

/-- A plan counts records exactly if it has a join of a to-many relation. -/
theorem Plan.records_iff
    (h : Plan.build catalog dialect m inc tableAlias offset limit = .ok plan) :
    plan.paging = .records ↔ ∃ join ∈ plan.joins, join.kind = .many := by
  obtain ⟨_, _, _, _, _, _, joins, -, -, -, -, -, -, rfl⟩ := Plan.of_build h
  have hany : (joins.any fun join => join.kind.isMany) ↔ ∃ join ∈ joins, join.kind = .many := by
    simp only [List.any_eq_true, RelationKind.isMany_iff]
  rw [← hany]
  cases joins.any fun join => join.kind.isMany with
  | false => exact ⟨nofun, nofun⟩
  | true => exact ⟨fun _ => rfl, fun _ => rfl⟩

/-- A to-many relation at the end of a path used makes a plan count
records. -/
theorem Plan.records_of_toMany
    (h : Plan.build catalog dialect m inc tableAlias offset limit = .ok plan)
    {path : RelationPath} (hused : path ∈ inc.usedPaths)
    (hto : (IncludeTree.rootScope catalog m tableAlias).ToMany path) : plan.paging = .records := by
  obtain ⟨last, hleads, hmany⟩ := hto
  obtain ⟨join, hjoin, last', filter, hleads', -, rfl⟩ :=
    exists_of_forall₂ (Plan.forall₂_joins h) (List.mem_eraseDups.2 hused)
  cases hleads.unique hleads'
  exact (Plan.records_iff h).2 ⟨_, hjoin, hmany⟩

/-- A join of a plan is that of the step a path used leads to. -/
theorem Plan.leads_of_mem_joins
    (h : Plan.build catalog dialect m inc tableAlias offset limit = .ok plan)
    {join : Join} (hjoin : join ∈ plan.joins) :
    ∃ path ∈ inc.usedPaths, ∃ last filter,
      (IncludeTree.rootScope catalog m tableAlias).Leads path last
        ∧ join = last.join dialect filter := by
  obtain ⟨path, hpath, last, filter, hleads, -, hlast⟩ :=
    exists_of_forall₂ (Plan.forall₂_joins h).flip hjoin
  exact ⟨path, List.mem_eraseDups.1 hpath, last, filter, hleads, hlast⟩

-- ============================================================== the text

/-- The terms of the root's key, in the order of the key. -/
theorem Mapping.Consistent.ascending_keyStructure (h : m.Consistent) (dialect : Dialect)
    (tableAlias outputPrefix : String) :
    ((m.keyStructure tableAlias outputPrefix).map (StructureColumn.ascending dialect)).map
        Fragment.sql
      = m.primaryKey.map fun name => dialect.quoteTableColumn tableAlias name ++ " ASC" := by
  rw [← h.names_keyColumns]
  refine List.ext_getElem? fun i => ?_
  simp only [Mapping.keyStructure, List.getElem?_map, List.getElem?_mapIdx, Option.map_map]
  rfl

/-- The end of a statement that lists fragments is the order by their
texts. -/
theorem Fragment.order_listed (fs : List Fragment) :
    (match Fragment.listed fs with
      | some f => " ORDER BY " ++ f.sql
      | none => "") = Plan.orderedBy (fs.map Fragment.sql) := by
  cases fs <;> rfl

/-- A statement that counts rows ends with its window. -/
theorem Plan.limitText_eq_window (hpaging : plan.paging = .rows) :
    plan.limitText = Window.limitText plan.dialect ⟨plan.offset, plan.limit⟩ := by
  unfold Plan.limitText Window.limitText
  rw [hpaging]
  cases plan.limit with
  | none =>
      cases plan.offset with
      | zero => rfl
      | succ n => cases plan.dialect.unboundedLimit? <;> rfl
  | some limit =>
      cases plan.offset with
      | zero => exact (String.append_empty).symm
      | succ n => exact String.append_assoc

/-- A plan's statement is its selection, its order and its limit. -/
theorem Plan.sql_eq {fs : List Fragment} (horder : plan.order = Fragment.listed fs) :
    plan.sql = plan.selection ++ Plan.orderedBy (fs.map Fragment.sql) ++ plan.limitText := by
  rw [← Fragment.order_listed, ← horder]
  rfl

/-- The order of a plan lists the terms of the root, those of the root's key
where records are counted, and those that the walk leaves. -/
theorem Plan.order_of_build
    (h : Plan.build catalog dialect m inc tableAlias offset limit = .ok plan) :
    ∃ root nested,
      List.Forall₂ (fun term f =>
          term.compile dialect (IncludeTree.rootScope catalog m tableAlias) = .ok f) inc.order root
      ∧ IncludeTree.Leaves dialect (IncludeTree.rootScope catalog m tableAlias)
          (IncludeTree.nestedEach [] inc.relations) nested plan.layout.hasMany
      ∧ plan.order = Fragment.listed (root
          ++ (if plan.paging = .records then
              (m.keyStructure tableAlias "_").map (StructureColumn.ascending dialect)
            else [])
          ++ nested) := by
  obtain ⟨fields, relations, walk, condition, joins, order, joins', -, hwalk, -, -, horder, -,
    rfl⟩ := Plan.of_build h
  set scope := IncludeTree.rootScope catalog m tableAlias
  obtain ⟨nested, hnested, hleaves⟩ :=
    IncludeTree.layoutEach_leaves (show scope.reach [] = .ok scope from rfl) rfl hwalk
  refine ⟨order, nested, Walk.forall₂_of_orderBy horder, hleaves, ?_⟩
  rw [hnested, List.nil_append, Plan.tieBreakers]
  cases joins'.any fun join => join.kind.isMany <;> rfl

theorem Plan.window_of_build
    (h : Plan.build catalog dialect m inc tableAlias offset limit = .ok plan) :
    plan.offset = offset ∧ plan.limit = limit := by
  obtain ⟨_, _, _, _, _, _, _, -, -, -, -, -, -, rfl⟩ := Plan.of_build h
  exact ⟨rfl, rfl⟩

-- ======================================================= the statement

/-- The window of a request is applied once. A plan counts records exactly
if one of its joins follows a to-many relation, which it does for each at
the end of a path used, and so for each in the layout. Then the statement
ends with the order, in which the root's key stands behind the root's terms
and in front of those of included relations, and the reader has the window.
Otherwise the statement ends with the window, and the reader has none. -/
theorem Plan.limits_once (catalog : Catalog) (dialect : Dialect) (m : Mapping)
    (inc : IncludeTree) (tableAlias : String) (offset : Nat) (limit : Option Nat) (plan : Plan)
    (hm : m ∈ catalog.mappings)
    (h : Plan.build catalog dialect m inc tableAlias offset limit = .ok plan) :
    (plan.paging = .records ↔
      ∃ join ∈ plan.joins, ∃ path ∈ inc.usedPaths, ∃ last filter,
        (IncludeTree.rootScope catalog m tableAlias).Leads path last
        ∧ join = last.join dialect filter ∧ last.relation.kind = .many)
    ∧ (∀ path ∈ inc.usedPaths, (IncludeTree.rootScope catalog m tableAlias).ToMany path →
        plan.paging = .records)
    ∧ (plan.layout.hasMany → plan.paging = .records)
    ∧ ∃ root nested,
      List.Forall₂ (fun term f =>
          term.compile dialect (IncludeTree.rootScope catalog m tableAlias) = .ok f) inc.order root
      ∧ List.Forall₂ ((IncludeTree.rootScope catalog m tableAlias).Sorts dialect)
          (IncludeTree.placedTerms (IncludeTree.nestedEach [] inc.relations)) nested
      ∧ (plan.paging = .records →
          plan.window = ⟨offset, limit⟩
          ∧ plan.sql = plan.selection ++ " ORDER BY " ++ ", ".intercalate
            (root.map Fragment.sql
              ++ m.primaryKey.map (fun name => dialect.quoteTableColumn tableAlias name ++ " ASC")
              ++ nested.map Fragment.sql))
      ∧ (plan.paging = .rows →
          plan.window = {}
          ∧ plan.sql = plan.selection
            ++ Plan.orderedBy (root.map Fragment.sql ++ nested.map Fragment.sql)
            ++ Window.limitText dialect ⟨offset, limit⟩) := by
  obtain ⟨root, nested, hroot, hleaves, horder⟩ := Plan.order_of_build h
  obtain ⟨hoffset, hlimit⟩ := Plan.window_of_build h
  have hsql := Plan.sql_eq horder
  refine ⟨⟨fun hrecords => ?_, ?_⟩, fun path => Plan.records_of_toMany h, fun hmany => ?_,
    root, nested, hroot, hleaves.orders, fun hrecords => ⟨?_, ?_⟩, fun hrows => ⟨?_, ?_⟩⟩
  · obtain ⟨join, hjoin, hmany⟩ := (Plan.records_iff h).1 hrecords
    obtain ⟨path, hused, last, filter, hleads, rfl⟩ := Plan.leads_of_mem_joins h hjoin
    exact ⟨_, hjoin, path, hused, last, filter, hleads, rfl, hmany⟩
  · rintro ⟨_, hjoin, path, hused, last, filter, hleads, rfl, hmany⟩
    exact (Plan.records_iff h).2 ⟨_, hjoin, hmany⟩
  · obtain ⟨entry, hentry, hto⟩ := hleaves.many hmany
    exact Plan.records_of_toMany h (List.mem_append_left _ (List.mem_map_of_mem hentry)) hto
  · rw [Plan.window, hrecords, hoffset, hlimit]
  · have hkey := (Catalog.consistent hm).ascending_keyStructure dialect tableAlias "_"
    have hterms : root.map Fragment.sql
        ++ m.primaryKey.map (fun name => dialect.quoteTableColumn tableAlias name ++ " ASC")
        ++ nested.map Fragment.sql ≠ [] := by
      simp [Catalog.primaryKey_ne_nil hm]
    have hunlimited : plan.limitText = "" := by rw [Plan.limitText, hrecords]
    rw [hsql, hunlimited, if_pos hrecords, List.map_append, List.map_append, hkey,
      Plan.orderedBy, if_neg hterms, String.append_empty, String.append_assoc]
  · rw [Plan.window, hrows]
  · have hrecords : plan.paging ≠ .records := by
      rw [hrows]
      decide
    rw [hsql, if_neg hrecords, List.append_nil, List.map_append, Plan.limitText_eq_window hrows,
      (Plan.names_of_build h).1, hoffset, hlimit]

/-- A member with the sponsor, whose order stands alone. -/
def sponsorInclude : IncludeTree where
  relations := [("sponsor", { order := [⟨.field "club", .descending⟩] })]

/-- Members with those that they sponsor are skipped and counted while they
are read; members with their one sponsor are skipped by the statement, which
needs a limit to do so. -/
theorem Plan.limits_members_once : ∃ plan plan',
    Plan.build memberCatalog Flavor.sqlite.dialect memberMapping scopedInclude "m" 2 (some 1)
        = .ok plan
      ∧ plan.paging = .records
      ∧ plan.order.map Fragment.sql
        = some ("\"sponsored\".\"number\" ASC, \"m\".\"club\" ASC, \"m\".\"number\" ASC, "
          ++ "\"sponsor\".\"club\" DESC")
      ∧ plan.window = ⟨2, some 1⟩
      ∧ Plan.build memberCatalog Flavor.mysql.dialect memberMapping sponsorInclude "m" 2 none
        = .ok plan'
      ∧ plan'.paging = .rows
      ∧ ∃ front, plan'.sql = front ++ " LIMIT 18446744073709551615 OFFSET 2" := by
  obtain ⟨plan, hbuild, hpaging, horder⟩ : ∃ plan,
      Plan.build memberCatalog Flavor.sqlite.dialect memberMapping scopedInclude "m" 2 (some 1)
          = .ok plan
        ∧ plan.paging = .records
        ∧ plan.order.map Fragment.sql
          = some ("\"sponsored\".\"number\" ASC, \"m\".\"club\" ASC, \"m\".\"number\" ASC, "
            ++ "\"sponsor\".\"club\" DESC") := ⟨_, rfl, rfl, by decide⟩
  obtain ⟨plan', hbuild', hpaging'⟩ : ∃ plan',
      Plan.build memberCatalog Flavor.mysql.dialect memberMapping sponsorInclude "m" 2 none
          = .ok plan'
        ∧ plan'.paging = .rows := ⟨_, rfl, rfl⟩
  obtain ⟨-, -, -, _, _, -, -, hrecords, -⟩ := Plan.limits_once memberCatalog Flavor.sqlite.dialect
    memberMapping scopedInclude "m" 2 (some 1) plan List.mem_cons_self hbuild
  obtain ⟨-, -, -, _, _, -, -, -, hrows⟩ := Plan.limits_once memberCatalog Flavor.mysql.dialect
    memberMapping sponsorInclude "m" 2 none plan' List.mem_cons_self hbuild'
  exact ⟨plan, plan', hbuild, hpaging, horder, (hrecords hpaging).1, hbuild', hpaging',
    _, (hrows hpaging').2⟩

end RecordQuery
