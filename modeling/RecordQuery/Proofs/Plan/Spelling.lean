/-
Plans of one request for several databases. Nothing but the text of a
plan depends on the database: whether there is a plan and why not, the
joins with their parameters, the layout of the rows, what limits the
statement and what is left to whoever reads the rows are decided by the
request and the catalog.
-/
import RecordQuery.Proofs.Plan.Placeholders
import RecordQuery.Proofs.Statement.Spelling

namespace RecordQuery

variable {d d' : Dialect} {catalog : Catalog}

-- ============================================================= the walk

/-- What two walks have gathered, if it differs in texts alone. -/
structure Walk.Respelled (walk walk' : Walk) : Prop where
  joins : walk.joins.Respelled walk'.joins
  orders : List.Forall₂ Fragment.Respelled walk.orders walk'.orders
  offset : walk.offset = walk'.offset

/-- The results of steps of two walks: the same structures, and what was
gathered. -/
def Walk.Abreast {α : Type} (left right : α × Walk) : Prop :=
  left.1 = right.1 ∧ left.2.Respelled right.2

theorem Walk.enter_alike (hd : d.SameMethods d') {walk walk' : Walk} (h : walk.Respelled walk')
    (step : Step) (fields : List String) (filter : Option Clause) (order : List OrderTerm) :
    Alike Walk.Abreast (walk.enter d catalog step fields filter order)
      (walk'.enter d' catalog step fields filter order) := by
  unfold Walk.enter
  refine (Alike.optionMapM (R := Fragment.Respelled) fun clause =>
    Clause.compile_alike hd clause).bind fun f g hfg => ?_
  refine (Alike.mapM (R := Fragment.Respelled) fun term _ =>
    OrderTerm.compile_alike hd term).bind fun fs gs horders => ?_
  refine (Joins.insert_alike h.joins (step.join_respelled hfg)).bind fun joins joins' hjoins => ?_
  refine (Alike.refl (step.target.fieldStructure step.pathAlias fields)).bind ?_
  rintro columns _ rfl
  rw [h.offset]
  exact .pure ⟨rfl, hjoins, List.rel_append h.orders horders, rfl⟩

mutual

/-- The walk over an included relation finds the same structures. -/
theorem IncludeTree.layout_alike (hd : d.SameMethods d') : ∀ {inc : IncludeTree} {m : Mapping}
    {parent before name : String} {walk walk' : Walk}, walk.Respelled walk' →
    Alike Walk.Abreast (inc.layout d catalog m parent before walk name)
      (inc.layout d' catalog m parent before walk' name)
  | ⟨fields, relations, filter, order⟩, m, parent, before, name, _, _, h => by
      unfold IncludeTree.layout
      refine (Alike.refl (catalog.step m name parent before _)).bind ?_
      rintro step _ rfl
      refine (Walk.enter_alike hd h step fields filter order).bind ?_
      rintro ⟨s, entered⟩ ⟨_, entered'⟩ ⟨rfl, hentered⟩
      refine (IncludeTree.layoutEach_alike hd hentered).bind ?_
      rintro ⟨below, done⟩ ⟨_, done'⟩ ⟨rfl, hdone⟩
      exact .pure ⟨rfl, hdone⟩
termination_by structural inc => inc

theorem IncludeTree.layoutEach_alike (hd : d.SameMethods d') :
    ∀ {relations : List (String × IncludeTree)} {m : Mapping} {parent before : String}
      {walk walk' : Walk}, walk.Respelled walk' →
    Alike Walk.Abreast (IncludeTree.layoutEach d catalog m parent before walk relations)
      (IncludeTree.layoutEach d' catalog m parent before walk' relations)
  | [], _, _, _, _, _, h => .pure ⟨rfl, h⟩
  | (name, inc) :: rest, m, parent, before, _, _, h => by
      unfold IncludeTree.layoutEach
      refine (IncludeTree.layout_alike hd h).bind ?_
      rintro ⟨entry, between⟩ ⟨_, between'⟩ ⟨rfl, hbetween⟩
      refine (IncludeTree.layoutEach_alike hd hbetween).bind ?_
      rintro ⟨more, done⟩ ⟨_, done'⟩ ⟨rfl, hdone⟩
      exact .pure ⟨rfl, hdone⟩
termination_by structural relations => relations

end

/-- The terms of the root order bring the same joins. -/
theorem Walk.orderBy_alike (hd : d.SameMethods d') {scope : Scope} {terms : List OrderTerm} :
    ∀ {joins joins' : Joins}, joins.Respelled joins' →
      Alike (fun left right => List.Forall₂ Fragment.Respelled left.1 right.1
          ∧ left.2.Respelled right.2)
        (Walk.orderBy d scope joins terms) (Walk.orderBy d' scope joins' terms) := by
  induction terms with
  | nil => exact fun h => .pure ⟨.nil, h⟩
  | cons term rest ih =>
      intro joins joins' h
      unfold Walk.orderBy
      refine (OrderTerm.compile_alike hd term).bind fun f g hfg => ?_
      refine (Joins.merge_alike hfg.joins h).bind fun more more' hmore => ?_
      exact (ih hmore).bind fun _ _ hrest => .pure ⟨.cons hfg hrest.1, hrest.2⟩

-- ================================================================ plans

/-- Plans that differ in their statements' texts alone. -/
structure Plan.Respelled (p q : Plan) : Prop where
  params : p.params = q.params
  joins : p.joins.Respelled q.joins
  layout : p.layout = q.layout
  keyColumns : p.keyColumns = q.keyColumns
  selectedColumns : p.selectedColumns = q.selectedColumns
  paging : p.paging = q.paging
  window : p.window = q.window

theorem Fragment.params_respelled {fs gs : List Fragment}
    (h : List.Forall₂ Fragment.Respelled fs gs) :
    fs.flatMap Fragment.params = gs.flatMap Fragment.params := by
  induction h with
  | nil => rfl
  | cons hhead _ ih => rw [List.flatMap_cons, List.flatMap_cons, hhead.params, ih]

/-- Plans of the same parts are alike. -/
theorem Plan.respelled_of_parts {p q : Plan} {order order' nested nested' : List Fragment}
    {k : List StructureColumn} (hjoins : p.joins.Respelled q.joins)
    (hcondition : Option.Rel Fragment.Respelled p.condition q.condition)
    (horder : List.Forall₂ Fragment.Respelled order order')
    (hnested : List.Forall₂ Fragment.Respelled nested nested')
    (hp : p.order = Fragment.listed (order ++ Plan.tieBreakers d p.joins k ++ nested))
    (hq : q.order = Fragment.listed (order' ++ Plan.tieBreakers d' q.joins k ++ nested'))
    (hlayout : p.layout = q.layout) (hpaging : p.paging = q.paging)
    (hlimit : p.limit = q.limit) (hoffset : p.offset = q.offset) : p.Respelled q where
  params := by
    have hfilter : (p.condition.map Fragment.params).getD []
        = (q.condition.map Fragment.params).getD [] := by
      generalize p.condition = f, q.condition = g at hcondition ⊢
      cases hcondition with
      | none => rfl
      | some hfg => exact hfg.params
    unfold Plan.params
    rw [Joins.params_respelled hjoins, hfilter, hp, hq, Fragment.params_listed,
      Fragment.params_listed]
    simp only [List.flatMap_append, Plan.params_tieBreakers, Fragment.params_respelled horder,
      Fragment.params_respelled hnested]
  joins := hjoins
  layout := hlayout
  keyColumns := by unfold Plan.keyColumns; rw [hlayout]
  selectedColumns := by unfold Plan.selectedColumns; rw [hlayout]
  paging := hpaging
  window := by unfold Plan.window; rw [hpaging, hoffset, hlimit]

/-- Dialects that know the same methods build alike. -/
theorem Plan.build_alike (hd : d.SameMethods d') (m : Mapping) (inc : IncludeTree)
    (tableAlias : String) (offset : Nat) (limit : Option Nat) :
    Alike Plan.Respelled (Plan.build catalog d m inc tableAlias offset limit)
      (Plan.build catalog d' m inc tableAlias offset limit) := by
  unfold Plan.build
  refine (Alike.refl (m.fieldStructure tableAlias inc.fields)).bind ?_
  rintro fields _ rfl
  have hstart : Walk.Respelled
      { offset := (m.keyStructure tableAlias "_").length + fields.length }
      { offset := (m.keyStructure tableAlias "_").length + fields.length } :=
    ⟨.nil, .nil, rfl⟩
  refine (IncludeTree.layoutEach_alike hd hstart).bind ?_
  rintro ⟨relations, walk⟩ ⟨_, walk'⟩ ⟨rfl, hwalk⟩
  refine (Alike.optionMapM (R := Fragment.Respelled) fun clause =>
    Clause.compile_alike hd clause).bind fun condition condition' hcondition => ?_
  have hfiltered : Joins.Respelled ((condition.map Fragment.joins).getD [])
      ((condition'.map Fragment.joins).getD []) := by
    cases hcondition with
    | none => exact .nil
    | some hfg => exact hfg.joins
  refine (Joins.merge_alike hfiltered hwalk.joins).bind fun joins joins' hjoins => ?_
  refine (Walk.orderBy_alike hd hjoins).bind ?_
  rintro ⟨order, all⟩ ⟨order', all'⟩ ⟨horder, hall⟩
  refine (Joins.apartFrom_alike hall tableAlias).bind fun _ _ _ => .pure ?_
  have hpaging : (if all.any fun join => join.kind.isMany then Paging.records else Paging.rows)
      = if all'.any fun join => join.kind.isMany then Paging.records else Paging.rows := by
    rw [Joins.any_isMany_respelled hall]
  exact Plan.respelled_of_parts (k := m.keyStructure tableAlias "_") hall hcondition horder
    hwalk.orders rfl rfl rfl hpaging rfl rfl

/-- The database changes a plan's spelling only. For any two of the known
databases a request fails with the same error, or has plans with the same
parameters, the same joins but for their texts, the same layout and
columns, and the same paging and window. -/
theorem Plan.flavors_agree (a b : Flavor) (catalog : Catalog) (m : Mapping) (inc : IncludeTree)
    (tableAlias : String) (offset : Nat) (limit : Option Nat) :
    Alike Plan.Respelled (Plan.build catalog a.dialect m inc tableAlias offset limit)
      (Plan.build catalog b.dialect m inc tableAlias offset limit) :=
  Plan.build_alike (a.sameMethods b) m inc tableAlias offset limit

end RecordQuery
