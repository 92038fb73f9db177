/-
The relations that a request uses. A use is a step to a related table,
with the filter and the order of the include that takes it; paths take
their steps without either. The uses of a request are those of its
includes, parents before what is below them, then those of the paths of
the root filter and of the root order. Of the uses of one alias the first
is kept.

The walk over included relations is followed use by use: `Walk.Took`
says what the walk has gathered of the uses so far, each entered relation
adds one, and so a whole tree of includes adds all of its own.
-/
import RecordQuery.Plan.Build
import RecordQuery.Proofs.Path.Follow
import RecordQuery.Proofs.Statement.Names
import RecordQuery.Proofs.Statement.Rendering

namespace RecordQuery

/-- A step to a related table, with the filter and the order of the
include that takes it. -/
structure Use where
  step : Step
  filter : Option Clause := none
  order : List OrderTerm := []

namespace Use

/-- The use of a step by a path. -/
def ofStep (step : Step) : Use :=
  { step }

/-- Where the filter and order of a use are looked up: in the table that
is joined. -/
def scope (catalog : Catalog) (u : Use) : Scope :=
  { catalog, mapping := u.step.target, tableAlias := u.step.pathAlias
    relation := some u.step.relation.field }

/-- The join of a use as it is written, its filter in the condition. -/
def written (dialect : Dialect) (catalog : Catalog) (u : Use) : Writing :=
  .ofText (u.step.join dialect none).sql ++
    match u.filter with
    | some filter => .ofText " AND " ++ filter.written dialect (u.scope catalog)
    | none => []

/-- The literals in the condition of a use's join. -/
def literals (u : Use) : List Value :=
  (u.filter.map Clause.literals).getD []

/-- The join of a use. -/
def join (dialect : Dialect) (catalog : Catalog) (u : Use) : Join :=
  { u.step.join dialect none with
    sql := String.ofList (u.written dialect catalog).chars
    params := u.literals }

/-- The terms of the order of a use, each with the use. -/
def terms (u : Use) : List (Use × OrderTerm) :=
  u.order.map fun term => (u, term)

end Use

mutual

/-- The uses of an included relation: its own, then those below it. -/
def IncludeTree.uses (catalog : Catalog) (m : Mapping) (parent before name : String) :
    IncludeTree → List Use
  | ⟨_, relations, filter, order⟩ =>
    match catalog.step m name parent before "" with
    | .ok step =>
      ⟨step, filter, order⟩ ::
        IncludeTree.usesEach catalog step.target step.pathAlias step.pathAlias relations
    | .error _ => []
termination_by structural inc => inc

/-- The uses of included relations, one after the other. -/
def IncludeTree.usesEach (catalog : Catalog) (m : Mapping) (parent before : String) :
    List (String × IncludeTree) → List Use
  | [] => []
  | (name, inc) :: rest =>
    inc.uses catalog m parent before name ++ IncludeTree.usesEach catalog m parent before rest
termination_by structural relations => relations

end

section Request

variable (catalog : Catalog) (m : Mapping) (tableAlias : String) (inc : IncludeTree)

/-- Where the root filter and order are looked up. -/
def IncludeTree.rootScope : Scope :=
  { catalog, mapping := m, tableAlias }

/-- The uses of the included relations of a request. -/
def IncludeTree.includedUses : List Use :=
  IncludeTree.usesEach catalog m tableAlias "" inc.relations

/-- The steps that the paths of the root filter take, then those of the
root order. -/
def IncludeTree.pathSteps : List Step :=
  (inc.filter.map (Clause.steps (IncludeTree.rootScope catalog m tableAlias))).getD [] ++
    inc.order.flatMap fun term =>
      term.element.steps (IncludeTree.rootScope catalog m tableAlias)

/-- All uses of a request. -/
def IncludeTree.allUses : List Use :=
  inc.includedUses catalog m tableAlias ++
    (inc.pathSteps catalog m tableAlias).map Use.ofStep

/-- The uses of a request, of those with one alias the first. -/
def IncludeTree.keptUses : List Use :=
  firstsBy (fun u => Casing.fold u.step.pathAlias) (inc.allUses catalog m tableAlias)

end Request

-- ============================================================ one use

variable {dialect : Dialect} {catalog : Catalog}

/-- A filter stands behind the rest of a join's text. -/
theorem Step.join_sql (step : Step) (filter : Option Fragment) :
    (step.join dialect filter).sql = (step.join dialect none).sql ++
      (match filter with
        | some f => " AND " ++ f.sql
        | none => "") := by
  cases filter with
  | none => rw [String.append_empty]
  | some f =>
      show _ ++ (" AND " ++ f.sql) = _ ++ "" ++ (" AND " ++ f.sql)
      rw [String.append_empty]

/-- A path's step is used without a filter: its join is that of the
step. -/
theorem Use.join_ofStep (step : Step) :
    Use.join dialect catalog (.ofStep step) = step.join dialect none := by
  have hsql : String.ofList (Writing.chars (Use.written dialect catalog (.ofStep step)))
      = (step.join dialect none).sql := by
    rw [Use.written, Writing.chars_append, Writing.chars_ofText]
    simp only [Use.ofStep, Writing.chars_nil, List.append_nil, String.ofList_toList]
  unfold Use.join
  rw [hsql]
  rfl

/-- The join of an included relation is that of its use. -/
theorem Use.join_included {u : Use} {filter : Option Fragment} (hd : dialect.Lawful)
    (h : u.filter.mapM (Clause.compile dialect (u.scope catalog)) = .ok filter) :
    u.step.join dialect filter = u.join dialect catalog := by
  have hsql : (u.step.join dialect filter).sql
      = String.ofList (u.written dialect catalog).chars := by
    rw [Step.join_sql, Use.written, Writing.chars_append, Writing.chars_ofText,
      ← String.toList_inj, String.toList_append, String.toList_ofList]
    rcases option_mapM_eq_ok h with ⟨hnone, rfl⟩ | ⟨clause, f, hsome, rfl, hf⟩
    · simp [hnone]
    · have hrender := Clause.compile_renders hd hf
      simp only [hsome, String.toList_append, Writing.chars_append, Writing.chars_ofText,
        hrender.sql]
  have hparams : (u.step.join dialect filter).params = u.literals := by
    rcases option_mapM_eq_ok h with ⟨hnone, rfl⟩ | ⟨clause, f, hsome, rfl, hf⟩
    · simp [Use.literals, hnone, Step.join]
    · simp [Use.literals, hsome, Step.join, (Clause.compile_renders hd hf).params]
  unfold Use.join
  rw [← hsql, ← hparams]
  rfl

/-- A use whose join is soundly written, with its literals. -/
structure Use.IsWritten (dialect : Dialect) (catalog : Catalog) (u : Use) : Prop where
  sound : (u.written dialect catalog).Sound
  literals : (u.written dialect catalog).literals = u.literals

theorem Dialect.Lawful.quotes (hd : dialect.Lawful) : dialect.Quotes Writing.Sound :=
  ⟨Writing.Sound.adjoining, hd.quoteTable, hd.quoteColumn⟩

theorem Use.IsWritten.ofStep (hd : dialect.Lawful) (step : Step) :
    (Use.ofStep step).IsWritten dialect catalog where
  sound := (hd.quotes.join step).append .nil
  literals := by simp [Use.written, Use.literals, Use.ofStep]

theorem Use.IsWritten.included {u : Use} {filter : Option Fragment} (hd : dialect.Lawful)
    (h : u.filter.mapM (Clause.compile dialect (u.scope catalog)) = .ok filter) :
    u.IsWritten dialect catalog := by
  rcases option_mapM_eq_ok h with ⟨hnone, -⟩ | ⟨clause, f, hsome, -, hf⟩
  · constructor
    · rw [Use.written, hnone]
      exact (hd.quotes.join u.step).append .nil
    · simp [Use.written, Use.literals, hnone]
  · have hrender := Clause.compile_renders hd hf
    constructor
    · rw [Use.written, hsome]
      exact (hd.quotes.join u.step).append ((Writing.Sound.plain (by decide)).append hrender.sound)
    · simp [Use.written, Use.literals, hsome, hrender.written]

-- ============================================================ the walk

/-- What the walk has gathered of uses: their joins, each kept where it is
used first and soundly written, and fragments that render their
orders. -/
structure Walk.Took (dialect : Dialect) (catalog : Catalog) (walk : Walk) (uses : List Use) :
    Prop where
  written : ∀ u ∈ uses, u.IsWritten dialect catalog
  joins : walk.joins = Joins.firsts (uses.map (Use.join dialect catalog))
  orders : List.Forall₂ (fun f (use : Use × OrderTerm) =>
    f.Renders dialect (use.2.written dialect (use.1.scope catalog)) use.2.element.literals
      (use.2.element.steps (use.1.scope catalog))) walk.orders (uses.flatMap Use.terms)

/-- Entering a relation adds one use. -/
theorem Walk.Took.enter {walk walk' : Walk} {uses : List Use} {step : Step}
    {fields : List String} {filter : Option Clause} {order : List OrderTerm} {s : Structure}
    (hd : dialect.Lawful) (hwalk : walk.Took dialect catalog uses)
    (h : walk.enter dialect catalog step fields filter order = .ok (s, walk')) :
    walk'.Took dialect catalog (uses ++ [⟨step, filter, order⟩]) := by
  obtain ⟨filter', hfilter, h⟩ := bind_eq_ok.1 h
  obtain ⟨orders, horders, h⟩ := bind_eq_ok.1 h
  obtain ⟨joins, hjoins, h⟩ := bind_eq_ok.1 h
  obtain ⟨fields', -, h⟩ := bind_eq_ok.1 h
  cases pure_eq_ok.1 h
  have hjoin : step.join dialect filter' = Use.join dialect catalog ⟨step, filter, order⟩ :=
    Use.join_included (u := ⟨step, filter, order⟩) hd hfilter
  constructor
  · intro u hu
    rcases List.mem_append.1 hu with hu | hu
    · exact hwalk.written u hu
    · cases List.mem_singleton.1 hu
      exact .included hd hfilter
  · rw [hjoin, hwalk.joins] at hjoins
    rw [List.map_append]
    exact Joins.insert_firsts hjoins
  · rw [List.flatMap_append]
    apply List.rel_append hwalk.orders
    have hall := forall₂_of_mapM horders
    simp only [List.flatMap_cons, List.flatMap_nil, List.append_nil, Use.terms]
    rw [List.forall₂_map_right_iff]
    exact hall.flip.imp fun _ _ hf => OrderTerm.compile_renders hd hf

mutual

/-- The walk over an included relation adds its uses. -/
theorem IncludeTree.layout_took (hd : dialect.Lawful) : ∀ {inc : IncludeTree} {m : Mapping}
    {parent before name : String} {walk walk' : Walk} {uses : List Use}
    {entry : Relation × Structure}, walk.Took dialect catalog uses →
    inc.layout dialect catalog m parent before walk name = .ok (entry, walk') →
    walk'.Took dialect catalog (uses ++ inc.uses catalog m parent before name)
  | ⟨fields, relations, filter, order⟩, m, parent, before, name, walk, walk', uses, entry,
    hwalk, h => by
      obtain ⟨step, hstep, h⟩ := bind_eq_ok.1 h
      obtain ⟨⟨s, entered⟩, henter, h⟩ := bind_eq_ok.1 h
      obtain ⟨⟨below, left⟩, hbelow, h⟩ := bind_eq_ok.1 h
      cases pure_eq_ok.1 h
      have hall := IncludeTree.layoutEach_took hd (hwalk.enter hd henter) hbelow
      rw [IncludeTree.uses, Catalog.step_of_path hstep ""]
      simpa [List.append_assoc] using hall
termination_by structural inc => inc

/-- The walk over included relations adds the uses of each. -/
theorem IncludeTree.layoutEach_took (hd : dialect.Lawful) :
    ∀ {relations : List (String × IncludeTree)} {m : Mapping} {parent before : String}
      {walk walk' : Walk} {uses : List Use} {entries : List (Relation × Structure)},
    walk.Took dialect catalog uses →
    IncludeTree.layoutEach dialect catalog m parent before walk relations = .ok (entries, walk') →
    walk'.Took dialect catalog (uses ++ IncludeTree.usesEach catalog m parent before relations)
  | [], m, parent, before, walk, walk', uses, entries, hwalk, h => by
      cases pure_eq_ok.1 h
      simpa [IncludeTree.usesEach] using hwalk
  | (name, inc) :: rest, m, parent, before, walk, walk', uses, entries, hwalk, h => by
      obtain ⟨⟨entry, between⟩, hentry, h⟩ := bind_eq_ok.1 h
      obtain ⟨⟨more, left⟩, hmore, h⟩ := bind_eq_ok.1 h
      cases pure_eq_ok.1 h
      have hall := IncludeTree.layoutEach_took hd (IncludeTree.layout_took hd hwalk hentry) hmore
      rw [IncludeTree.usesEach, ← List.append_assoc]
      exact hall
termination_by structural relations => relations

end

-- =============================================================== orders

/-- The joins of steps added to those of uses. -/
theorem Joins.merge_uses {uses : List Use} {steps : List Step} {more : Joins}
    (h : (Joins.firsts (uses.map (Use.join dialect catalog))).merge
      (Joins.ofSteps dialect steps) = .ok more) :
    more = Joins.firsts ((uses ++ steps.map Use.ofStep).map (Use.join dialect catalog)) := by
  have hsteps : steps.map (fun step => step.join dialect none)
      = (steps.map Use.ofStep).map (Use.join dialect catalog) := by
    rw [List.map_map]
    exact List.map_congr_left fun step _ => (Use.join_ofStep step).symm
  have hmore := Joins.merge_firsts h
  unfold Joins.ofSteps at hmore
  rw [hsteps, Joins.firsts, Joins.firsts, firstsBy_append_firstsBy, ← List.map_append] at hmore
  exact hmore

/-- The terms of the root order render what they are written as, and add
the steps of their paths. -/
theorem Walk.orderBy_renders (hd : dialect.Lawful) {scope : Scope} {terms : List OrderTerm} :
    ∀ {uses : List Use} {more : Joins} {fs : List Fragment},
      Walk.orderBy dialect scope (Joins.firsts (uses.map (Use.join dialect catalog))) terms
        = .ok (fs, more) →
      more = Joins.firsts ((uses ++ (terms.flatMap fun term : OrderTerm =>
          term.element.steps scope).map Use.ofStep).map (Use.join dialect catalog))
        ∧ List.Forall₂ (fun f (term : OrderTerm) => f.Renders dialect
          (term.written dialect scope) term.element.literals (term.element.steps scope))
          fs terms := by
  induction terms with
  | nil =>
      intro uses more fs h
      cases pure_eq_ok.1 h
      exact ⟨by simp, .nil⟩
  | cons term rest ih =>
      intro uses more fs h
      obtain ⟨f, hf, h⟩ := bind_eq_ok.1 h
      obtain ⟨joins, hjoins, h⟩ := bind_eq_ok.1 h
      obtain ⟨⟨fs', more'⟩, hrest, h⟩ := bind_eq_ok.1 h
      cases pure_eq_ok.1 h
      have hrender := OrderTerm.compile_renders hd hf
      rw [hrender.joins] at hjoins
      rw [Joins.merge_uses hjoins] at hrest
      obtain ⟨hmore, hall⟩ := ih hrest
      refine ⟨?_, .cons hrender hall⟩
      rw [hmore, List.flatMap_cons, List.map_append (f := Use.ofStep), List.append_assoc]

end RecordQuery
