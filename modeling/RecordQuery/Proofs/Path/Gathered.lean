/-
What the joins of a compiled piece are, one by one. A request takes paths
to related tables: an include takes its path with its filter, a field
takes the beginnings of its path without one. Each path taken has a join,
which is determined by the path and the filter, and a piece that is put
together from others has the joins of all the paths taken in it, in the
order in which they are taken, each alias kept where it comes first.

Where an alias is that of one path, this leaves one join for each path,
with the filter that the path was first taken with.
-/
import RecordQuery.Proofs.Path.Compiled

namespace RecordQuery

/-- A path taken to a related table, with the filter of the include that
takes it. -/
abbrev TakenPath := RelationPath × Option Clause

/-- The paths that a field takes, the shorter before the longer. -/
def FieldPath.taken (path : String) : List TakenPath :=
  (relationPaths path).map fun p => (p, none)

/-- The paths that the fields written in a clause take. -/
def Clause.taken (clause : Clause) : List TakenPath :=
  clause.atFields FieldPath.taken

/-- The paths that the fields of an element take. -/
def Element.taken (element : Element) : List TakenPath :=
  element.atFields FieldPath.taken

variable {dialect : Dialect} {scope : Scope}

-- =============================================================== a path

/-- A join written for a path: under the path's alias, from the table on
its left, on the column pairs of its last relation, with a filter behind
them if there is one. -/
structure Join.IsOf (dialect : Dialect) (root : String) (path : RelationPath) (last : Step)
    (filter : Option Fragment) (join : Join) : Prop where
  tableAlias : join.tableAlias = path.tableAlias
  source : join.source = path.source root
  kind : join.kind = last.relation.kind
  sql : join.sql = "LEFT JOIN " ++ dialect.quoteTable last.target.table ++ " AS "
    ++ dialect.quoteTable path.tableAlias ++ " ON "
    ++ " AND ".intercalate (last.relation.pairs.map fun pair =>
      dialect.quoteTableColumn (RelationPath.aliasUnder root path.dropLast) pair.own ++ " = "
        ++ dialect.quoteTableColumn path.tableAlias pair.remote)
    ++ (match filter with
      | some f => " AND " ++ f.sql
      | none => "")
  params : join.params = (filter.map Fragment.params).getD []

/-- The join of the step that a path leads to is written for the path. -/
theorem Scope.Leads.isOf_join {path : RelationPath} {last : Step} (hbare : scope.aliasPrefix = "")
    (h : scope.Leads path last) (filter : Option Fragment) :
    (last.join dialect filter).IsOf dialect scope.tableAlias path last filter := by
  obtain ⟨halias, hleft, hsource⟩ := h.aliases hbare
  refine ⟨halias, hsource, rfl, ?_, rfl⟩
  rw [← halias, ← hleft]
  rfl

/-- The join of a path taken: that of the step the path leads to, with the
filter as it is compiled for the table that is joined. -/
def Scope.JoinOf (dialect : Dialect) (scope : Scope) (taken : TakenPath) (join : Join) : Prop :=
  ∃ last filter, scope.Leads taken.1 last
    ∧ taken.2.mapM (Clause.compile dialect (scope.within last)) = .ok filter
    ∧ join = last.join dialect filter

/-- A path taken without a filter has the join of its step. -/
theorem Scope.Leads.joinOf {path : RelationPath} {last : Step} (h : scope.Leads path last) :
    scope.JoinOf dialect (path, none) (last.join dialect none) :=
  ⟨last, none, h, rfl, rfl⟩

namespace Scope.JoinOf

variable {taken : TakenPath} {join join' : Join}

theorem names (hbare : scope.aliasPrefix = "") (h : scope.JoinOf dialect taken join) :
    join.tableAlias = taken.1.tableAlias ∧ join.source = taken.1.source scope.tableAlias := by
  obtain ⟨last, filter, hleads, -, rfl⟩ := h
  have hjoin : (last.join dialect filter).IsOf dialect scope.tableAlias taken.1 last filter :=
    hleads.isOf_join hbare filter
  exact ⟨hjoin.tableAlias, hjoin.source⟩

/-- A path taken with a filter has one join. -/
theorem unique (h : scope.JoinOf dialect taken join) (h' : scope.JoinOf dialect taken join') :
    join = join' := by
  obtain ⟨last, filter, hleads, hfilter, rfl⟩ := h
  obtain ⟨last', filter', hleads', hfilter', rfl⟩ := h'
  cases hleads.unique hleads'
  rw [hfilter] at hfilter'
  cases hfilter'
  rfl

end Scope.JoinOf

-- ============================================================= gathered

/-- Joins that are those of paths taken, of each alias the first. -/
def Scope.Gathers (dialect : Dialect) (scope : Scope) (taken : List TakenPath) (joins : Joins) :
    Prop :=
  ∃ brought, List.Forall₂ (scope.JoinOf dialect) taken brought ∧ joins = Joins.firsts brought

namespace Scope.Gathers

variable {taken taken' : List TakenPath} {joins more all : Joins}

theorem nil : scope.Gathers dialect [] [] :=
  ⟨[], .nil, rfl⟩

/-- Joins put together are those of all the paths taken. -/
theorem merge (h : scope.Gathers dialect taken joins) (hmore : scope.Gathers dialect taken' more)
    (hall : joins.merge more = .ok all) : scope.Gathers dialect (taken ++ taken') all := by
  obtain ⟨brought, hbrought, rfl⟩ := h
  obtain ⟨brought', hbrought', rfl⟩ := hmore
  refine ⟨brought ++ brought', List.rel_append hbrought hbrought', ?_⟩
  rw [Joins.merge_firsts hall]
  unfold Joins.firsts
  rw [firstsBy_append_firstsBy]

/-- A join added is that of one more path taken. -/
theorem insert {join : Join} {last : TakenPath} (h : scope.Gathers dialect taken joins)
    (hjoin : scope.JoinOf dialect last join) (hall : joins.insert join = .ok all) :
    scope.Gathers dialect (taken ++ [last]) all := by
  obtain ⟨brought, hbrought, rfl⟩ := h
  exact ⟨brought ++ [join], List.rel_append hbrought (.cons hjoin .nil), Joins.insert_firsts hall⟩

/-- Where an alias is that of one path, there is one join for each path, of
those with which a path is taken the first. -/
theorem kept (hbare : scope.aliasPrefix = "") (h : scope.Gathers dialect taken joins)
    (hone : ∀ p ∈ taken.map Prod.fst, ∀ q ∈ taken.map Prod.fst,
      Casing.fold p.tableAlias = Casing.fold q.tableAlias → p = q) :
    List.Forall₂ (scope.JoinOf dialect) (firstsBy Prod.fst taken) joins := by
  obtain ⟨brought, hbrought, rfl⟩ := h
  refine forall₂_firstsBy hbrought fun t j t' j' hj hj' ht ht' => ?_
  rw [(hj.names hbare).1, (hj'.names hbare).1, Bool.eq_iff_iff, beq_iff_eq, beq_iff_eq]
  exact ⟨fun heq => heq ▸ rfl, hone _ (List.mem_map_of_mem ht) _ (List.mem_map_of_mem ht')⟩

end Scope.Gathers

-- ============================================================ fragments

namespace Fragment

variable {f g whole : Fragment} {taken taken' : List TakenPath}

/-- Text around a fragment adds no joins. -/
theorem gathers_wrap (before after : String) (hf : scope.Gathers dialect taken f.joins) :
    scope.Gathers dialect taken (f.wrap before after).joins := hf

theorem gathers_append (hf : scope.Gathers dialect taken f.joins)
    (hg : scope.Gathers dialect taken' g.joins) (h : f.append g = .ok whole) :
    scope.Gathers dialect (taken ++ taken') whole.joins := by
  obtain ⟨joins, hjoins, rfl⟩ := map_eq_ok.1 h
  exact hf.merge hg hjoins

variable {α : Type} {found : α → List TakenPath} {separator : String}

theorem gathers_appendAll {fs : List Fragment} {xs : List α}
    (hall : List.Forall₂ (fun x f => scope.Gathers dialect (found x) f.joins) xs fs) :
    ∀ {f whole : Fragment} {taken : List TakenPath}, scope.Gathers dialect taken f.joins →
      Fragment.appendAll separator f fs = .ok whole →
      scope.Gathers dialect (taken ++ xs.flatMap found) whole.joins := by
  induction hall with
  | nil =>
      intro f whole taken hf h
      cases h
      rwa [List.flatMap_nil, List.append_nil]
  | cons hhead _ ih =>
      intro f whole taken hf h
      rw [Fragment.appendAll, bind_eq_ok] at h
      obtain ⟨both, hboth, h⟩ := h
      rw [List.flatMap_cons, ← List.append_assoc]
      exact ih (gathers_append (gathers_wrap "" separator hf) hhead hboth) h

/-- Fragments with a separator between them have the joins of all. -/
theorem gathers_join {fs : List Fragment} {xs : List α}
    (hall : List.Forall₂ (fun x f => scope.Gathers dialect (found x) f.joins) xs fs)
    (h : Fragment.join separator fs = .ok whole) :
    scope.Gathers dialect (xs.flatMap found) whole.joins := by
  cases hall with
  | nil =>
      cases h
      exact .nil
  | cons hhead hrest => exact gathers_appendAll hrest hhead h

end Fragment

-- ============================================================= elements

/-- A field has the joins of the paths it takes. -/
theorem Scope.gathers_of_field {path : String} {f : Fragment}
    (h : scope.field dialect path = .ok f) :
    scope.Gathers dialect (FieldPath.taken path) f.joins := by
  unfold Scope.field at h
  split at h
  · next hdot =>
    rw [Bool.not_eq_true'] at hdot
    obtain ⟨c, -, rfl⟩ := map_eq_ok.1 h
    rw [FieldPath.taken, FieldPath.relationPaths, FieldPath.split_of_not_dotted hdot]
    exact .nil
  · split at h
    · cases h
    · obtain ⟨resolved, hresolved, h⟩ := bind_eq_ok.1 h
      obtain ⟨joins, hjoins, h⟩ := bind_eq_ok.1 h
      cases pure_eq_ok.1 h
      refine ⟨_, ?_, Scope.joins_eq_ofSteps hjoins⟩
      rw [FieldPath.taken, List.forall₂_map_left_iff, List.forall₂_map_right_iff]
      exact (leads_of_resolve hresolved).imp fun _ _ hleads => hleads.joinOf

/-- None of the paths that a field takes has the alias of the root. -/
theorem Scope.apart_of_field {path : String} {f : Fragment} (hbare : scope.aliasPrefix = "")
    (h : scope.field dialect path = .ok f) :
    scope.Joined dialect f.joins (FieldPath.relationPaths path)
      ∧ ∀ p ∈ FieldPath.relationPaths path,
        Casing.fold p.tableAlias ≠ Casing.fold scope.tableAlias := by
  unfold Scope.field at h
  split at h
  · next hdot =>
    rw [Bool.not_eq_true'] at hdot
    obtain ⟨c, -, rfl⟩ := map_eq_ok.1 h
    rw [FieldPath.relationPaths, FieldPath.split_of_not_dotted hdot]
    exact ⟨.nil, fun p hp => absurd hp List.not_mem_nil⟩
  · split at h
    · cases h
    · obtain ⟨resolved, hresolved, h⟩ := bind_eq_ok.1 h
      obtain ⟨joins, hjoins, h⟩ := bind_eq_ok.1 h
      cases pure_eq_ok.1 h
      obtain ⟨merged, hmerged, hjoins⟩ := bind_eq_ok.1 hjoins
      obtain ⟨⟨⟩, hapart, hjoins⟩ := bind_eq_ok.1 hjoins
      cases pure_eq_ok.1 hjoins
      have hjoined := (Joined.merge_steps hbare (leads_of_resolve hresolved) .nil
        (List.Subset.refl _)).ok hmerged
      exact ⟨hjoined, (hjoined.apartFrom hbare (List.Subset.refl _)).ok hapart⟩

/-- A field has a join for each path it takes. -/
theorem Scope.exists_join_of_field {path : String} {f : Fragment} (hbare : scope.aliasPrefix = "")
    (h : scope.field dialect path = .ok f) :
    ∀ p ∈ FieldPath.relationPaths path, ∃ join ∈ f.joins, scope.JoinOf dialect (p, none) join := by
  intro p hp
  obtain ⟨hjoined, hapart⟩ := Scope.apart_of_field hbare h
  have htaken : (FieldPath.taken path).map Prod.fst = FieldPath.relationPaths path := by
    rw [FieldPath.taken, List.map_map]
    exact List.map_id _
  have hkept := (Scope.gathers_of_field h).kept hbare ?_
  · rw [← htaken, ← mem_map_firstsBy] at hp
    obtain ⟨t, ht, rfl⟩ := List.mem_map.1 hp
    obtain ⟨join, hjoin, hof⟩ := exists_of_forall₂ hkept ht
    obtain ⟨q, -, rfl⟩ := List.mem_map.1 (mem_of_mem_firstsBy ht)
    exact ⟨join, hjoin, hof⟩
  · rw [htaken]
    exact fun p hp q hq => hjoined.eq_of_tableAlias hbare (.prefixes _) hapart hp hq

mutual

/-- A compiled element has the joins of the paths that its fields take. -/
theorem Element.gathers_of_compile : ∀ {element : Element} {f : Fragment},
    element.compile dialect scope = .ok f → scope.Gathers dialect element.taken f.joins
  | .value v, f, h => by
      cases pure_eq_ok.1 h
      exact .nil
  | .field path, f, h => Scope.gathers_of_field h
  | .method name args, f, h => by
      obtain ⟨template, -, h⟩ := bind_eq_ok.1 h
      obtain ⟨compiled, hargs, h⟩ := bind_eq_ok.1 h
      cases pure_eq_ok.1 h
      have hnone : scope.Gathers dialect [] ({} : Arguments).joins := .nil
      exact Element.gathers_of_compileArgs hnone hargs
termination_by structural element => element

/-- Compiled arguments have the joins of all of them. -/
theorem Element.gathers_of_compileArgs : ∀ {args : List Element} {sofar done : Arguments}
    {taken : List TakenPath}, scope.Gathers dialect taken sofar.joins →
    Element.compileArgs dialect scope sofar args = .ok done →
    scope.Gathers dialect (taken ++ Element.collectEach (fun _ => []) FieldPath.taken args)
      done.joins
  | [], sofar, done, taken, hsofar, h => by
      cases pure_eq_ok.1 h
      rwa [Element.collectEach, List.append_nil]
  | arg :: rest, sofar, done, taken, hsofar, h => by
      obtain ⟨f, hf, h⟩ := bind_eq_ok.1 h
      obtain ⟨more, hmore, h⟩ := bind_eq_ok.1 h
      obtain ⟨joins, hjoins, rfl⟩ := map_eq_ok.1 hmore
      rw [Element.collectEach, ← List.append_assoc]
      exact Element.gathers_of_compileArgs
        (hsofar.merge (Element.gathers_of_compile hf) hjoins) h
termination_by structural args => args

end

/-- Compiled elements with commas between them have the joins of all. -/
theorem Element.gathers_of_compileList {elements : List Element} {f : Fragment}
    (h : Element.compileList dialect scope elements = .ok f) :
    scope.Gathers dialect (elements.flatMap Element.taken) f.joins := by
  obtain ⟨fs, hfs, h⟩ := bind_eq_ok.1 h
  exact Fragment.gathers_join
    ((forall₂_of_mapM hfs).imp fun _ _ hf => Element.gathers_of_compile hf) h

-- ============================================================== clauses

theorem Comparison.gathers_of_compile {comparison : Comparison} {lhs rhs : Element}
    {f : Fragment} (h : comparison.compile dialect scope lhs rhs = .ok f) :
    scope.Gathers dialect (lhs.taken ++ rhs.taken) f.joins := by
  obtain ⟨left, hleft, h⟩ := bind_eq_ok.1 h
  obtain ⟨right, hright, h⟩ := bind_eq_ok.1 h
  obtain ⟨whole, hwhole, h⟩ := bind_eq_ok.1 h
  cases pure_eq_ok.1 h
  have hboth := Fragment.gathers_append
    (Fragment.gathers_wrap _ _ (Element.gathers_of_compile hleft))
    (Element.gathers_of_compile hright) hwhole
  split
  · exact Fragment.gathers_wrap _ _ hboth
  · exact hboth

/-- A compiled membership has the joins of its tuples, in an empty list
none. -/
theorem Clause.gathers_of_compileIn {lhs : List Element} {rows : List (List Element)}
    {f : Fragment} (h : Clause.compileIn dialect scope lhs rows = .ok f) :
    scope.Gathers dialect (Clause.isIn lhs rows).taken f.joins := by
  obtain ⟨-, left, hleft, hrows⟩ := Clause.of_compileIn h
  unfold Clause.taken Clause.atFields Clause.collect
  rcases hrows with ⟨rfl, rfl⟩ | ⟨hne, tuples, list, whole, htuples, hlist, hwhole, rfl⟩
  · exact .nil
  · rw [if_neg (by rwa [List.isEmpty_iff])]
    have htuple : List.Forall₂ (fun row f =>
        scope.Gathers dialect (List.flatMap Element.taken row) f.joins) rows tuples := by
      refine (forall₂_of_mapM htuples).imp fun row f hf => ?_
      obtain ⟨tuple, hlist, hf⟩ := bind_eq_ok.1 hf
      cases pure_eq_ok.1 hf
      rw [Fragment.joins_tuple]
      exact Element.gathers_of_compileList hlist
    have hlhs : scope.Gathers dialect (lhs.flatMap Element.taken)
        (left.tuple lhs.length).joins := by
      rw [Fragment.joins_tuple]
      exact Element.gathers_of_compileList hleft
    exact Fragment.gathers_wrap _ _ (Fragment.gathers_append
      (Fragment.gathers_wrap _ _ hlhs) (Fragment.gathers_join htuple hlist) hwhole)

/-- A group has the joins of its members. -/
theorem Fragment.gathers_group {separator : String} {clauses : List Clause}
    {fs : List Fragment} {f : Fragment}
    (hall : List.Forall₂ (fun clause f => scope.Gathers dialect (Clause.taken clause) f.joins)
      clauses fs)
    (h : (do
      let f ← Fragment.join separator fs
      pure f.parenthesize) = .ok f) :
    scope.Gathers dialect (Clause.collectEach (fun _ => []) FieldPath.taken clauses) f.joins := by
  obtain ⟨whole, hwhole, h⟩ := bind_eq_ok.1 h
  cases pure_eq_ok.1 h
  rw [Clause.collectEach_eq_flatMap]
  exact Fragment.gathers_wrap _ _ (Fragment.gathers_join hall hwhole)

mutual

/-- A compiled clause has the joins of the paths that the fields written in
it take. -/
theorem Clause.gathers_of_compile : ∀ {clause : Clause} {f : Fragment},
    clause.compile dialect scope = .ok f → scope.Gathers dialect clause.taken f.joins
  | .compare comparison lhs rhs, f, h => Comparison.gathers_of_compile h
  | .not operand, f, h => by
      obtain ⟨inner, hinner, h⟩ := bind_eq_ok.1 h
      cases pure_eq_ok.1 h
      have hoperand := Clause.gathers_of_compile hinner
      show scope.Gathers dialect operand.taken _
      exact Fragment.gathers_wrap _ _ hoperand
  | .and operands, f, h => by
      rw [Clause.compile] at h
      split at h
      · obtain ⟨_, hthrow, -⟩ := bind_eq_ok.1 h
        exact absurd hthrow throw_ne_ok
      · obtain ⟨fs, hfs, h⟩ := bind_eq_ok.1 h
        exact Fragment.gathers_group (Clause.gathers_of_compileEach hfs) h
  | .or operands, f, h => by
      rw [Clause.compile] at h
      split at h
      · obtain ⟨_, hthrow, -⟩ := bind_eq_ok.1 h
        exact absurd hthrow throw_ne_ok
      · obtain ⟨fs, hfs, h⟩ := bind_eq_ok.1 h
        exact Fragment.gathers_group (Clause.gathers_of_compileEach hfs) h
  | .isIn lhs rows, f, h => Clause.gathers_of_compileIn h
  | .truthy element, f, h => by
      show scope.Gathers dialect element.taken f.joins
      exact Element.gathers_of_compile h
termination_by structural clause => clause

/-- Compiled clauses have the joins of each. -/
theorem Clause.gathers_of_compileEach : ∀ {clauses : List Clause} {fs : List Fragment},
    Clause.compileEach dialect scope clauses = .ok fs →
    List.Forall₂ (fun clause f => scope.Gathers dialect (Clause.taken clause) f.joins) clauses fs
  | [], fs, h => by
      cases pure_eq_ok.1 h
      exact .nil
  | clause :: rest, fs, h => by
      obtain ⟨f, hf, h⟩ := bind_eq_ok.1 h
      obtain ⟨more, hmore, h⟩ := bind_eq_ok.1 h
      cases pure_eq_ok.1 h
      exact .cons (Clause.gathers_of_compile hf) (Clause.gathers_of_compileEach hmore)
termination_by structural clauses => clauses

end

/-- A compiled term of an order has the joins of its element. -/
theorem OrderTerm.gathers_of_compile {term : OrderTerm} {f : Fragment}
    (h : term.compile dialect scope = .ok f) :
    scope.Gathers dialect term.element.taken f.joins := by
  obtain ⟨inner, hinner, h⟩ := bind_eq_ok.1 h
  cases pure_eq_ok.1 h
  exact Fragment.gathers_wrap _ _ (Element.gathers_of_compile hinner)

end RecordQuery
