/-
The placeholders of a plan's statement. The statement is written with the
literals of the request in their places; that writing is sound, so its
text has a placeholder exactly where it has a literal, and the parameters
of the plan are its literals in the same order. Names of any kind are in
quotes wherever they stand and play no part in this, whatever they hold.
-/
import RecordQuery.Proofs.Plan.Parts

namespace RecordQuery

-- =========================================================== the writing

/-- The literals of a request in the order in which a plan binds them: those
of the filters of the kept joins, of the root filter, of the root order
and of the orders of the included relations. -/
def IncludeTree.literals (catalog : Catalog) (m : Mapping) (tableAlias : String)
    (inc : IncludeTree) : List Value :=
  (inc.keptUses catalog m tableAlias).flatMap Use.literals ++
    (inc.filter.map Clause.literals).getD [] ++
    inc.order.flatMap (fun term => term.element.literals) ++
    (inc.includedUses catalog m tableAlias).flatMap fun u =>
      u.order.flatMap fun term => term.element.literals

namespace Plan

/-- The beginning of a statement, before its joins. -/
def heading (plan : Plan) : String :=
  "SELECT " ++
    ", ".intercalate ((plan.keyColumns ++ plan.selectedColumns).map (ColumnRef.select plan.dialect))
    ++ " FROM " ++ plan.dialect.quoteColumn plan.table
    ++ " AS " ++ plan.dialect.quoteColumn plan.tableAlias

section Written

variable (catalog : Catalog) (m : Mapping) (inc : IncludeTree) (plan : Plan)

/-- The terms of the order as they are written: those of the root order,
the root's key where records are counted, and those of the included
relations. -/
def writtenOrder : List Writing :=
  inc.order.map
      (OrderTerm.written plan.dialect (IncludeTree.rootScope catalog m plan.tableAlias)) ++
    (tieBreakers plan.dialect plan.joins plan.layout.keys).map (fun f => Writing.ofText f.sql) ++
    ((inc.includedUses catalog m plan.tableAlias).flatMap Use.terms).map
      fun (u, term) => term.written plan.dialect (u.scope catalog)

/-- The statement of a plan for a request, with the literals of the request
in their places. -/
def written : Writing :=
  Writing.ofText plan.heading ++
    ((inc.keptUses catalog m plan.tableAlias).flatMap fun u =>
      Writing.ofText " " ++ u.written plan.dialect catalog) ++
    (match inc.filter with
      | some filter => Writing.ofText " WHERE " ++
          filter.written plan.dialect (IncludeTree.rootScope catalog m plan.tableAlias)
      | none => []) ++
    (match plan.writtenOrder catalog m inc with
      | [] => []
      | terms => Writing.ofText " ORDER BY " ++ Writing.separated ", " terms) ++
    Writing.ofText plan.limitText

end Written

end Plan

-- ====================================================== texts of the plan

variable {catalog : Catalog} {dialect : Dialect} {m : Mapping} {inc : IncludeTree}
  {tableAlias : String} {offset : Nat} {limit : Option Nat} {plan : Plan}

theorem Plan.heading_of_quotes {P : Writing → Prop} (h : plan.dialect.Quotes P) :
    P (Writing.ofText plan.heading) := by
  have hselect : P (Writing.ofText "SELECT ") := h.adjoining.word (by decide)
  have hfrom : P (Writing.ofText " FROM ") := h.adjoining.word (by decide)
  have has : P (Writing.ofText " AS ") := h.adjoining.word (by decide)
  have hcolumns : P (Writing.ofText (", ".intercalate
      ((plan.keyColumns ++ plan.selectedColumns).map (ColumnRef.select plan.dialect)))) :=
    h.adjoining.intercalate (by decide) (List.forall_mem_map.2 fun c _ => h.select c)
  simp only [Plan.heading, Writing.ofText_append]
  refine h.adjoining.append (h.adjoining.append (h.adjoining.append ?_ (h.column _)) has)
    (h.column _)
  exact h.adjoining.append (h.adjoining.append hselect hcolumns) hfrom

theorem Plan.limitText_sound (hd : plan.dialect.Lawful) :
    (Writing.ofText plan.limitText).Sound := by
  refine Plan.limitText_of_adjoining Writing.Sound.adjoining plan fun text htext => ?_
  rw [Writing.ofText_append]
  exact (Writing.Sound.plain (by decide)).append (hd.unboundedLimit text htext)

-- ======================================================= the whole plan

/-- A sound writing of a text and of parameters. -/
structure Writing.Spells (w : Writing) (text : String) (params : List Value) : Prop where
  chars : w.chars = text.toList
  literals : w.literals = params
  sound : w.Sound

namespace Writing.Spells

theorem nil : Spells [] "" [] := ⟨by simp, rfl, .nil⟩

theorem text {text : String} (h : (ofText text).Sound) : (ofText text).Spells text [] :=
  ⟨chars_ofText text, literals_ofText text, h⟩

theorem append {v w : Writing} {a b : String} {x y : List Value} (hv : v.Spells a x)
    (hw : w.Spells b y) : (v ++ w).Spells (a ++ b) (x ++ y) where
  chars := by rw [chars_append, hv.chars, hw.chars, String.toList_append]
  literals := by rw [literals_append, hv.literals, hw.literals]
  sound := hv.sound.append hw.sound

/-- Text that brings no parameters before a writing. -/
theorem after {w : Writing} {a b : String} {x : List Value} (hw : w.Spells b x)
    (ha : (ofText a).Sound) : (ofText a ++ w).Spells (a ++ b) x :=
  (text ha).append hw

theorem flatMap {α : Type} {xs : List α} {written : α → Writing} {texts : α → String}
    {params : α → List Value} (h : ∀ x ∈ xs, (written x).Spells (texts x) (params x)) :
    Spells (xs.flatMap written) (String.join (xs.map texts)) (xs.flatMap params) := by
  induction xs with
  | nil => exact nil
  | cons x xs ih =>
      rw [List.flatMap_cons, List.map_cons, String.join_cons, List.flatMap_cons]
      exact (h x List.mem_cons_self).append (ih fun y hy => h y (List.mem_cons_of_mem _ hy))

/-- Listed fragments are spelled one by one, with commas in between. -/
theorem listed {fs : List Fragment} {ws : List Writing}
    (h : List.Forall₂ (fun (f : Fragment) (w : Writing) => w.Spells f.sql f.params) fs ws)
    {f : Fragment} (hf : Fragment.listed fs = some f) :
    (separated ", " ws).Spells f.sql f.params := by
  have hchars : ws.map Writing.chars = fs.map fun f => f.sql.toList := by
    rw [eq_comm, ← List.forall₂_eq_eq_eq, List.forall₂_map_left_iff,
      List.forall₂_map_right_iff]
    exact h.imp fun _ _ hs => hs.chars.symm
  have hparams : fs.flatMap Fragment.params = ws.flatMap Writing.literals := by
    rw [← List.forall₂_eq_eq_eq]
    refine List.rel_flatMap h fun f w hs => ?_
    rw [List.forall₂_eq_eq_eq, hs.literals]
  have hsound : ∀ w ∈ ws, w.Sound :=
    ((List.forall₂_and_left ws fs).1 (h.flip.imp fun _ _ hs => ⟨hs.sound, hs⟩)).1
  cases h with
  | nil => cases hf
  | cons hhead hrest =>
      cases hf
      refine ⟨?_, ?_, .separated (by decide) hsound⟩
      · rw [chars_separated, hchars, String.toList_intercalate, List.map_map]
        rfl
      · rw [literals_separated, ← hparams]

end Writing.Spells

theorem Fragment.Renders.spells {f : Fragment} {w : Writing} {literals : List Value}
    {steps : List Step} (h : f.Renders dialect w literals steps) : w.Spells f.sql f.params :=
  ⟨h.sql.symm, by rw [h.params, h.written], h.sound⟩

/-- A built plan's order lists fragments that the terms of its order, as
they are written, spell. -/
theorem Plan.spells_order (hd : plan.dialect.Lawful)
    (h : Plan.build catalog plan.dialect m inc plan.tableAlias offset limit = .ok plan) :
    ∃ fs, plan.order = Fragment.listed fs
      ∧ List.Forall₂ (fun (f : Fragment) (w : Writing) => w.Spells f.sql f.params) fs
        (plan.writtenOrder catalog m inc) := by
  obtain ⟨-, -, -, order, nested, heq, horder, hnested⟩ := Plan.renders_of_build hd h
  refine ⟨_, heq, List.rel_append (List.rel_append ?_ ?_) ?_⟩
  · rw [List.forall₂_map_right_iff]
    exact horder.imp fun _ _ hf => hf.spells
  · rw [List.forall₂_map_right_iff, List.forall₂_same]
    intro f hf
    unfold Plan.tieBreakers at hf
    split at hf
    · obtain ⟨key, -, rfl⟩ := List.mem_map.1 hf
      exact .text (hd.quotes.ascending key)
    · cases hf
  · rw [List.forall₂_map_right_iff]
    exact hnested.imp fun _ _ hf => hf.spells

/-- A built plan's statement is spelled by its writing, which shows the
parameters of the plan in their order. -/
theorem Plan.spells (hd : plan.dialect.Lawful)
    (h : Plan.build catalog plan.dialect m inc plan.tableAlias offset limit = .ok plan) :
    (plan.written catalog m inc).Spells plan.sql plan.params := by
  obtain ⟨hjoins, huses, hcondition, -⟩ := Plan.renders_of_build hd h
  obtain ⟨fs, horder, hterms⟩ := Plan.spells_order hd h
  have hblank : (Writing.ofText " ").Sound := .plain (by decide)
  have hheading := Writing.Spells.text (Plan.heading_of_quotes hd.quotes)
  have hlimited := Writing.Spells.text (Plan.limitText_sound hd)
  have hparams : plan.params = [] ++ plan.joins.flatMap Join.params
      ++ (plan.condition.map Fragment.params).getD []
      ++ (plan.order.map Fragment.params).getD [] ++ [] := by
    rw [List.nil_append, List.append_nil]
    rfl
  rw [hparams]
  unfold Plan.written Plan.sql
  refine .append (.append (.append (.append hheading ?joins) ?filter) ?order) hlimited
  case joins =>
    rw [hjoins, List.map_map, List.flatMap_map]
    refine .flatMap fun u hu => .after ?_ hblank
    exact ⟨by simp [Use.join], (huses u hu).literals, (huses u hu).sound⟩
  case filter =>
    rcases hcondition with ⟨hnone, hcondition⟩ | ⟨clause, f, hsome, hcondition, hrender⟩
    · rw [hnone, hcondition]
      exact .nil
    · rw [hsome, hcondition]
      exact hrender.spells.after (.plain (by decide))
  case order =>
    rw [horder]
    generalize plan.writtenOrder catalog m inc = ws at hterms ⊢
    cases hterms with
    | nil => exact .nil
    | cons hhead hrest =>
        exact (Writing.Spells.listed (.cons hhead hrest) rfl).after (.plain (by decide))

-- ========================================================== parameters

theorem Fragment.params_listed (fs : List Fragment) :
    ((Fragment.listed fs).map Fragment.params).getD [] = fs.flatMap Fragment.params := by
  cases fs <;> rfl

theorem Plan.params_tieBreakers (joins : Joins) (keys : List StructureColumn) :
    (Plan.tieBreakers dialect joins keys).flatMap Fragment.params = [] := by
  unfold Plan.tieBreakers
  split
  · rw [List.flatMap_map]
    simp [StructureColumn.ascending]
  · rfl

/-- Fragments that render bring the literals of what they render. -/
theorem Fragment.Renders.flatMap_params {α : Type} {written : α → Writing}
    {literals : α → List Value} {steps : α → List Step} {fs : List Fragment} {xs : List α}
    (h : List.Forall₂
      (fun f x => Renders dialect f (written x) (literals x) (steps x)) fs xs) :
    fs.flatMap Fragment.params = xs.flatMap literals := by
  induction h with
  | nil => rfl
  | cons hhead _ ih => rw [List.flatMap_cons, List.flatMap_cons, hhead.params, ih]

/-- The parameters of a built plan are the literals of the request in the
order of the statement. -/
theorem Plan.params_eq_literals (hd : dialect.Lawful)
    (h : Plan.build catalog dialect m inc tableAlias offset limit = .ok plan) :
    plan.params = inc.literals catalog m tableAlias := by
  obtain ⟨hjoins, -, hcondition, order, nested, heq, horder, hnested⟩ :=
    Plan.renders_of_build hd h
  have hjoined : plan.joins.flatMap Join.params
      = (inc.keptUses catalog m tableAlias).flatMap Use.literals := by
    rw [hjoins, List.flatMap_map]
    rfl
  have hfiltered : (plan.condition.map Fragment.params).getD []
      = (inc.filter.map Clause.literals).getD [] := by
    rcases hcondition with ⟨hnone, hcondition⟩ | ⟨clause, f, hsome, hcondition, hrender⟩
    · rw [hnone, hcondition]
      rfl
    · rw [hsome, hcondition]
      exact hrender.params
  have hordered : (plan.order.map Fragment.params).getD []
      = inc.order.flatMap (fun term => term.element.literals) ++
        (inc.includedUses catalog m tableAlias).flatMap fun u =>
          u.order.flatMap fun term => term.element.literals := by
    rw [heq, Fragment.params_listed, List.flatMap_append, List.flatMap_append,
      Plan.params_tieBreakers, List.append_nil, Fragment.Renders.flatMap_params horder,
      Fragment.Renders.flatMap_params hnested, List.flatMap_assoc]
    simp only [Use.terms, List.flatMap_map]
  unfold Plan.params
  rw [hjoined, hfiltered, hordered, IncludeTree.literals, ← List.append_assoc]

-- ======================================================= the statement

/-- Placeholders and parameters line up in every plan for a known database.
There are as many placeholders as parameters; with the literals of the
request written into the statement, the placeholder of each rank stands
where the literal stands that is the parameter of that rank. The
parameters are the literals of the filters of the kept joins, of the root
filter, of the root order and of the orders of the included relations. -/
theorem Plan.placeholders_match_params (flavor : Flavor) (catalog : Catalog) (m : Mapping)
    (inc : IncludeTree) (tableAlias : String) (offset : Nat) (limit : Option Nat) (plan : Plan)
    (h : Plan.build catalog flavor.dialect m inc tableAlias offset limit = .ok plan) :
    (Placeholder.positions plan.sql).length = plan.params.length
      ∧ (plan.written catalog m inc).chars = plan.sql.toList
      ∧ (∀ k i : Nat, (Placeholder.positions plan.sql)[k]? = some i →
        ∃ v, (plan.written catalog m inc)[i]? = some (.literal v) ∧ plan.params[k]? = some v)
      ∧ plan.joins
        = (inc.keptUses catalog m tableAlias).map (Use.join flavor.dialect catalog)
      ∧ plan.params = inc.literals catalog m tableAlias := by
  have hd := flavor.dialect_lawful
  have hjoins := (Plan.renders_of_build hd h).1
  have hparams := Plan.params_eq_literals hd h
  obtain ⟨hdialect, halias⟩ := Plan.names_of_build h
  have hspells : (plan.written catalog m inc).Spells plan.sql plan.params := by
    rw [← hdialect] at hd h
    rw [← halias] at h
    exact Plan.spells hd h
  obtain ⟨hlength, hplace⟩ := hspells.sound.positions hspells.chars.symm
  rw [hspells.literals] at hlength hplace
  exact ⟨hlength, hspells.chars, hplace, hjoins, hparams⟩

/-- A mapping whose names hold question marks, quotes and places. -/
def hostileMapping : Mapping where
  model := "m"
  table := "t\"?"
  columns :=
    [{ name := "i'?", field := "id", type := .int64 },
     { name := "%s`?", field := "up?", type := .int64 }]
  relations :=
    [{ field := "r?'", kind := .many, target := "m", targetTable := "t\"?"
       pairs := [⟨"i'?", "%s`?"⟩] }]
  primaryKey := ["i'?"]

def hostileCatalog : Catalog := ⟨[hostileMapping], by decide⟩

/-- A filter below and a filter above, whose path takes the join of the
relation included, with a membership that is written without its
operand. -/
def hostileInclude : IncludeTree where
  relations :=
    [("r?'", { filter := some (.compare .gt (.field "id") (.value (.int64 7))) })]
  filter := some (.and
    [.compare .neq (.method "lower" [.value (.text "?")]) (.field "r?'.up?"),
     .isIn [.value (.text "unused")] []])
  order := [⟨.value (.int64 1), .descending⟩]

/-- Names that hold question marks and quotes add no placeholder. -/
theorem Plan.placeholders_of_hostile_names : ∃ plan,
    Plan.build hostileCatalog Flavor.mysql.dialect hostileMapping hostileInclude "a`?" 2 (some 3)
        = .ok plan
      ∧ plan.params = [.int64 7, .text "?", .int64 1]
      ∧ (Placeholder.positions plan.sql).length = 3 := by
  refine ⟨_, rfl, rfl, ?_⟩
  exact (Plan.placeholders_match_params .mysql hostileCatalog hostileMapping hostileInclude
    "a`?" 2 (some 3) _ rfl).1

end RecordQuery
