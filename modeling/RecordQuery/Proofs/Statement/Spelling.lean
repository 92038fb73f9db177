/-
What a dialect has no say in. A request compiled for two databases is
written in two ways, and that is all: it fails for the same reason or has
the same parameters in the same order, and relies on the same joins. The
texts, in which names are quoted and operators and methods are spelled,
are never looked at while a statement is put together. The one thing
asked of a dialect on the way is whether it has a form for a method, so
two dialects have to know the same methods.

Two computations are compared by `Alike`. Every way of putting fragments
together keeps it, one lemma for each, and so does every constructor of
elements and clauses.
-/
import Mathlib.Data.List.Forall2
import RecordQuery.Dialect.Flavor
import RecordQuery.Sql.Compile

namespace RecordQuery

-- ============================================================= outcomes

/-- Computations that fail with the same error, or succeed with results
that are related. -/
inductive Alike {ε α β : Type} (R : α → β → Prop) : Except ε α → Except ε β → Prop where
  | ok {a : α} {b : β} (h : R a b) : Alike R (.ok a) (.ok b)
  | error (e : ε) : Alike R (.error e) (.error e)

namespace Alike

variable {ε α α' β β' γ : Type} {R : α → β → Prop} {S : α' → β' → Prop} {x : Except ε α}
  {y : Except ε β}

/-- A computation in which nothing depends on the dialect. -/
theorem refl (x : Except ε α) : Alike Eq x x := by
  cases x with
  | error e => exact .error e
  | ok a => exact .ok rfl

theorem pure {a : α} {b : β} (h : R a b) :
    Alike R (Pure.pure a : Except ε α) (Pure.pure b : Except ε β) :=
  .ok h

theorem bind {f : α → Except ε α'} {g : β → Except ε β'} (h : Alike R x y)
    (hfg : ∀ a b, R a b → Alike S (f a) (g b)) : Alike S (x >>= f) (y >>= g) := by
  cases h with
  | ok hab => exact hfg _ _ hab
  | error e => exact .error e

theorem map {f : α → α'} {g : β → β'} (h : Alike R x y) (hfg : ∀ a b, R a b → S (f a) (g b)) :
    Alike S (x.map f) (y.map g) := by
  cases h with
  | ok hab => exact .ok (hfg _ _ hab)
  | error e => exact .error e

/-- Steps taken for each element of a list. -/
theorem mapM {f : γ → Except ε α} {g : γ → Except ε β} {cs : List γ}
    (h : ∀ c ∈ cs, Alike R (f c) (g c)) : Alike (List.Forall₂ R) (cs.mapM f) (cs.mapM g) := by
  induction cs with
  | nil =>
      rw [List.mapM_nil, List.mapM_nil]
      exact .ok .nil
  | cons c cs ih =>
      obtain ⟨hhead, hrest⟩ := List.forall_mem_cons.1 h
      rw [List.mapM_cons, List.mapM_cons]
      exact hhead.bind fun _ _ hab => (ih hrest).bind fun _ _ hall => .ok (.cons hab hall)

/-- A step taken for what may be absent. -/
theorem optionMapM {f : γ → Except ε α} {g : γ → Except ε β} {c? : Option γ}
    (h : ∀ c, Alike R (f c) (g c)) : Alike (Option.Rel R) (c?.mapM f) (c?.mapM g) := by
  cases c? with
  | none => exact .ok .none
  | some c =>
      rw [Option.mapM_some, Option.mapM_some]
      exact (h c).map fun _ _ hab => .some hab

end Alike

-- ================================================================ joins

/-- Joins that differ in their text alone. -/
structure Join.Respelled (j k : Join) : Prop where
  tableAlias : j.tableAlias = k.tableAlias
  params : j.params = k.params
  kind : j.kind = k.kind
  source : j.source = k.source

namespace Joins

/-- Lists of joins that differ in the texts of the joins alone. -/
def Respelled (js ks : Joins) : Prop :=
  List.Forall₂ Join.Respelled js ks

variable {js ks : Joins} {j k : Join}

theorem find?_respelled (h : js.Respelled ks) (name : String) :
    Option.Rel Join.Respelled (js.find? name) (ks.find? name) := by
  unfold find?
  induction h with
  | nil => exact .none
  | @cons j k js ks hjk _ ih =>
      rw [List.find?_cons, List.find?_cons, hjk.tableAlias]
      cases Casing.same k.tableAlias name with
      | true => exact .some hjk
      | false => exact ih

theorem insert_alike (h : js.Respelled ks) (hjk : j.Respelled k) :
    Alike Respelled (js.insert j) (ks.insert k) := by
  have hfound := find?_respelled h k.tableAlias
  unfold insert
  rw [hjk.tableAlias, hjk.source]
  generalize js.find? k.tableAlias = present, ks.find? k.tableAlias = present' at hfound ⊢
  cases hfound with
  | none => exact .ok (List.rel_append h (.cons hjk .nil))
  | some hpresent =>
      dsimp only
      rw [hpresent.source]
      split
      · exact .ok h
      · exact .error _

theorem merge_alike {more more' : Joins} (hmore : more.Respelled more') :
    ∀ {js ks : Joins}, js.Respelled ks → Alike Respelled (js.merge more) (ks.merge more') := by
  induction hmore with
  | nil => exact fun h => .ok h
  | cons hjk _ ih =>
      intro js ks h
      unfold merge
      exact (insert_alike h hjk).bind fun _ _ hboth => ih hboth

theorem apartFrom_alike (h : js.Respelled ks) (root : String) :
    Alike Eq (js.apartFrom root) (ks.apartFrom root) := by
  have hfound := find?_respelled h root
  unfold apartFrom
  generalize js.find? root = present, ks.find? root = present' at hfound ⊢
  cases hfound with
  | none => exact .ok rfl
  | some hjk =>
      dsimp only
      rw [hjk.tableAlias, hjk.source]
      exact .error _

theorem any_isMany_respelled (h : js.Respelled ks) :
    (js.any fun join => join.kind.isMany) = ks.any fun join => join.kind.isMany := by
  induction h with
  | nil => rfl
  | cons hjk _ ih => rw [List.any_cons, List.any_cons, hjk.kind, ih]

theorem params_respelled (h : js.Respelled ks) :
    js.flatMap Join.params = ks.flatMap Join.params := by
  induction h with
  | nil => rfl
  | cons hjk _ ih => rw [List.flatMap_cons, List.flatMap_cons, hjk.params, ih]

end Joins

-- ============================================================ fragments

/-- Fragments that differ in their texts alone. -/
structure Fragment.Respelled (f g : Fragment) : Prop where
  params : f.params = g.params
  joins : f.joins.Respelled g.joins

namespace Fragment

variable {f g f' g' : Fragment} {fs gs : List Fragment}

/-- Texts without parameters and joins. -/
theorem Respelled.text (sql sql' : String) : Respelled { sql } { sql := sql' } :=
  ⟨rfl, .nil⟩

/-- Whatever texts are put around two fragments, those are all they differ
in. -/
theorem Respelled.wrap (h : f.Respelled g) (before before' after after' : String) :
    (f.wrap before after).Respelled (g.wrap before' after') :=
  ⟨h.params, h.joins⟩

theorem Respelled.parenthesize (h : f.Respelled g) : f.parenthesize.Respelled g.parenthesize :=
  h.wrap _ _ _ _

theorem Respelled.tuple (h : f.Respelled g) (arity : Nat) :
    (f.tuple arity).Respelled (g.tuple arity) := by
  unfold Fragment.tuple
  split
  · exact h.parenthesize
  · exact h

theorem append_alike (h : f.Respelled g) (h' : f'.Respelled g') :
    Alike Respelled (f.append f') (g.append g') :=
  (Joins.merge_alike h'.joins h.joins).map fun _ _ hjoins =>
    ⟨show f.params ++ f'.params = g.params ++ g'.params by rw [h.params, h'.params], hjoins⟩

theorem appendAll_alike {separator separator' : String} (hall : List.Forall₂ Respelled fs gs) :
    ∀ {f g : Fragment}, f.Respelled g →
      Alike Respelled (appendAll separator f fs) (appendAll separator' g gs) := by
  induction hall with
  | nil => exact fun h => .ok h
  | cons hhead _ ih =>
      intro f g h
      unfold appendAll
      exact (append_alike (h.wrap _ _ _ _) hhead).bind fun _ _ hboth => ih hboth

theorem join_alike {separator separator' : String} (hall : List.Forall₂ Respelled fs gs) :
    Alike Respelled (join separator fs) (join separator' gs) := by
  cases hall with
  | nil => exact .ok (.text _ _)
  | cons hhead hrest => exact appendAll_alike hrest hhead

end Fragment

-- ============================================================= dialects

/-- Dialects that have forms for the same methods. -/
def Dialect.SameMethods (d d' : Dialect) : Prop :=
  ∀ name, (d.template? name).isSome = (d'.template? name).isSome

/-- Every known database has forms for the methods that there are. -/
theorem Flavor.isSome_template? (flavor : Flavor) (name : String) :
    (flavor.template? name).isSome = (Signature.find? name).isSome := by
  unfold template?
  split
  case h_13 => simp_all [Signature.find?, Signature.all, @eq_comm String _ name]
  all_goals rfl

/-- All known databases have forms for the same methods. -/
theorem Flavor.sameMethods (a b : Flavor) : a.dialect.SameMethods b.dialect :=
  fun name => (a.isSome_template? name).trans (b.isSome_template? name).symm

-- ============================================================= elements

section Compile

variable {d d' : Dialect} {scope : Scope}

/-- A step brings the same join, whatever its filter is called. -/
theorem Step.join_respelled (step : Step) {filter filter' : Option Fragment}
    (h : Option.Rel Fragment.Respelled filter filter') :
    (step.join d filter).Respelled (step.join d' filter') where
  tableAlias := rfl
  params := by
    cases h with
    | none => rfl
    | some h => exact h.params
  kind := rfl
  source := rfl

theorem Scope.joins_alike (steps : List Step) :
    Alike Joins.Respelled (scope.joins d steps) (scope.joins d' steps) := by
  have hsteps : Joins.Respelled (steps.map fun step => step.join d none)
      (steps.map fun step => step.join d' none) := by
    unfold Joins.Respelled
    rw [List.forall₂_map_left_iff, List.forall₂_map_right_iff, List.forall₂_same]
    exact fun step _ => step.join_respelled .none
  unfold Scope.joins
  refine (Joins.merge_alike hsteps .nil).bind fun joins joins' hjoins => ?_
  exact (Joins.apartFrom_alike hjoins _).bind fun _ _ _ => .pure hjoins

theorem Scope.field_alike (path : String) :
    Alike Fragment.Respelled (scope.field d path) (scope.field d' path) := by
  unfold Scope.field
  cases FieldPath.isDotted path with
  | false => exact (Alike.refl _).map fun _ _ _ => .text _ _
  | true =>
      cases scope.relation with
      | some relation => exact .error _
      | none =>
          refine (Alike.refl (scope.resolve path)).bind ?_
          rintro resolved _ rfl
          exact (Scope.joins_alike resolved.steps).bind fun _ _ hjoins => .pure ⟨rfl, hjoins⟩

/-- Dialects that know the same methods take the same calls. -/
theorem Dialect.form_alike (hd : d.SameMethods d') (name : String) (args : List Element) :
    Alike (fun _ _ => True) (d.form name args) (d'.form name args) := by
  unfold form
  refine (Alike.refl (Signature.check name args)).bind ?_
  rintro signature _ rfl
  have hknown := hd signature.name
  generalize d.template? signature.name = template, d'.template? signature.name = template'
    at hknown ⊢
  cases template with
  | none =>
      cases template' with
      | none => exact .error _
      | some _ => cases hknown
  | some _ =>
      cases template' with
      | none => cases hknown
      | some _ => exact .pure trivial

/-- Arguments that differ in their texts alone. -/
structure Arguments.Respelled (args args' : Arguments) : Prop where
  params : args.params = args'.params
  joins : args.joins.Respelled args'.joins

theorem Arguments.push_alike {args args' : Arguments} {f g : Fragment}
    (h : args.Respelled args') (hfg : f.Respelled g) :
    Alike Arguments.Respelled (args.push f) (args'.push g) :=
  (Joins.merge_alike hfg.joins h.joins).map fun _ _ hjoins =>
    ⟨show args.params ++ f.params = args'.params ++ g.params by rw [h.params, hfg.params], hjoins⟩

mutual

/-- An element is compiled alike for dialects that know the same
methods. -/
theorem Element.compile_alike (hd : d.SameMethods d') : ∀ element : Element,
    Alike Fragment.Respelled (element.compile d scope) (element.compile d' scope)
  | .value v => .pure ⟨rfl, .nil⟩
  | .field path => Scope.field_alike path
  | .method name args => by
      unfold Element.compile
      refine (Dialect.form_alike hd name args).bind fun template template' _ => ?_
      have hnone : Arguments.Respelled {} {} := ⟨rfl, .nil⟩
      exact (Element.compileArgs_alike hd args hnone).bind fun _ _ hdone =>
        .pure ⟨hdone.params, hdone.joins⟩
termination_by structural element => element

theorem Element.compileArgs_alike (hd : d.SameMethods d') :
    ∀ (args : List Element) {sofar sofar' : Arguments}, sofar.Respelled sofar' →
      Alike Arguments.Respelled (Element.compileArgs d scope sofar args)
        (Element.compileArgs d' scope sofar' args)
  | [], _, _, hsofar => .pure hsofar
  | arg :: rest, _, _, hsofar => by
      unfold Element.compileArgs
      refine (Element.compile_alike hd arg).bind fun f g hfg => ?_
      exact (Arguments.push_alike hsofar hfg).bind fun _ _ hmore =>
        Element.compileArgs_alike hd rest hmore
termination_by structural args => args

end

theorem Element.compileList_alike (hd : d.SameMethods d') (elements : List Element) :
    Alike Fragment.Respelled (Element.compileList d scope elements)
      (Element.compileList d' scope elements) :=
  (Alike.mapM fun element _ => Element.compile_alike hd element).bind fun _ _ hall =>
    Fragment.join_alike hall

-- ============================================================== clauses

theorem Comparison.compile_alike (hd : d.SameMethods d') (comparison : Comparison)
    (lhs rhs : Element) : Alike Fragment.Respelled (comparison.compile d scope lhs rhs)
      (comparison.compile d' scope lhs rhs) := by
  refine (Element.compile_alike hd lhs).bind fun left left' hleft => ?_
  refine (Element.compile_alike hd rhs).bind fun right right' hright => ?_
  refine (Fragment.append_alike (hleft.wrap _ _ _ _) hright).bind fun whole whole' hwhole => ?_
  refine .pure ?_
  split
  · exact hwhole.wrap _ _ _ _
  · exact hwhole

theorem Clause.compileIn_alike (hd : d.SameMethods d') (lhs : List Element)
    (rows : List (List Element)) : Alike Fragment.Respelled (Clause.compileIn d scope lhs rows)
      (Clause.compileIn d' scope lhs rows) := by
  unfold Clause.compileIn
  dsimp only
  by_cases hlhs : lhs.length = 0
  · rw [if_pos hlhs, if_pos hlhs]
    exact .error _
  · rw [if_neg hlhs, if_neg hlhs]
    cases rows.find? fun row => decide (row.length ≠ lhs.length) with
    | some row => exact .error _
    | none =>
        refine (Element.compileList_alike hd lhs).bind fun left left' hleft => ?_
        cases rows.isEmpty with
        | true => exact .pure (.text _ _)
        | false =>
            refine (Alike.mapM (R := Fragment.Respelled) fun row _ =>
              (Element.compileList_alike hd row).bind fun _ _ htuple =>
                .pure (htuple.tuple lhs.length)).bind fun tuples tuples' htuples => ?_
            refine (Fragment.join_alike htuples).bind fun list list' hlist => ?_
            refine (Fragment.append_alike ((hleft.tuple _).wrap _ _ _ _) hlist).bind ?_
            exact fun _ _ hwhole => .pure (hwhole.wrap _ _ _ _)

/-- A group of clauses, which has to have members. -/
theorem Clause.group_alike {clauses : List Clause} {fs gs : Except CompileError (List Fragment)}
    {node separator : String} (h : Alike (List.Forall₂ Fragment.Respelled) fs gs) :
    Alike Fragment.Respelled
      (do
        if clauses.isEmpty then throw (.emptyBooleanGroup node)
        let f ← Fragment.join separator (← fs)
        pure f.parenthesize)
      (do
        if clauses.isEmpty then throw (.emptyBooleanGroup node)
        let f ← Fragment.join separator (← gs)
        pure f.parenthesize) := by
  cases clauses.isEmpty with
  | true => exact .error _
  | false =>
      refine h.bind fun _ _ hall => ?_
      exact (Fragment.join_alike hall).bind fun _ _ hf => .pure hf.parenthesize

mutual

/-- A clause is compiled alike for dialects that know the same methods. -/
theorem Clause.compile_alike (hd : d.SameMethods d') : ∀ clause : Clause,
    Alike Fragment.Respelled (clause.compile d scope) (clause.compile d' scope)
  | .compare comparison lhs rhs => Comparison.compile_alike hd comparison lhs rhs
  | .not operand => (Clause.compile_alike hd operand).bind fun _ _ hf => .pure (hf.wrap _ _ _ _)
  | .and operands => Clause.group_alike (Clause.compileEach_alike hd operands)
  | .or operands => Clause.group_alike (Clause.compileEach_alike hd operands)
  | .isIn lhs rows => Clause.compileIn_alike hd lhs rows
  | .truthy element => Element.compile_alike hd element
termination_by structural clause => clause

theorem Clause.compileEach_alike (hd : d.SameMethods d') : ∀ clauses : List Clause,
    Alike (List.Forall₂ Fragment.Respelled) (Clause.compileEach d scope clauses)
      (Clause.compileEach d' scope clauses)
  | [] => .pure .nil
  | clause :: rest => by
      unfold Clause.compileEach
      refine (Clause.compile_alike hd clause).bind fun f g hfg => ?_
      exact (Clause.compileEach_alike hd rest).bind fun _ _ hall => .pure (.cons hfg hall)
termination_by structural clauses => clauses

end

theorem OrderTerm.compile_alike (hd : d.SameMethods d') (term : OrderTerm) :
    Alike Fragment.Respelled (term.compile d scope) (term.compile d' scope) :=
  (Element.compile_alike hd term.element).bind fun _ _ hf => .pure (hf.wrap _ _ _ _)

end Compile

end RecordQuery
