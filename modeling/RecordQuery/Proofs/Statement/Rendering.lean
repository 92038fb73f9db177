/-
What fragments render. A fragment is put together from others; what it
renders is put together the same way, and no lemma beyond this module
looks into how. A fragment renders a writing, whose text is its text; the
literals of the request, which are its parameters and what the writing
shows of them; and the steps that paths take, whose joins are its joins,
each kept where it is used first. The writing is sound, so the fragment
may stand next to any other.

One lemma for each way of putting fragments together, then one for each
constructor of elements and clauses.
-/
import RecordQuery.Dialect.Flavor
import RecordQuery.Proofs.Except
import RecordQuery.Proofs.Firsts
import RecordQuery.Proofs.Statement.Quoting
import RecordQuery.Proofs.Statement.Written

namespace RecordQuery

-- ================================================================ joins

namespace Joins

/-- Joins without those whose alias was used before. -/
def firsts (joins : List Join) : Joins :=
  firstsBy (fun join => Casing.fold join.tableAlias) joins

theorem firsts_nil : firsts [] = [] := rfl

/-- The joins of steps, each kept where it is used first. -/
def ofSteps (dialect : Dialect) (steps : List Step) : Joins :=
  firsts (steps.map fun step => step.join dialect none)

theorem find?_eq_none {joins : Joins} {name : String} :
    joins.find? name = none
      ↔ Casing.fold name ∉ List.map (fun join => Casing.fold join.tableAlias) joins := by
  simp only [find?, List.find?_eq_none, Casing.same, beq_iff_eq, List.mem_map, not_exists,
    not_and]

/-- Adding a join keeps it if its alias is new. -/
theorem insert_firsts {joins : List Join} {join : Join} {more : Joins}
    (h : (firsts joins).insert join = .ok more) : more = firsts (joins ++ [join]) := by
  unfold firsts
  rw [firstsBy_append_singleton]
  unfold insert at h
  split at h
  case h_1 hnone =>
    rw [find?_eq_none] at hnone
    cases h
    rw [if_neg fun hmem => hnone (mem_map_firstsBy.2 hmem)]
    rfl
  case h_2 present hsome =>
    have hmem : Casing.fold join.tableAlias
        ∈ List.map (fun j => Casing.fold j.tableAlias) joins := by
      by_contra hno
      have hnone := find?_eq_none.2 fun hm => hno (mem_map_firstsBy.1 hm)
      unfold firsts at hsome
      rw [hnone] at hsome
      cases hsome
    rw [if_pos hmem]
    split at h
    · cases h
      rfl
    · cases h

/-- Adding joins keeps those whose aliases are new. -/
theorem merge_firsts {added : List Join} :
    ∀ {joins : List Join} {more : Joins}, (firsts joins).merge added = .ok more →
      more = firsts (joins ++ added) := by
  induction added with
  | nil =>
      intro joins more h
      cases h
      rw [List.append_nil]
  | cons join rest ih =>
      intro joins more h
      unfold merge at h
      rw [bind_eq_ok] at h
      obtain ⟨joins', hinsert, h⟩ := h
      rw [insert_firsts hinsert] at h
      rw [ih h, List.append_assoc, List.singleton_append]

theorem merge_ofSteps {dialect : Dialect} {a b : List Step} {more : Joins}
    (h : (ofSteps dialect a).merge (ofSteps dialect b) = .ok more) :
    more = ofSteps dialect (a ++ b) := by
  rw [merge_firsts h, ofSteps, firsts, firsts, firstsBy_append_firstsBy, ofSteps, firsts,
    List.map_append]

end Joins

/-- The joins on the way to a field are those of the steps. -/
theorem Scope.joins_eq_ofSteps {dialect : Dialect} {scope : Scope} {steps : List Step}
    {joins : Joins} (h : scope.joins dialect steps = .ok joins) :
    joins = Joins.ofSteps dialect steps := by
  obtain ⟨merged, hmerge, h⟩ := bind_eq_ok.1 h
  obtain ⟨-, -, h⟩ := bind_eq_ok.1 h
  cases pure_eq_ok.1 h
  rw [← Joins.firsts_nil] at hmerge
  exact Joins.merge_firsts hmerge

-- ============================================================ fragments

namespace Fragment

/-- The text of a fragment is that of a sound writing, its parameters are
the literals and its joins those of the steps. -/
structure Renders (dialect : Dialect) (f : Fragment) (w : Writing) (literals : List Value)
    (steps : List Step) : Prop where
  sql : f.sql.toList = w.chars
  params : f.params = literals
  written : w.literals = literals
  joins : f.joins = Joins.ofSteps dialect steps
  sound : w.Sound

variable {dialect : Dialect} {f g h : Fragment} {v w : Writing} {x y : List Value}
  {a b : List Step}

namespace Renders

/-- A text without literals renders itself. -/
theorem text {sql : String} (h : (Writing.ofText sql).Sound) :
    Renders dialect { sql } (.ofText sql) [] [] where
  sql := (Writing.chars_ofText sql).symm
  params := rfl
  written := Writing.literals_ofText sql
  joins := rfl
  sound := h

theorem literal (v : Value) :
    Renders dialect { sql := "?", params := [v] } [.literal v] [v] [] where
  sql := by simp
  params := rfl
  written := rfl
  joins := rfl
  sound := .literal v

theorem wrap {before after : String} (hbefore : (Writing.ofText before).Sound)
    (hafter : (Writing.ofText after).Sound) (hf : Renders dialect f w x a) :
    Renders dialect (f.wrap before after) (w.between before after) x a where
  sql := by simp [Fragment.wrap, Writing.between, hf.sql]
  params := hf.params
  written := by simp [Writing.between, hf.written]
  joins := hf.joins
  sound := (hbefore.append hf.sound).append hafter

theorem parenthesize (hf : Renders dialect f w x a) :
    Renders dialect f.parenthesize (w.between "(" ")") x a :=
  hf.wrap (.plain (by decide)) (.plain (by decide))

theorem negate (hf : Renders dialect f w x a) :
    Renders dialect f.negate (w.between "NOT (" ")") x a :=
  hf.wrap (.plain (by decide)) (.plain (by decide))

/-- Text behind a fragment. -/
theorem followed {after : String} (hf : Renders dialect f w x a)
    (hafter : (Writing.ofText after).Sound) :
    Renders dialect (f.wrap "" after) (w ++ .ofText after) x a := by
  have hbefore : (Writing.ofText "").Sound := .nil
  have h := hf.wrap hbefore hafter
  rwa [show Writing.between "" w after = w ++ .ofText after from rfl] at h

theorem append (hf : Renders dialect f v x a) (hg : Renders dialect g w y b)
    (h : f.append g = .ok h') : Renders dialect h' (v ++ w) (x ++ y) (a ++ b) := by
  obtain ⟨joins, hjoins, rfl⟩ := map_eq_ok.1 h
  rw [hf.joins, hg.joins] at hjoins
  exact ⟨by simp [hf.sql, hg.sql], by rw [hf.params, hg.params],
    by rw [Writing.literals_append, hf.written, hg.written], Joins.merge_ofSteps hjoins,
    hf.sound.append hg.sound⟩

section Lists

variable {α : Type} {written : α → Writing} {literals : α → List Value}
  {steps : α → List Step} {separator : String}

/-- Fragments behind a first one, a separator before each. -/
theorem appendAll (hs : (Writing.ofText separator).Sound) {fs : List Fragment} {xs : List α}
    (hall : List.Forall₂
      (fun f x => Renders dialect f (written x) (literals x) (steps x)) fs xs) :
    ∀ {f g : Fragment} {w : Writing} {y : List Value} {a : List Step},
      Renders dialect f w y a → Fragment.appendAll separator f fs = .ok g →
      Renders dialect g (w ++ xs.flatMap fun x => .ofText separator ++ written x)
        (y ++ xs.flatMap literals) (a ++ xs.flatMap steps) := by
  induction hall with
  | nil =>
      intro f g w y a hf h
      cases h
      simpa using hf
  | cons hhead _ ih =>
      intro f g w y a hf h
      rw [Fragment.appendAll, bind_eq_ok] at h
      obtain ⟨both, hboth, h⟩ := h
      have hrest := ih ((hf.followed hs).append hhead hboth) h
      simpa [List.append_assoc] using hrest

/-- Fragments with a separator between them. -/
theorem join (hs : (Writing.ofText separator).Sound) {fs : List Fragment} {xs : List α}
    {g : Fragment} (hall : List.Forall₂
      (fun f x => Renders dialect f (written x) (literals x) (steps x)) fs xs)
    (h : Fragment.join separator fs = .ok g) :
    Renders dialect g (.separated separator (xs.map written)) (xs.flatMap literals)
      (xs.flatMap steps) := by
  cases hall with
  | nil =>
      cases h
      exact text .nil
  | cons hhead hrest =>
      rw [List.map_cons, Writing.separated_cons, List.flatMap_map]
      exact appendAll hs hrest hhead h

end Lists

end Renders

end Fragment

-- ============================================================= dialects

/-- A dialect that writes what it quotes, and what its methods stand for,
without adding a placeholder or leaving a quote open, and whose methods
have a place for each argument. -/
structure Dialect.Lawful (d : Dialect) : Prop where
  quoteTable : ∀ name, (Writing.ofText (d.quoteTable name)).Sound
  quoteColumn : ∀ name, (Writing.ofText (d.quoteColumn name)).Sound
  nullSafeEq : (Writing.ofText d.nullSafeEq).Sound
  unboundedLimit : ∀ text, d.unboundedLimit? = some text → (Writing.ofText text).Sound
  placed : ∀ name template, d.template? name = some template →
    Writing.Sound.placed none template.toList
  places : ∀ s ∈ Signature.all, ∀ template, d.template? s.name = some template →
    Writing.places template.toList = s.args.length

theorem Dialect.Lawful.quoteTableColumn {d : Dialect} (hd : d.Lawful) (table column : String) :
    (Writing.ofText (d.quoteTableColumn table column)).Sound := by
  unfold Dialect.quoteTableColumn
  rw [Writing.ofText_append, Writing.ofText_append]
  exact ((hd.quoteTable table).append (.plain (by decide))).append (hd.quoteColumn column)

/-- Every known database has a lawful dialect. -/
theorem Flavor.dialect_lawful (flavor : Flavor) : flavor.dialect.Lawful where
  quoteTable := fun name => by
    cases flavor <;> exact Writing.Sound.quoted (by decide) (by decide) name
  quoteColumn := fun name => by
    cases flavor <;> exact Writing.Sound.quoted (by decide) (by decide) name
  nullSafeEq := by cases flavor <;> exact Writing.Sound.plain (by decide)
  unboundedLimit := fun text h => by
    cases flavor <;> cases h <;> exact Writing.Sound.plain (by decide)
  placed := fun name template h => by
    simp only [dialect, template?] at h
    split at h <;> cases h <;> decide
  places := fun s hs template h => by
    have hall : ∀ s ∈ Signature.all, ∀ t ∈ flavor.template? s.name,
        Writing.places t.toList = s.args.length := by
      cases flavor <;> decide
    exact hall s hs template h

-- ============================================================= elements

namespace FieldPath

theorem segments_of_not_dotted {cs : List Char} (h : cs.contains '.' = false) :
    segments cs = [cs] := by
  induction cs with
  | nil => rfl
  | cons c cs ih =>
      rw [List.contains_cons, Bool.or_eq_false_iff] at h
      have hc : c ≠ '.' := fun hc => by simp [hc] at h
      simp [segments, hc, ih h.2]

/-- A path without a point follows no relation. -/
theorem split_of_not_dotted {path : String} (h : isDotted path = false) :
    split path = ([], path) := by
  rw [split, segments_of_not_dotted h]
  simp

end FieldPath

namespace Scope

variable {dialect : Dialect} {scope : Scope}

theorem resolve_of_not_dotted {path : String} (h : FieldPath.isDotted path = false) :
    scope.resolve path
      = (scope.mapping.columnRef scope.tableAlias "" path).map fun c =>
          ⟨[], scope.mapping, c⟩ := by
  unfold resolve
  rw [FieldPath.split_of_not_dotted h]
  cases hc : scope.mapping.columnRef scope.tableAlias "" path <;>
    simp [Catalog.steps, hc, bind, Except.bind, pure, Except.pure, Except.map]

/-- A field renders its column, with the steps on the way to it. -/
theorem field_renders (hd : dialect.Lawful) {path : String} {f : Fragment}
    (h : scope.field dialect path = .ok f) :
    f.Renders dialect (.ofText (scope.columnText dialect path)) [] (scope.stepsTo path) := by
  unfold field at h
  split at h
  · next hdot =>
    rw [Bool.not_eq_true'] at hdot
    obtain ⟨c, hc, rfl⟩ := map_eq_ok.1 h
    have hres : scope.resolve path = _ := resolve_of_not_dotted hdot
    rw [hc] at hres
    simp only [columnText, stepsTo, hres, Except.map]
    exact .text (hd.quoteTableColumn _ _)
  · split at h
    · cases h
    · obtain ⟨resolved, hres, h⟩ := bind_eq_ok.1 h
      obtain ⟨joins, hjoins, h⟩ := bind_eq_ok.1 h
      cases pure_eq_ok.1 h
      simp only [columnText, stepsTo, hres]
      exact ⟨by simp, rfl, by simp, joins_eq_ofSteps hjoins, hd.quoteTableColumn _ _⟩

end Scope

section Compile

variable {dialect : Dialect} {scope : Scope}

theorem Element.collectEach_eq_flatMap {α : Type} (literal : Value → List α)
    (field : String → List α) (elements : List Element) :
    Element.collectEach literal field elements
      = elements.flatMap (Element.collect literal field) := by
  induction elements with
  | nil => rfl
  | cons element rest ih => rw [Element.collectEach, List.flatMap_cons, ih]

theorem Element.writtenEach_eq_map (elements : List Element) :
    Element.writtenEach dialect scope elements
      = elements.map (Element.written dialect scope) := by
  induction elements with
  | nil => rfl
  | cons element rest ih => rw [Element.writtenEach, List.map_cons, ih]

/-- Arguments that render writings one by one, with the literals and steps
of all of them. -/
structure Arguments.Render (dialect : Dialect) (args : Arguments) (ws : List Writing)
    (literals : List Value) (steps : List Step) : Prop where
  texts : args.texts.map String.toList = ws.map Writing.chars
  params : args.params = literals
  written : ws.flatMap Writing.literals = literals
  joins : args.joins = Joins.ofSteps dialect steps
  sound : ∀ w ∈ ws, w.Sound

theorem Arguments.Render.empty : Arguments.Render dialect {} [] [] [] :=
  ⟨rfl, rfl, rfl, rfl, by simp⟩

theorem Arguments.Render.push {args more : Arguments} {ws : List Writing} {x y : List Value}
    {a b : List Step} {f : Fragment} {w : Writing} (hargs : args.Render dialect ws x a)
    (hf : f.Renders dialect w y b) (h : args.push f = .ok more) :
    more.Render dialect (ws ++ [w]) (x ++ y) (a ++ b) := by
  obtain ⟨joins, hjoins, rfl⟩ := map_eq_ok.1 h
  rw [hargs.joins, hf.joins] at hjoins
  refine ⟨by simp [hargs.texts, hf.sql], by rw [hargs.params, hf.params],
    by simp [hargs.written, hf.written], Joins.merge_ofSteps hjoins, fun v hv => ?_⟩
  rcases List.mem_append.1 hv with hv | hv
  · exact hargs.sound v hv
  · cases List.mem_singleton.1 hv
    exact hf.sound

/-- A call renders its form with the arguments in their places. -/
theorem Arguments.Render.fill {args : Arguments} {ws : List Writing} {x : List Value}
    {steps : List Step} {template : String} (hargs : args.Render dialect ws x steps)
    (hplaces : Writing.places template.toList = ws.length)
    (hplaced : Writing.Sound.placed none template.toList) :
    (args.fill template).Renders dialect (.fill template.toList ws) x steps where
  sql := by
    rw [Writing.chars_fill, ← hargs.texts]
    simp [Arguments.fill, Template.fill]
  params := hargs.params
  written := by rw [Writing.literals_fill hplaces, hargs.written]
  joins := hargs.joins
  sound := .filled hplaced hargs.sound

/-- A method that is called as declared is one that is declared, and is
called with as many arguments. -/
theorem Signature.of_check {name : String} {args : List Element} {s : Signature}
    (h : Signature.check name args = .ok s) :
    s ∈ Signature.all ∧ s.name = name ∧ args.length = s.args.length := by
  unfold check at h
  split at h
  · cases h
  · next s' hfind =>
    split at h
    · cases h
    · next hlen =>
      split at h
      · cases h
      · cases h
        refine ⟨List.mem_of_find?_eq_some hfind, ?_, not_not.1 hlen⟩
        simpa using List.find?_some hfind

/-- The form of a call is the dialect's template for the method, with a
place outside of quotes for each argument. -/
theorem Dialect.Lawful.form {name : String} {args : List Element} {template : String}
    (hd : dialect.Lawful) (h : dialect.form name args = .ok template) :
    dialect.template? name = some template
      ∧ Writing.places template.toList = args.length
      ∧ Writing.Sound.placed none template.toList := by
  obtain ⟨s, hs, h⟩ := bind_eq_ok.1 h
  obtain ⟨hmem, rfl, hlen⟩ := Signature.of_check hs
  cases ht : dialect.template? s.name with
  | none =>
      rw [ht] at h
      cases h
  | some t =>
      rw [ht] at h
      cases pure_eq_ok.1 h
      exact ⟨rfl, by rw [hd.places s hmem template ht, hlen], hd.placed s.name template ht⟩

mutual

/-- An element renders what it is written as. -/
theorem Element.compile_renders (hd : dialect.Lawful) : ∀ {element : Element} {f : Fragment},
    element.compile dialect scope = .ok f →
      f.Renders dialect (element.written dialect scope) element.literals (element.steps scope)
  | .value v, f, h => by
      cases pure_eq_ok.1 h
      exact .literal v
  | .field path, f, h => Scope.field_renders hd h
  | .method name args, f, h => by
      obtain ⟨template, htemplate, h⟩ := bind_eq_ok.1 h
      obtain ⟨compiled, hargs, h⟩ := bind_eq_ok.1 h
      cases pure_eq_ok.1 h
      obtain ⟨ht, hplaces, hplaced⟩ := hd.form htemplate
      have hrender := Element.compileArgs_render hd Arguments.Render.empty hargs
      rw [Element.written, ht, Element.writtenEach_eq_map, Element.steps, Element.literals,
        Element.collect, Element.collect, Element.collectEach_eq_flatMap,
        Element.collectEach_eq_flatMap]
      exact hrender.fill (by rw [hplaces, List.nil_append, List.length_map]) hplaced
termination_by structural element => element

/-- Arguments render what they are written as, behind those before
them. -/
theorem Element.compileArgs_render (hd : dialect.Lawful) :
    ∀ {args : List Element} {sofar done : Arguments} {ws : List Writing} {x : List Value}
      {a : List Step},
      sofar.Render dialect ws x a → Element.compileArgs dialect scope sofar args = .ok done →
      done.Render dialect (ws ++ args.map (Element.written dialect scope))
        (x ++ args.flatMap Element.literals) (a ++ args.flatMap (Element.steps scope))
  | [], sofar, done, ws, x, a, hsofar, h => by
      cases pure_eq_ok.1 h
      simpa using hsofar
  | arg :: rest, sofar, done, ws, x, a, hsofar, h => by
      obtain ⟨f, hf, h⟩ := bind_eq_ok.1 h
      obtain ⟨more, hmore, h⟩ := bind_eq_ok.1 h
      have hrest := Element.compileArgs_render hd
        (hsofar.push (Element.compile_renders hd hf) hmore) h
      simpa [List.append_assoc] using hrest
termination_by structural args => args

end

/-- Elements of a list render what they are written as. -/
theorem Element.forall₂_compile (hd : dialect.Lawful) {elements : List Element}
    {fs : List Fragment} (h : elements.mapM (Element.compile dialect scope) = .ok fs) :
    List.Forall₂ (fun f element => f.Renders dialect (Element.written dialect scope element)
      element.literals (Element.steps scope element)) fs elements :=
  (forall₂_of_mapM h).flip.imp fun _ _ hf => Element.compile_renders hd hf

-- ============================================================== clauses

theorem Comparison.operator_sound (hd : dialect.Lawful) (comparison : Comparison) :
    (Writing.ofText s!" {comparison.operator dialect} ").Sound := by
  have hop : (Writing.ofText (comparison.operator dialect)).Sound := by
    cases comparison with
    | eq | neq => exact hd.nullSafeEq
    | gt => exact show (Writing.ofText ">").Sound from .plain (by decide)
    | gte => exact show (Writing.ofText ">=").Sound from .plain (by decide)
    | lt => exact show (Writing.ofText "<").Sound from .plain (by decide)
    | lte => exact show (Writing.ofText "<=").Sound from .plain (by decide)
  have hblank : (Writing.ofText " ").Sound := .plain (by decide)
  show (Writing.ofText (" " ++ comparison.operator dialect ++ " ")).Sound
  rw [Writing.ofText_append, Writing.ofText_append]
  exact (hblank.append hop).append hblank

theorem Comparison.compile_renders (hd : dialect.Lawful) {comparison : Comparison}
    {lhs rhs : Element} {f : Fragment} (h : comparison.compile dialect scope lhs rhs = .ok f) :
    f.Renders dialect (comparison.written dialect scope lhs rhs)
      (lhs.literals ++ rhs.literals) (lhs.steps scope ++ rhs.steps scope) := by
  obtain ⟨left, hleft, h⟩ := bind_eq_ok.1 h
  obtain ⟨right, hright, h⟩ := bind_eq_ok.1 h
  obtain ⟨whole, hwhole, h⟩ := bind_eq_ok.1 h
  have hrender := ((Element.compile_renders hd hleft).followed
    (comparison.operator_sound hd)).append (Element.compile_renders hd hright) hwhole
  rw [List.append_assoc] at hrender
  cases pure_eq_ok.1 h
  unfold written
  by_cases hneq : comparison = .neq
  · rw [if_pos hneq, if_pos hneq]
    exact hrender.negate
  · rw [if_neg hneq, if_neg hneq]
    exact hrender

private theorem comma : (Writing.ofText ", ").Sound := .plain (by decide)

/-- A tuple renders its elements, in parentheses unless there is one. -/
theorem Element.compileTuple_renders (hd : dialect.Lawful) {elements : List Element}
    {f : Fragment} (h : Element.compileList dialect scope elements = .ok f) :
    (f.tuple elements.length).Renders dialect (Element.writtenTuple dialect scope elements)
      (elements.flatMap Element.literals) (elements.flatMap (Element.steps scope)) := by
  obtain ⟨fs, hfs, h⟩ := bind_eq_ok.1 h
  have hlist := Fragment.Renders.join comma (Element.forall₂_compile hd hfs) h
  unfold Fragment.tuple writtenTuple
  split
  · exact hlist.parenthesize
  · exact hlist

/-- The rows of a membership render their tuples. -/
theorem Element.forall₂_compileTuple (hd : dialect.Lawful) {rows : List (List Element)}
    {arity : Nat} {fs : List Fragment} (hrows : ∀ row ∈ rows, row.length = arity)
    (h : (rows.mapM fun row => do
      let tuple ← Element.compileList dialect scope row
      pure (tuple.tuple arity)) = .ok fs) :
    List.Forall₂ (fun f row => f.Renders dialect (Element.writtenTuple dialect scope row)
      (row.flatMap Element.literals) (row.flatMap (Element.steps scope))) fs rows := by
  have hall := forall₂_of_mapM h
  clear h
  induction hall with
  | nil => exact .nil
  | @cons row f rows fs hhead _ ih =>
      refine .cons ?_ (ih fun r hr => hrows r (List.mem_cons_of_mem _ hr))
      obtain ⟨tuple, htuple, hhead⟩ := bind_eq_ok.1 hhead
      cases pure_eq_ok.1 hhead
      have hrow := Element.compileTuple_renders hd htuple
      rwa [hrows row List.mem_cons_self] at hrow

/-- Membership is compiled only of tuples of one length that is not zero:
what then is compiled, for an empty list and for others. -/
theorem Clause.of_compileIn {lhs : List Element} {rows : List (List Element)} {f : Fragment}
    (h : Clause.compileIn dialect scope lhs rows = .ok f) :
    (∀ row ∈ rows, row.length = lhs.length)
      ∧ ∃ left, Element.compileList dialect scope lhs = .ok left
        ∧ (rows = [] ∧ f = { sql := "1 = 0" }
          ∨ rows ≠ [] ∧ ∃ tuples list whole,
            (rows.mapM fun row => do
              let tuple ← Element.compileList dialect scope row
              pure (tuple.tuple lhs.length)) = .ok tuples
            ∧ Fragment.join ", " tuples = .ok list
            ∧ ((left.tuple lhs.length).wrap "" (if 1 < lhs.length && dialect.rowValuesInList
                then " IN (VALUES " else " IN (")).append list = .ok whole
            ∧ f = whole.wrap "" ")") := by
  unfold Clause.compileIn at h
  dsimp only at h
  split at h
  · obtain ⟨_, hthrow, -⟩ := bind_eq_ok.1 h
    exact absurd hthrow throw_ne_ok
  · split at h
    · obtain ⟨_, hthrow, -⟩ := bind_eq_ok.1 h
      exact absurd hthrow throw_ne_ok
    · next hfind =>
      obtain ⟨left, hleft, h⟩ := bind_eq_ok.1 h
      have hrows : ∀ row ∈ rows, row.length = lhs.length := by
        cases hnone : rows.find? fun row => decide (row.length ≠ lhs.length) with
        | none =>
            intro row hrow
            simpa using List.find?_eq_none.1 hnone row hrow
        | some row => exact absurd hnone (hfind row)
      refine ⟨hrows, left, hleft, ?_⟩
      split at h
      · next hempty =>
        cases pure_eq_ok.1 h
        exact Or.inl ⟨List.isEmpty_iff.1 hempty, rfl⟩
      · next hempty =>
        obtain ⟨tuples, htuples, h⟩ := bind_eq_ok.1 h
        obtain ⟨list, hlist, h⟩ := bind_eq_ok.1 h
        obtain ⟨whole, hwhole, h⟩ := bind_eq_ok.1 h
        exact Or.inr ⟨fun hrows => hempty (List.isEmpty_iff.2 hrows), tuples, list, whole,
          htuples, hlist, hwhole, (pure_eq_ok.1 h).symm⟩

/-- A membership renders its tuples; in an empty list it renders none. -/
theorem Clause.compileIn_renders (hd : dialect.Lawful) {lhs : List Element}
    {rows : List (List Element)} {f : Fragment}
    (h : Clause.compileIn dialect scope lhs rows = .ok f) :
    f.Renders dialect (Clause.writtenIn dialect scope lhs rows)
      (Clause.isIn lhs rows).literals ((Clause.isIn lhs rows).steps scope) := by
  obtain ⟨hrows, left, hleft, ⟨rfl, rfl⟩ | ⟨hne, tuples, list, whole, htuples, hlist, hwhole,
    rfl⟩⟩ := Clause.of_compileIn h
  · exact .text (.plain (by decide))
  · have hempty : rows.isEmpty = false := by simpa using hne
    have hopening : (Writing.ofText (if 1 < lhs.length && dialect.rowValuesInList
        then " IN (VALUES " else " IN (")).Sound := by
      split <;> exact .plain (by decide)
    have hlists := Fragment.Renders.join comma
      (Element.forall₂_compileTuple hd hrows htuples) hlist
    have hlhs := (Element.compileTuple_renders hd hleft).followed hopening
    have hclosing : (Writing.ofText ")").Sound := .plain (by decide)
    have hrender := (hlhs.append hlists hwhole).followed hclosing
    simp only [Clause.writtenIn, Clause.literals, Clause.steps, Clause.collect, hempty,
      Bool.false_eq_true, if_false]
    simp only [List.append_assoc] at hrender
    exact hrender

theorem Clause.writtenEach_eq_map (clauses : List Clause) :
    Clause.writtenEach dialect scope clauses = clauses.map (Clause.written dialect scope) := by
  induction clauses with
  | nil => rfl
  | cons clause rest ih => rw [Clause.writtenEach, List.map_cons, ih]

theorem Clause.collectEach_eq_flatMap {α : Type} (literal : Value → List α)
    (field : String → List α) (clauses : List Clause) :
    Clause.collectEach literal field clauses
      = clauses.flatMap (Clause.collect literal field) := by
  induction clauses with
  | nil => rfl
  | cons clause rest ih => rw [Clause.collectEach, List.flatMap_cons, ih]

/-- A group of clauses renders its members, if they render what they are
written as. -/
theorem Fragment.Renders.group {separator : String} {clauses : List Clause}
    {fs : List Fragment} {f : Fragment} (hs : (Writing.ofText separator).Sound)
    (hall : List.Forall₂ (fun f clause => f.Renders dialect
      (Clause.written dialect scope clause) clause.literals (Clause.steps scope clause))
      fs clauses)
    (h : Fragment.join separator fs = .ok f) :
    f.parenthesize.Renders dialect
      ((Writing.separated separator (Clause.writtenEach dialect scope clauses)).between "(" ")")
      (Clause.collectEach (fun v => [v]) (fun _ => []) clauses)
      (Clause.collectEach (fun _ => []) scope.stepsTo clauses) := by
  rw [Clause.writtenEach_eq_map, Clause.collectEach_eq_flatMap, Clause.collectEach_eq_flatMap]
  exact (Fragment.Renders.join hs hall h).parenthesize

mutual

/-- A clause renders what it is written as. -/
theorem Clause.compile_renders (hd : dialect.Lawful) : ∀ {clause : Clause} {f : Fragment},
    clause.compile dialect scope = .ok f →
      f.Renders dialect (clause.written dialect scope) clause.literals (clause.steps scope)
  | .compare comparison lhs rhs, f, h => Comparison.compile_renders hd h
  | .not operand, f, h => by
      obtain ⟨inner, hinner, h⟩ := bind_eq_ok.1 h
      cases pure_eq_ok.1 h
      exact (Clause.compile_renders hd hinner).negate
  | .and operands, f, h => by
      rw [Clause.compile] at h
      split at h
      · obtain ⟨_, hthrow, -⟩ := bind_eq_ok.1 h
        exact absurd hthrow throw_ne_ok
      · obtain ⟨fs, hfs, h⟩ := bind_eq_ok.1 h
        obtain ⟨whole, hwhole, h⟩ := bind_eq_ok.1 h
        cases pure_eq_ok.1 h
        exact .group (.plain (by decide)) (Clause.forall₂_compileEach hd hfs) hwhole
  | .or operands, f, h => by
      rw [Clause.compile] at h
      split at h
      · obtain ⟨_, hthrow, -⟩ := bind_eq_ok.1 h
        exact absurd hthrow throw_ne_ok
      · obtain ⟨fs, hfs, h⟩ := bind_eq_ok.1 h
        obtain ⟨whole, hwhole, h⟩ := bind_eq_ok.1 h
        cases pure_eq_ok.1 h
        exact .group (.plain (by decide)) (Clause.forall₂_compileEach hd hfs) hwhole
  | .isIn lhs rows, f, h => Clause.compileIn_renders hd h
  | .truthy element, f, h => Element.compile_renders hd h
termination_by structural clause => clause

/-- Clauses of a list render what they are written as. -/
theorem Clause.forall₂_compileEach (hd : dialect.Lawful) :
    ∀ {clauses : List Clause} {fs : List Fragment},
      Clause.compileEach dialect scope clauses = .ok fs →
      List.Forall₂ (fun f clause => f.Renders dialect
        (Clause.written dialect scope clause) clause.literals (Clause.steps scope clause))
        fs clauses
  | [], fs, h => by
      cases pure_eq_ok.1 h
      exact .nil
  | clause :: rest, fs, h => by
      obtain ⟨f, hf, h⟩ := bind_eq_ok.1 h
      obtain ⟨more, hmore, h⟩ := bind_eq_ok.1 h
      cases pure_eq_ok.1 h
      exact .cons (Clause.compile_renders hd hf) (Clause.forall₂_compileEach hd hmore)
termination_by structural clauses => clauses

end

/-- A term of an order renders its element and its direction. -/
theorem OrderTerm.compile_renders (hd : dialect.Lawful) {term : OrderTerm} {f : Fragment}
    (h : term.compile dialect scope = .ok f) :
    f.Renders dialect (term.written dialect scope) term.element.literals
      (term.element.steps scope) := by
  obtain ⟨inner, hinner, h⟩ := bind_eq_ok.1 h
  cases pure_eq_ok.1 h
  apply (Element.compile_renders hd hinner).followed
  cases term.direction <;> exact .plain (by decide)

end Compile

end RecordQuery
