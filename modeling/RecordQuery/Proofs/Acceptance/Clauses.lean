/-
The clauses that are accepted. What a clause is made of is checked part by
part: groups and memberships by their shape, calls by the signatures,
fields by where they lead. Beyond its parts only the paths matter that are
written: their joins are put together, so no two of them may clash,
however far apart they stand. A membership in nothing is not written; the
paths of its operand may clash with others, but not with each other.
-/
import RecordQuery.Proofs.Acceptance.Calls
import RecordQuery.Proofs.Acceptance.Fields

namespace RecordQuery

open RelationPath

-- ================================================================ parts

mutual

/-- The elements within an element, itself first. -/
def Element.parts : Element → List Element
  | .value v => [.value v]
  | .field path => [.field path]
  | .method name args => .method name args :: Element.partsEach args
termination_by structural element => element

/-- The elements within elements. -/
def Element.partsEach : List Element → List Element
  | [] => []
  | element :: rest => element.parts ++ Element.partsEach rest
termination_by structural elements => elements

end

mutual

/-- The clauses within a clause, itself first. -/
def Clause.parts : Clause → List Clause
  | .compare comparison lhs rhs => [.compare comparison lhs rhs]
  | .not operand => .not operand :: operand.parts
  | .and operands => .and operands :: Clause.partsEach operands
  | .or operands => .or operands :: Clause.partsEach operands
  | .isIn lhs rows => [.isIn lhs rows]
  | .truthy element => [.truthy element]
termination_by structural clause => clause

/-- The clauses within clauses. -/
def Clause.partsEach : List Clause → List Clause
  | [] => []
  | clause :: rest => clause.parts ++ Clause.partsEach rest
termination_by structural clauses => clauses

end

theorem Element.partsEach_eq_flatMap (elements : List Element) :
    Element.partsEach elements = elements.flatMap Element.parts := by
  induction elements with
  | nil => rfl
  | cons element rest ih => rw [Element.partsEach, List.flatMap_cons, ih]

theorem Clause.partsEach_eq_flatMap (clauses : List Clause) :
    Clause.partsEach clauses = clauses.flatMap Clause.parts := by
  induction clauses with
  | nil => rfl
  | cons clause rest ih => rw [Clause.partsEach, List.flatMap_cons, ih]

theorem Clause.elementsEach_eq_flatMap (clauses : List Clause) :
    Clause.elementsEach clauses = clauses.flatMap Clause.elements := by
  induction clauses with
  | nil => rfl
  | cons clause rest ih => rw [Clause.elementsEach, List.flatMap_cons, ih]

/-- The relation paths that the fields of an element follow, with their
beginnings. -/
def Element.paths (element : Element) : List RelationPath :=
  element.atFields FieldPath.relationPaths

/-- The relation paths that are written in a clause. -/
def Clause.paths (clause : Clause) : List RelationPath :=
  clause.atFields FieldPath.relationPaths

section Valid

variable (scope : Scope)

/-- What an element has to meet by itself. -/
def Element.Fits : Element → Prop
  | .value _ => True
  | .field path => scope.Finds path
  | .method name args => Signature.Admits name args

/-- What a clause has to meet by itself. -/
def Clause.Fits : Clause → Prop
  | .and operands => operands ≠ []
  | .or operands => operands ≠ []
  | .isIn lhs rows => (lhs ≠ [] ∧ ∀ row ∈ rows, row.length = lhs.length)
      ∧ (rows = [] → ¬ Clash scope.tableAlias (lhs.flatMap Element.paths))
  | _ => True

/-- All that an element is made of fits. -/
def Element.Valid (element : Element) : Prop :=
  ∀ part ∈ element.parts, part.Fits scope

/-- All that a clause is made of fits. -/
def Clause.Valid (clause : Clause) : Prop :=
  (∀ part ∈ clause.parts, part.Fits scope) ∧ ∀ element ∈ clause.elements, element.Valid scope

end Valid

variable {dialect : Dialect} {scope : Scope}

theorem Element.valid_method {name : String} {args : List Element} :
    (Element.method name args).Valid scope
      ↔ Signature.Admits name args ∧ ∀ arg ∈ args, arg.Valid scope := by
  unfold Element.Valid
  rw [Element.parts, List.forall_mem_cons, Element.partsEach_eq_flatMap, List.forall_mem_flatMap]
  rfl

/-- A group is valid if it has operands and they are. -/
theorem Clause.valid_group {operands : List Clause} {group : Clause}
    (hgroup : group = .and operands ∨ group = .or operands) :
    group.Valid scope ↔ operands ≠ [] ∧ ∀ operand ∈ operands, operand.Valid scope := by
  have hparts : (∀ part ∈ group.parts, part.Fits scope)
      ↔ operands ≠ [] ∧ ∀ operand ∈ operands, ∀ part ∈ operand.parts, part.Fits scope := by
    rcases hgroup with rfl | rfl <;>
      · rw [Clause.parts, List.forall_mem_cons, Clause.partsEach_eq_flatMap,
          List.forall_mem_flatMap]
        rfl
  have helements : group.elements = operands.flatMap Clause.elements := by
    rcases hgroup with rfl | rfl <;>
      rw [Clause.elements, Clause.elementsEach_eq_flatMap]
  unfold Clause.Valid
  rw [hparts, helements, List.forall_mem_flatMap, and_assoc, forall₂_and]

theorem Clause.valid_isIn {lhs : List Element} {rows : List (List Element)} :
    (Clause.isIn lhs rows).Valid scope
      ↔ (Clause.isIn lhs rows).Fits scope ∧ (∀ element ∈ lhs, element.Valid scope)
        ∧ ∀ row ∈ rows, ∀ element ∈ row, element.Valid scope := by
  unfold Clause.Valid
  rw [Clause.parts, List.forall_mem_singleton, Clause.elements, List.forall_mem_append,
    List.forall_mem_flatten]

-- ============================================================= elements

/-- Where all of some are valid and their paths do not clash, the paths of
each do not. -/
theorem RelationPath.each_and_all {α : Type} {xs : List α} {V : α → Prop} {root : String}
    {paths : α → List RelationPath} :
    ((∀ x ∈ xs, V x ∧ ¬ Clash root (paths x)) ∧ ¬ Clash root (xs.flatMap paths))
      ↔ (∀ x ∈ xs, V x) ∧ ¬ Clash root (xs.flatMap paths) := by
  constructor
  · exact fun h => ⟨fun x hx => (h.1 x hx).1, h.2⟩
  · refine fun h => ⟨fun x hx => ⟨h.1 x hx, fun hclash => h.2 (hclash.subset ?_)⟩, h.2⟩
    exact fun p hp => List.mem_flatMap.2 ⟨x, hx, hp⟩

theorem Arguments.push_decided (hbare : scope.aliasPrefix = "") {args : Arguments} {f : Fragment}
    {a b : List RelationPath} (hargs : scope.Clear dialect args.joins a)
    (hf : scope.Clear dialect f.joins b) :
    Decided (args.push f) (fun more => scope.Clear dialect more.joins (a ++ b))
      (¬ Clash scope.tableAlias (a ++ b)) :=
  (hargs.merge hbare hf).map fun _ hjoins => hjoins

/-- The paths of a call are those of its arguments. -/
theorem Element.paths_method (name : String) (args : List Element) :
    (Element.method name args).paths = args.flatMap Element.paths :=
  Element.collectEach_eq_flatMap (fun _ => []) FieldPath.relationPaths args

mutual

/-- An element is compiled if it is valid and its paths do not clash. -/
theorem Element.compile_decided (hd : dialect.Complete) (hbare : scope.aliasPrefix = "") :
    ∀ element : Element,
      Decided (element.compile dialect scope)
        (fun f => scope.Clear dialect f.joins element.paths)
        (element.Valid scope ∧ ¬ Clash scope.tableAlias element.paths)
  | .value v => by
      have hvalid : (Element.value v).Valid scope := by
        unfold Element.Valid
        rw [Element.parts, List.forall_mem_singleton]
        trivial
      refine Decided.congr (Decided.pure ?_) (iff_of_true trivial ⟨hvalid, not_clash_nil⟩)
      exact .nil
  | .field path => by
      have hvalid : (Element.field path).Valid scope ↔ scope.Finds path := by
        unfold Element.Valid
        rw [Element.parts, List.forall_mem_singleton]
        rfl
      rw [hvalid]
      exact Scope.field_decided hbare
  | .method name args => by
      have hempty : scope.Clear dialect ({} : Arguments).joins [] := .nil
      have hargs := Element.compileArgs_decided hd hbare args hempty
      rw [List.nil_append, ← Element.paths_method name] at hargs
      rw [Element.valid_method, and_assoc]
      refine (Dialect.form_decided hd).bind fun template _ => ?_
      exact hargs.thenPure fun compiled hcompiled => hcompiled
termination_by structural element => element

/-- Arguments are compiled behind others if they are valid and no paths
clash, those of the others among them. -/
theorem Element.compileArgs_decided (hd : dialect.Complete) (hbare : scope.aliasPrefix = "") :
    ∀ (args : List Element) {sofar : Arguments} {a : List RelationPath},
      scope.Clear dialect sofar.joins a →
      Decided (Element.compileArgs dialect scope sofar args)
        (fun done => scope.Clear dialect done.joins (a ++ args.flatMap Element.paths))
        ((∀ arg ∈ args, arg.Valid scope)
          ∧ ¬ Clash scope.tableAlias (a ++ args.flatMap Element.paths))
  | [], sofar, a, hsofar => by
      rw [List.flatMap_nil, List.append_nil]
      have hdone : Decided (Element.compileArgs dialect scope sofar [])
          (fun done => scope.Clear dialect done.joins a) True := .pure hsofar
      exact hdone.congr (iff_of_true trivial ⟨List.forall_mem_nil _, hsofar.apart⟩)
  | arg :: rest, sofar, a, hsofar => by
      rw [List.flatMap_cons, ← List.append_assoc]
      have hrest : ∀ more : Arguments, scope.Clear dialect more.joins (a ++ arg.paths) → _ :=
        fun _ hmore => Element.compileArgs_decided hd hbare rest hmore
      refine ((Element.compile_decided hd hbare arg).bind fun f hf =>
        (Arguments.push_decided hbare hsofar hf).bind hrest).congr ?_
      rw [List.forall_mem_cons]
      constructor
      · rintro ⟨⟨harg, -⟩, -, hvalid, hapart⟩
        exact ⟨⟨harg, hvalid⟩, hapart⟩
      · rintro ⟨⟨harg, hvalid⟩, hapart⟩
        have hboth := not_clash_left hapart
        exact ⟨⟨harg, not_clash_right hboth⟩, hboth, hvalid, hapart⟩
termination_by structural args => args

end

/-- Elements are compiled if they are valid and the paths of all of them
do not clash. -/
theorem Element.compileList_decided (hd : dialect.Complete) (hbare : scope.aliasPrefix = "")
    (elements : List Element) :
    Decided (Element.compileList dialect scope elements)
      (fun f => scope.Clear dialect f.joins (elements.flatMap Element.paths))
      ((∀ element ∈ elements, element.Valid scope)
        ∧ ¬ Clash scope.tableAlias (elements.flatMap Element.paths)) := by
  refine Decided.congr (Decided.bind (Decided.mapM fun element _ =>
    Element.compile_decided hd hbare element) fun fs hfs => ?_) each_and_all
  exact Fragment.join_decided hbare hfs

-- ============================================================== clauses

/-- A comparison is compiled if its sides are valid and no paths clash. -/
theorem Comparison.compile_decided (hd : dialect.Complete) (hbare : scope.aliasPrefix = "")
    (comparison : Comparison) (lhs rhs : Element) :
    Decided (comparison.compile dialect scope lhs rhs)
      (fun f => scope.Clear dialect f.joins (lhs.paths ++ rhs.paths))
      ((lhs.Valid scope ∧ rhs.Valid scope)
        ∧ ¬ Clash scope.tableAlias (lhs.paths ++ rhs.paths)) := by
  have hwhole : ∀ left right : Fragment, scope.Clear dialect left.joins lhs.paths →
      scope.Clear dialect right.joins rhs.paths →
      Decided ((left.wrap "" s!" {comparison.operator dialect} ").append right)
        (fun whole => scope.Clear dialect whole.joins (lhs.paths ++ rhs.paths))
        (¬ Clash scope.tableAlias (lhs.paths ++ rhs.paths)) :=
    fun _ _ hleft hright => Fragment.append_decided hbare hleft hright
  refine ((Element.compile_decided hd hbare lhs).bind fun left hleft =>
    (Element.compile_decided hd hbare rhs).bind fun right hright =>
      (hwhole left right hleft hright).thenPure fun whole hjoins => ?_).congr ?_
  · split
    · exact hjoins
    · exact hjoins
  · constructor
    · rintro ⟨⟨hlhs, -⟩, ⟨hrhs, -⟩, hapart⟩
      exact ⟨⟨hlhs, hrhs⟩, hapart⟩
    · rintro ⟨⟨hlhs, hrhs⟩, hapart⟩
      exact ⟨⟨hlhs, not_clash_left hapart⟩, ⟨hrhs, not_clash_right hapart⟩, hapart⟩

/-- A tuple has the paths of its elements. -/
theorem Element.compileTuple_decided (hd : dialect.Complete) (hbare : scope.aliasPrefix = "")
    (arity : Nat) (row : List Element) :
    Decided (do
        let tuple ← Element.compileList dialect scope row
        pure (tuple.tuple arity))
      (fun f => scope.Clear dialect f.joins (row.flatMap Element.paths))
      ((∀ element ∈ row, element.Valid scope)
        ∧ ¬ Clash scope.tableAlias (row.flatMap Element.paths)) := by
  refine (Element.compileList_decided hd hbare row).thenPure fun f hf => ?_
  rwa [Fragment.joins_tuple]

/-- A list of tuples is put behind a tuple unless paths of either clash. -/
theorem Fragment.appendTo_tuple_decided (hbare : scope.aliasPrefix = "") {left list : Fragment}
    {arity : Nat} {opening : String} {a b : List RelationPath}
    (hleft : scope.Clear dialect left.joins a) (hlist : scope.Clear dialect list.joins b) :
    Decided (((left.tuple arity).wrap "" opening).append list)
      (fun whole => scope.Clear dialect whole.joins (a ++ b))
      (¬ Clash scope.tableAlias (a ++ b)) := by
  refine Fragment.append_decided hbare ?_ hlist
  exact (Fragment.joins_tuple arity left).symm ▸ hleft

/-- A tuple and a list of tuples are compiled if all of them are valid and
no paths clash. -/
theorem Clause.compileTuples_decided (hd : dialect.Complete) (hbare : scope.aliasPrefix = "")
    (arity : Nat) (opening : String) (lhs : List Element) (rows : List (List Element)) :
    Decided (do
        let left ← Element.compileList dialect scope lhs
        let tuples ← rows.mapM fun row => do
          let tuple ← Element.compileList dialect scope row
          pure (tuple.tuple arity)
        let list ← Fragment.join ", " tuples
        let whole ← ((left.tuple arity).wrap "" opening).append list
        pure (whole.wrap "" ")"))
      (fun f => scope.Clear dialect f.joins
        (lhs.flatMap Element.paths ++ rows.flatMap fun row => row.flatMap Element.paths))
      (((∀ element ∈ lhs, element.Valid scope) ∧ ∀ row ∈ rows, ∀ element ∈ row, element.Valid scope)
        ∧ ¬ Clash scope.tableAlias
          (lhs.flatMap Element.paths ++ rows.flatMap fun row => row.flatMap Element.paths)) := by
  have hleft := Element.compileList_decided hd hbare lhs
  have htuple := Element.compileTuple_decided hd hbare arity
  refine (hleft.bind fun left hleft => (Decided.mapM fun row _ => htuple row).bind
    fun tuples htuples => (Fragment.join_decided hbare htuples).bind fun list hlist =>
      (Fragment.appendTo_tuple_decided hbare hleft hlist).thenPure
        fun whole hjoins => hjoins).congr ?_
  constructor
  · rintro ⟨⟨hlhs, -⟩, hrows, -, hapart⟩
    exact ⟨⟨hlhs, fun row hrow => (hrows row hrow).1⟩, hapart⟩
  · rintro ⟨⟨hlhs, hrows⟩, hapart⟩
    have hright := not_clash_right hapart
    obtain ⟨heach, -⟩ := each_and_all.2 ⟨hrows, hright⟩
    exact ⟨⟨hlhs, not_clash_left hapart⟩, heach, hright, hapart⟩

/-- A membership that is not in nothing has the paths of its tuples. -/
theorem Clause.paths_isIn {lhs : List Element} {rows : List (List Element)} (h : rows ≠ []) :
    (Clause.isIn lhs rows).paths
      = lhs.flatMap Element.paths ++ rows.flatMap fun row => row.flatMap Element.paths := by
  unfold Clause.paths Clause.atFields Clause.collect
  rw [if_neg (by rwa [List.isEmpty_iff])]
  rfl

/-- A membership is compiled if it is valid and its paths do not clash. In
nothing it has no paths, but is compiled with those of its operand. -/
theorem Clause.compileIn_decided (hd : dialect.Complete) (hbare : scope.aliasPrefix = "")
    (lhs : List Element) (rows : List (List Element)) :
    Decided (Clause.compileIn dialect scope lhs rows)
      (fun f => scope.Clear dialect f.joins (Clause.isIn lhs rows).paths)
      ((Clause.isIn lhs rows).Valid scope
        ∧ ¬ Clash scope.tableAlias (Clause.isIn lhs rows).paths) := by
  rw [Clause.valid_isIn]
  unfold Clause.compileIn
  dsimp only
  split
  · next harity =>
    refine Decided.error ?_
    rintro ⟨⟨⟨⟨hne, -⟩, -⟩, -⟩, -⟩
    exact hne (List.eq_nil_of_length_eq_zero harity)
  · next harity =>
    split
    · next row hrow =>
      refine Decided.error ?_
      rintro ⟨⟨⟨⟨-, hlengths⟩, -⟩, -⟩, -⟩
      have hlength := List.find?_some hrow
      exact absurd (hlengths row (List.mem_of_find?_eq_some hrow)) (by simpa using hlength)
    · next hnone =>
      have hshape : lhs ≠ [] ∧ ∀ row ∈ rows, row.length = lhs.length := by
        constructor
        · rintro rfl
          exact harity rfl
        · intro row hrow
          have hfind := Option.eq_none_iff_forall_ne_some.2 hnone
          simpa using List.find?_eq_none.1 hfind row hrow
      by_cases hrows : rows = []
      · subst hrows
        have hempty : Decided
            (Element.compileList dialect scope lhs >>= fun _ => pure { sql := "1 = 0" })
            (fun f : Fragment => scope.Clear dialect f.joins [])
            ((∀ element ∈ lhs, element.Valid scope)
              ∧ ¬ Clash scope.tableAlias (lhs.flatMap Element.paths)) :=
          (Element.compileList_decided hd hbare lhs).thenPure fun _ _ => .nil
        refine hempty.congr ⟨?_, ?_⟩
        · rintro ⟨hvalid, hapart⟩
          exact ⟨⟨⟨hshape, fun _ => hapart⟩, hvalid, List.forall_mem_nil _⟩, not_clash_nil⟩
        · rintro ⟨⟨⟨-, hapart⟩, hvalid, -⟩, -⟩
          exact ⟨hvalid, hapart rfl⟩
      · rw [Clause.paths_isIn hrows]
        simp only [List.isEmpty_iff, hrows, if_false]
        refine (Clause.compileTuples_decided hd hbare lhs.length _ lhs rows).congr ?_
        refine and_congr_left' ⟨fun hvalid => ?_, And.right⟩
        exact ⟨⟨hshape, fun h => absurd h hrows⟩, hvalid⟩

/-- A group is compiled if it has operands, they are valid and no paths
clash. -/
theorem Clause.compileGroup_decided (hbare : scope.aliasPrefix = "") {separator : String}
    {e : CompileError} {operands : List Clause}
    (heach : Decided (Clause.compileEach dialect scope operands)
      (List.Forall₂ (fun clause f => scope.Clear dialect f.joins clause.paths) operands)
      (∀ clause ∈ operands, clause.Valid scope ∧ ¬ Clash scope.tableAlias clause.paths)) :
    Decided (do
        if operands.isEmpty then throw e
        let f ← Fragment.join separator (← Clause.compileEach dialect scope operands)
        pure f.parenthesize)
      (fun f => scope.Clear dialect f.joins (operands.flatMap Clause.paths))
      ((operands ≠ [] ∧ ∀ operand ∈ operands, operand.Valid scope)
        ∧ ¬ Clash scope.tableAlias (operands.flatMap Clause.paths)) := by
  have hgroup : Decided (do
        let f ← Fragment.join separator (← Clause.compileEach dialect scope operands)
        pure f.parenthesize)
      (fun f => scope.Clear dialect f.joins (operands.flatMap Clause.paths))
      ((∀ operand ∈ operands, operand.Valid scope)
        ∧ ¬ Clash scope.tableAlias (operands.flatMap Clause.paths)) :=
    (heach.bind fun fs hfs =>
      (Fragment.join_decided hbare hfs).thenPure fun f hf => hf).congr each_and_all
  rw [and_assoc]
  refine hgroup.check.congr (and_congr_left' ?_)
  rw [List.isEmpty_iff]

mutual

/-- A clause is compiled if it is valid and its paths do not clash. -/
theorem Clause.compile_decided (hd : dialect.Complete) (hbare : scope.aliasPrefix = "") :
    ∀ clause : Clause,
      Decided (clause.compile dialect scope) (fun f => scope.Clear dialect f.joins clause.paths)
        (clause.Valid scope ∧ ¬ Clash scope.tableAlias clause.paths)
  | .compare comparison lhs rhs => by
      have hvalid : (Clause.compare comparison lhs rhs).Valid scope
          ↔ lhs.Valid scope ∧ rhs.Valid scope := by
        simp [Clause.Valid, Clause.parts, Clause.elements, Clause.Fits]
      rw [hvalid]
      exact Comparison.compile_decided hd hbare comparison lhs rhs
  | .not operand => by
      have hvalid : (Clause.not operand).Valid scope ↔ operand.Valid scope := by
        simp [Clause.Valid, Clause.parts, Clause.elements, Clause.Fits]
      rw [hvalid]
      exact (Clause.compile_decided hd hbare operand).thenPure fun f hf => hf
  | .and operands => by
      have hpaths : (Clause.and operands).paths = operands.flatMap Clause.paths :=
        Clause.collectEach_eq_flatMap _ _ operands
      rw [Clause.valid_group (Or.inl rfl), hpaths]
      exact Clause.compileGroup_decided hbare (Clause.compileEach_decided hd hbare operands)
  | .or operands => by
      have hpaths : (Clause.or operands).paths = operands.flatMap Clause.paths :=
        Clause.collectEach_eq_flatMap _ _ operands
      rw [Clause.valid_group (Or.inr rfl), hpaths]
      exact Clause.compileGroup_decided hbare (Clause.compileEach_decided hd hbare operands)
  | .isIn lhs rows => Clause.compileIn_decided hd hbare lhs rows
  | .truthy element => by
      have hvalid : (Clause.truthy element).Valid scope ↔ element.Valid scope := by
        simp [Clause.Valid, Clause.parts, Clause.elements, Clause.Fits]
      rw [hvalid]
      exact Element.compile_decided hd hbare element
termination_by structural clause => clause

theorem Clause.compileEach_decided (hd : dialect.Complete) (hbare : scope.aliasPrefix = "") :
    ∀ clauses : List Clause,
      Decided (Clause.compileEach dialect scope clauses)
        (List.Forall₂ (fun clause f => scope.Clear dialect f.joins clause.paths) clauses)
        (∀ clause ∈ clauses, clause.Valid scope ∧ ¬ Clash scope.tableAlias clause.paths)
  | [] => (Decided.pure .nil).congr (iff_of_true trivial (List.forall_mem_nil _))
  | clause :: rest => by
      rw [List.forall_mem_cons]
      refine (Clause.compile_decided hd hbare clause).bind fun f hf => ?_
      exact (Clause.compileEach_decided hd hbare rest).thenPure fun fs hfs => .cons hf hfs
termination_by structural clauses => clauses

end

-- ============================================================ accepted

/-- All elements that a clause is made of. -/
def Clause.allElements (clause : Clause) : List Element :=
  clause.elements.flatMap Element.parts

/-- A clause that can be compiled in a scope. -/
structure Clause.Accepted (scope : Scope) (clause : Clause) : Prop where
  /-- Conjunctions and disjunctions have operands. -/
  groups : ∀ operands, .and operands ∈ clause.parts ∨ .or operands ∈ clause.parts → operands ≠ []
  /-- Memberships compare something, and only with what is as long. -/
  memberships : ∀ lhs rows, .isIn lhs rows ∈ clause.parts →
    lhs ≠ [] ∧ ∀ row ∈ rows, row.length = lhs.length
  calls : ∀ name args, .method name args ∈ clause.allElements → Signature.Admits name args
  fields : ∀ path, .field path ∈ clause.allElements → scope.Finds path
  /-- The relation paths that are written do not clash. -/
  apart : ¬ Clash scope.tableAlias clause.paths
  /-- Those of the operand of a membership in nothing do not clash among
  themselves. -/
  unwritten : ∀ lhs, .isIn lhs [] ∈ clause.parts →
    ¬ Clash scope.tableAlias (lhs.flatMap Element.paths)

/-- Whether a clause is accepted is a matter of its parts and of the paths
that are written in it. -/
theorem Clause.accepted_iff {clause : Clause} :
    clause.Accepted scope ↔ clause.Valid scope ∧ ¬ Clash scope.tableAlias clause.paths := by
  constructor
  · intro h
    refine ⟨⟨fun part hpart => ?_, fun element helement part hpart => ?_⟩, h.apart⟩
    · cases part with
      | and operands => exact h.groups operands (Or.inl hpart)
      | or operands => exact h.groups operands (Or.inr hpart)
      | isIn lhs rows =>
          refine ⟨h.memberships lhs rows hpart, ?_⟩
          rintro rfl
          exact h.unwritten lhs hpart
      | compare | not | truthy => trivial
    · have hall : part ∈ clause.allElements := List.mem_flatMap.2 ⟨element, helement, hpart⟩
      cases part with
      | value => trivial
      | field path => exact h.fields path hall
      | method name args => exact h.calls name args hall
  · rintro ⟨⟨hparts, helements⟩, hapart⟩
    have hall : ∀ part ∈ clause.allElements, part.Fits scope :=
      List.forall_mem_flatMap.2 helements
    exact {
      groups := fun operands hmem => hmem.elim (hparts _) (hparts _)
      memberships := fun lhs rows hmem => (hparts _ hmem).1
      calls := fun name args hmem => hall _ hmem
      fields := fun path hmem => hall _ hmem
      apart := hapart
      unwritten := fun lhs hmem => (hparts _ hmem).2 rfl }

/-- The clauses that compile for a known database are those that are
accepted, wherever they stand: at the root, or in the filter of an
included relation. -/
theorem Clause.compiles_iff_accepted (flavor : Flavor) (catalog : Catalog) (m : Mapping)
    (tableAlias : String) (relation : Option String) (clause : Clause) :
    let scope : Scope := { catalog, mapping := m, tableAlias, relation }
    (∃ f, clause.compile flavor.dialect scope = .ok f) ↔ clause.Accepted scope := by
  intro scope
  rw [Clause.accepted_iff]
  exact (Clause.compile_decided flavor.dialect_complete rfl clause).iff

end RecordQuery
