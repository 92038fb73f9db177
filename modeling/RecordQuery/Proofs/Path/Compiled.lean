/-
The joins of compiled elements and clauses. Whatever the fields of a
request bring in a scope, a compiled piece of the request has the joins of
all fields that are written in it, and compiling it fails for a collision
only if some of the paths it names clash.

The operands of a membership in an empty list are compiled but not
written, so a clause may name more paths than it has joins of.
-/
import RecordQuery.Proofs.Path.Joined

namespace RecordQuery

-- ================================================================ named

mutual

/-- The elements that a clause is made of, written or not, from left to
right. -/
def Clause.elements : Clause → List Element
  | .compare _ lhs rhs => [lhs, rhs]
  | .not operand => operand.elements
  | .and operands => Clause.elementsEach operands
  | .or operands => Clause.elementsEach operands
  | .isIn lhs rows => lhs ++ rows.flatten
  | .truthy element => [element]
termination_by structural clause => clause

/-- The elements of clauses, one clause after the other. -/
def Clause.elementsEach : List Clause → List Element
  | [] => []
  | clause :: rest => clause.elements ++ Clause.elementsEach rest
termination_by structural clauses => clauses

end

section Collect

variable {α : Type} (field : String → List α)

/-- What is found at the fields of an element. -/
def Element.atFields (element : Element) : List α :=
  element.collect (fun _ => []) field

/-- What is found at the fields that a clause names, those it does not
write included. -/
def Clause.atNamed (clause : Clause) : List α :=
  clause.elements.flatMap (Element.atFields field)

/-- What is found at the fields that are written in a clause. -/
def Clause.atFields (clause : Clause) : List α :=
  clause.collect (fun _ => []) field

end Collect

/-- The fields of an element. -/
def Element.fields (element : Element) : List String :=
  element.atFields fun path => [path]

/-- The fields that are written in a clause. -/
def Clause.fields (clause : Clause) : List String :=
  clause.atFields fun path => [path]

/-- The fields that a clause names, written or not. -/
def Clause.namedFields (clause : Clause) : List String :=
  clause.atNamed fun path => [path]

section Collect

variable {α : Type} (field : String → List α)

mutual

/-- What is found at the fields of an element, field by field. -/
theorem Element.atFields_eq_flatMap : ∀ element : Element,
    element.atFields field = element.fields.flatMap field
  | .value _ => rfl
  | .field path => (List.flatMap_singleton field path).symm
  | .method _ args => Element.collectEach_eq args
termination_by structural element => element

theorem Element.collectEach_eq : ∀ elements : List Element,
    Element.collectEach (fun _ => []) field elements
      = (Element.collectEach (fun _ => []) (fun path => [path]) elements).flatMap field
  | [] => rfl
  | element :: rest => by
      rw [Element.collectEach, Element.collectEach, List.flatMap_append,
        ← Element.collectEach_eq rest]
      exact congrArg (· ++ _) (Element.atFields_eq_flatMap element)
termination_by structural elements => elements

end

/-- What is found in elements, field by field. -/
theorem Element.flatMap_atFields (elements : List Element) :
    elements.flatMap (Element.atFields field)
      = (elements.flatMap Element.fields).flatMap field := by
  rw [List.flatMap_assoc]
  exact List.flatMap_congr fun element _ => Element.atFields_eq_flatMap field element

mutual

/-- What is found in a clause, field by field. -/
theorem Clause.atFields_eq_flatMap : ∀ clause : Clause,
    clause.atFields field = clause.fields.flatMap field
  | .compare _ lhs rhs => by
      have hboth := Element.flatMap_atFields field [lhs, rhs]
      simpa [fields, atFields, Clause.collect, Element.atFields, Element.fields] using hboth
  | .not operand => Clause.atFields_eq_flatMap operand
  | .and operands => Clause.collectEach_eq operands
  | .or operands => Clause.collectEach_eq operands
  | .isIn lhs rows => by
      unfold fields atFields Clause.collect
      split
      · rfl
      · rw [List.flatMap_append, List.flatMap_assoc, List.flatMap_assoc]
        exact congr_arg₂ _
          (List.flatMap_congr fun element _ => Element.atFields_eq_flatMap field element)
          (List.flatMap_congr fun row _ => Element.flatMap_atFields field row)
  | .truthy element => Element.atFields_eq_flatMap field element
termination_by structural clause => clause

theorem Clause.collectEach_eq : ∀ clauses : List Clause,
    Clause.collectEach (fun _ => []) field clauses
      = (Clause.collectEach (fun _ => []) (fun path => [path]) clauses).flatMap field
  | [] => rfl
  | clause :: rest => by
      rw [Clause.collectEach, Clause.collectEach, List.flatMap_append,
        ← Clause.collectEach_eq rest]
      exact congrArg (· ++ _) (Clause.atFields_eq_flatMap clause)
termination_by structural clauses => clauses

end

/-- What is found at all that a clause names, field by field. -/
theorem Clause.atNamed_eq_flatMap (clause : Clause) :
    clause.atNamed field = clause.namedFields.flatMap field :=
  Element.flatMap_atFields field clause.elements

/-- At fields that hold nothing, nothing is found. -/
theorem Clause.atNamed_nil (clause : Clause) : clause.atNamed (fun _ => ([] : List α)) = [] := by
  rw [atNamed_eq_flatMap, List.flatMap_eq_nil_iff]
  exact fun _ _ => rfl

theorem Clause.atNamed_isIn (lhs : List Element) (rows : List (List Element)) :
    (Clause.isIn lhs rows).atNamed field = lhs.flatMap (Element.atFields field)
      ++ rows.flatMap fun row => row.flatMap (Element.atFields field) := by
  rw [atNamed, elements, List.flatMap_append]
  simp only [List.flatMap_def, List.map_flatten, List.flatten_flatten, List.map_map,
    Function.comp_def]

mutual

/-- What a clause writes is among what it names. -/
theorem Clause.atFields_subset : ∀ clause : Clause, clause.atFields field ⊆ clause.atNamed field
  | .compare _ lhs rhs => by
      simp [atFields, atNamed, elements, Clause.collect, Element.atFields]
  | .not operand => Clause.atFields_subset operand
  | .and operands => Clause.collectEach_subset operands
  | .or operands => Clause.collectEach_subset operands
  | .isIn lhs rows => by
      rw [atNamed_isIn, atFields, Clause.collect]
      split
      · exact List.nil_subset _
      · exact List.Subset.refl _
  | .truthy element => by
      simp [atFields, atNamed, elements, Clause.collect, Element.atFields]
termination_by structural clause => clause

/-- What clauses write is among what they name. -/
theorem Clause.collectEach_subset : ∀ clauses : List Clause,
    Clause.collectEach (fun _ => []) field clauses
      ⊆ (Clause.elementsEach clauses).flatMap (Element.atFields field)
  | [] => List.Subset.refl _
  | clause :: rest => by
      rw [Clause.collectEach, Clause.elementsEach, List.flatMap_append]
      exact List.append_subset_of_subset_of_subset
        (List.subset_append_of_subset_left _ (Clause.atFields_subset clause))
        (List.subset_append_of_subset_right _ (Clause.collectEach_subset rest))
termination_by structural clauses => clauses

end

end Collect

/-- What a field brings into a scope: its fragment has the joins of paths,
or the paths clash. -/
def Scope.FieldsBring (dialect : Dialect) (scope : Scope) (paths : String → List RelationPath) :
    Prop :=
  ∀ field, Settled (scope.field dialect field)
    (fun f => scope.Joined dialect f.joins (paths field))
    (RelationPath.Clash scope.tableAlias (paths field))

theorem RelationPath.Clash.subset {root : String} {paths named : List RelationPath}
    (h : RelationPath.Clash root paths) (hsub : paths ⊆ named) :
    RelationPath.Clash root named := by
  rcases h with ⟨p, hp, q, hq, hne, halias⟩ | ⟨p, hp, halias⟩
  · exact Or.inl ⟨p, hsub hp, q, hsub hq, hne, halias⟩
  · exact Or.inr ⟨p, hsub hp, halias⟩

-- ============================================================ fragments

variable {dialect : Dialect} {scope : Scope} {named : List RelationPath}

namespace Fragment

variable {f g : Fragment} {a b : List RelationPath}

theorem append_settled (hbare : scope.aliasPrefix = "") (hf : scope.Joined dialect f.joins a)
    (hg : scope.Joined dialect g.joins b) (hnamed : a ++ b ⊆ named) :
    Settled (f.append g) (fun whole => scope.Joined dialect whole.joins (a ++ b))
      (RelationPath.Clash scope.tableAlias named) :=
  (hf.merge hbare hg hnamed).map fun _ hjoins => hjoins

variable {α : Type} {paths : α → List RelationPath} {separator : String}

theorem appendAll_settled (hbare : scope.aliasPrefix = "") {fs : List Fragment}
    {xs : List α} (hall : List.Forall₂ (fun x f => scope.Joined dialect f.joins (paths x)) xs fs) :
    ∀ {f : Fragment} {a : List RelationPath}, scope.Joined dialect f.joins a →
      a ++ xs.flatMap paths ⊆ named →
      Settled (Fragment.appendAll separator f fs)
        (fun whole => scope.Joined dialect whole.joins (a ++ xs.flatMap paths))
        (RelationPath.Clash scope.tableAlias named) := by
  induction hall with
  | nil =>
      intro f a hf _
      rw [List.flatMap_nil, List.append_nil]
      exact .pure hf
  | @cons x g xs fs hhead _ ih =>
      intro f a hf hnamed
      rw [List.flatMap_cons, ← List.append_assoc] at hnamed ⊢
      refine (append_settled hbare (f := f.wrap "" separator) hf hhead
        fun p hp => hnamed (List.mem_append_left _ hp)).bind fun both _ hboth => ?_
      exact ih hboth hnamed

/-- Fragments with a separator between them have the joins of all. -/
theorem join_settled (hbare : scope.aliasPrefix = "") {fs : List Fragment} {xs : List α}
    (hall : List.Forall₂ (fun x f => scope.Joined dialect f.joins (paths x)) xs fs)
    (hnamed : xs.flatMap paths ⊆ named) :
    Settled (Fragment.join separator fs)
      (fun whole => scope.Joined dialect whole.joins (xs.flatMap paths))
      (RelationPath.Clash scope.tableAlias named) := by
  cases hall with
  | nil => exact .pure .nil
  | cons hhead hrest => exact appendAll_settled hbare hrest hhead hnamed

end Fragment

-- ============================================================= elements

section Compile

variable {paths : String → List RelationPath}

/-- Whether a method is called as declared has nothing to do with
aliases. -/
theorem Dialect.form_settled {name : String} {args : List Element} {Q : Prop} :
    Settled (dialect.form name args) (fun _ => True) Q := by
  have hcheck : Settled (Signature.check name args) (fun _ => True) Q := by
    unfold Signature.check
    split
    · exact .error fun _ _ _ => nofun
    · split
      · exact .error fun _ _ _ => nofun
      · split
        · exact .error fun _ _ _ => nofun
        · exact .pure trivial
  refine hcheck.bind fun signature _ _ => ?_
  split
  · exact .pure trivial
  · exact .error fun _ _ _ => nofun

theorem Arguments.push_settled (hbare : scope.aliasPrefix = "") {args : Arguments}
    {f : Fragment} {a b : List RelationPath} (hargs : scope.Joined dialect args.joins a)
    (hf : scope.Joined dialect f.joins b) (hnamed : a ++ b ⊆ named) :
    Settled (args.push f) (fun more => scope.Joined dialect more.joins (a ++ b))
      (RelationPath.Clash scope.tableAlias named) :=
  (hargs.merge hbare hf hnamed).map fun _ hjoins => hjoins

mutual

/-- A compiled element has the joins of its fields. -/
theorem Element.compile_settled (hbare : scope.aliasPrefix = "")
    (hfields : scope.FieldsBring dialect paths) : ∀ {element : Element},
    element.atFields paths ⊆ named →
    Settled (element.compile dialect scope)
      (fun f => scope.Joined dialect f.joins (element.atFields paths))
      (RelationPath.Clash scope.tableAlias named)
  | .value v, _ => .pure .nil
  | .field path, hnamed => (hfields path).imp (fun _ _ hf => hf) fun h => h.subset hnamed
  | .method name args, hnamed => by
      refine Dialect.form_settled.bind fun template _ _ => ?_
      exact (Element.compileArgs_settled hbare hfields (a := []) .nil hnamed).bind
        fun compiled _ hargs => .pure hargs
termination_by structural element => element

/-- Compiled arguments have the joins of all of them. -/
theorem Element.compileArgs_settled (hbare : scope.aliasPrefix = "")
    (hfields : scope.FieldsBring dialect paths) :
    ∀ {args : List Element} {sofar : Arguments} {a : List RelationPath},
      scope.Joined dialect sofar.joins a →
      a ++ Element.collectEach (fun _ => []) paths args ⊆ named →
      Settled (Element.compileArgs dialect scope sofar args)
        (fun done => scope.Joined dialect done.joins
          (a ++ Element.collectEach (fun _ => []) paths args))
        (RelationPath.Clash scope.tableAlias named)
  | [], sofar, a, hsofar, _ => by
      rw [Element.collectEach, List.append_nil]
      exact .pure hsofar
  | arg :: rest, sofar, a, hsofar, hnamed => by
      rw [Element.collectEach, ← List.append_assoc] at hnamed ⊢
      have hboth : a ++ arg.atFields paths ⊆ named :=
        fun p hp => hnamed (List.mem_append_left _ hp)
      refine (Element.compile_settled hbare hfields
        fun p hp => hboth (List.mem_append_right _ hp)).bind fun f _ hf => ?_
      refine (Arguments.push_settled hbare hsofar hf hboth).bind fun more _ hmore => ?_
      exact Element.compileArgs_settled hbare hfields hmore hnamed
termination_by structural args => args

end

/-- Compiled elements with commas between them have the joins of all. -/
theorem Element.compileList_settled (hbare : scope.aliasPrefix = "")
    (hfields : scope.FieldsBring dialect paths) {elements : List Element}
    (hnamed : elements.flatMap (Element.atFields paths) ⊆ named) :
    Settled (Element.compileList dialect scope elements)
      (fun f => scope.Joined dialect f.joins (elements.flatMap (Element.atFields paths)))
      (RelationPath.Clash scope.tableAlias named) :=
  (Settled.mapM fun _ helement => Element.compile_settled hbare hfields
    fun _ hp => hnamed (List.mem_flatMap.2 ⟨_, helement, hp⟩)).bind fun _ _ hall =>
      Fragment.join_settled hbare hall hnamed

-- ============================================================== clauses

theorem Comparison.compile_settled (hbare : scope.aliasPrefix = "")
    (hfields : scope.FieldsBring dialect paths) {comparison : Comparison} {lhs rhs : Element}
    (hnamed : lhs.atFields paths ++ rhs.atFields paths ⊆ named) :
    Settled (comparison.compile dialect scope lhs rhs)
      (fun f => scope.Joined dialect f.joins (lhs.atFields paths ++ rhs.atFields paths))
      (RelationPath.Clash scope.tableAlias named) := by
  refine (Element.compile_settled hbare hfields
    fun p hp => hnamed (List.mem_append_left _ hp)).bind fun left _ hleft => ?_
  refine (Element.compile_settled hbare hfields
    fun p hp => hnamed (List.mem_append_right _ hp)).bind fun right _ hright => ?_
  refine (Fragment.append_settled hbare
    (f := left.wrap "" s!" {comparison.operator dialect} ") hleft hright hnamed).bind
      fun whole _ hwhole => .pure ?_
  split
  · exact hwhole
  · exact hwhole

theorem Fragment.joins_tuple (arity : Nat) (f : Fragment) : (f.tuple arity).joins = f.joins := by
  unfold Fragment.tuple
  split <;> rfl

/-- A tuple of a membership has the joins of its elements. -/
theorem Element.compileTuple_settled (hbare : scope.aliasPrefix = "")
    (hfields : scope.FieldsBring dialect paths) {elements : List Element} {arity : Nat}
    (hnamed : elements.flatMap (Element.atFields paths) ⊆ named) :
    Settled
      (do
        let tuple ← Element.compileList dialect scope elements
        pure (tuple.tuple arity))
      (fun f => scope.Joined dialect f.joins (elements.flatMap (Element.atFields paths)))
      (RelationPath.Clash scope.tableAlias named) :=
  (Element.compileList_settled hbare hfields hnamed).bind fun f _ hf =>
    .pure ((Fragment.joins_tuple arity f).symm ▸ hf)

/-- A compiled membership has the joins of its tuples, in an empty list
none. -/
theorem Clause.compileIn_settled (hbare : scope.aliasPrefix = "")
    (hfields : scope.FieldsBring dialect paths) {lhs : List Element} {rows : List (List Element)}
    (hnamed : (Clause.isIn lhs rows).atNamed paths ⊆ named) :
    Settled (Clause.compileIn dialect scope lhs rows)
      (fun f => scope.Joined dialect f.joins ((Clause.isIn lhs rows).atFields paths))
      (RelationPath.Clash scope.tableAlias named) := by
  have hall := Clause.atNamed_isIn paths lhs rows ▸ hnamed
  unfold Clause.compileIn
  dsimp only
  split
  · exact .error fun _ _ _ => nofun
  · split
    · exact .error fun _ _ _ => nofun
    · refine (Element.compileList_settled hbare hfields
        fun p hp => hall (List.mem_append_left _ hp)).bind fun left _ hleft => ?_
      unfold Clause.atFields Clause.collect
      split
      · exact .pure .nil
      · refine (Settled.mapM fun row hrow => Element.compileTuple_settled hbare hfields
          fun p hp => hall (List.mem_append_right _ (List.mem_flatMap.2 ⟨row, hrow, hp⟩))).bind
            fun tuples _ htuples => ?_
        refine (Fragment.join_settled hbare htuples
          fun p hp => hall (List.mem_append_right _ hp)).bind fun list _ hlist => ?_
        refine (Fragment.append_settled hbare (a := lhs.flatMap (Element.atFields paths))
          ?_ hlist hall).bind fun whole _ hwhole => .pure hwhole
        exact (Fragment.joins_tuple lhs.length left).symm ▸ hleft

/-- A group has the joins of its members. -/
theorem Fragment.group_settled (hbare : scope.aliasPrefix = "") {separator : String}
    {clauses : List Clause} {fs : List Fragment}
    (hall : List.Forall₂ (fun clause f => scope.Joined dialect f.joins (clause.atFields paths))
      clauses fs)
    (hnamed : (Clause.elementsEach clauses).flatMap (Element.atFields paths) ⊆ named) :
    Settled
      (do
        let f ← Fragment.join separator fs
        pure f.parenthesize)
      (fun f => scope.Joined dialect f.joins (Clause.collectEach (fun _ => []) paths clauses))
      (RelationPath.Clash scope.tableAlias named) := by
  have hwritten := List.Subset.trans (Clause.collectEach_subset paths clauses) hnamed
  rw [Clause.collectEach_eq_flatMap] at hwritten ⊢
  exact (Fragment.join_settled hbare hall hwritten).bind fun f _ hf => .pure hf

mutual

/-- A compiled clause has the joins of the fields that are written in it. -/
theorem Clause.compile_settled (hbare : scope.aliasPrefix = "")
    (hfields : scope.FieldsBring dialect paths) : ∀ {clause : Clause},
    clause.atNamed paths ⊆ named →
    Settled (clause.compile dialect scope)
      (fun f => scope.Joined dialect f.joins (clause.atFields paths))
      (RelationPath.Clash scope.tableAlias named)
  | .compare comparison lhs rhs, hnamed =>
      Comparison.compile_settled hbare hfields
        (by simpa [Clause.atNamed, Clause.elements] using hnamed)
  | .not operand, hnamed =>
      (Clause.compile_settled hbare hfields
        (show operand.atNamed paths ⊆ named from hnamed)).bind fun f _ hf => .pure hf
  | .and operands, hnamed => by
      rw [Clause.compile]
      split
      · exact .error fun _ _ _ => nofun
      · exact (Clause.compileEach_settled hbare hfields hnamed).bind fun fs _ hfs =>
          Fragment.group_settled hbare hfs hnamed
  | .or operands, hnamed => by
      rw [Clause.compile]
      split
      · exact .error fun _ _ _ => nofun
      · exact (Clause.compileEach_settled hbare hfields hnamed).bind fun fs _ hfs =>
          Fragment.group_settled hbare hfs hnamed
  | .isIn lhs rows, hnamed => Clause.compileIn_settled hbare hfields hnamed
  | .truthy element, hnamed =>
      Element.compile_settled hbare hfields
        (by simpa [Clause.atNamed, Clause.elements] using hnamed)
termination_by structural clause => clause

/-- Compiled clauses have the joins of the fields that are written in
each. -/
theorem Clause.compileEach_settled (hbare : scope.aliasPrefix = "")
    (hfields : scope.FieldsBring dialect paths) : ∀ {clauses : List Clause},
    (Clause.elementsEach clauses).flatMap (Element.atFields paths) ⊆ named →
    Settled (Clause.compileEach dialect scope clauses)
      (List.Forall₂ (fun clause f => scope.Joined dialect f.joins (clause.atFields paths)) clauses)
      (RelationPath.Clash scope.tableAlias named)
  | [], _ => .pure .nil
  | clause :: rest, hnamed => by
      rw [Clause.elementsEach, List.flatMap_append] at hnamed
      refine (Clause.compile_settled hbare hfields
        fun p hp => hnamed (List.mem_append_left _ hp)).bind fun f _ hf => ?_
      exact (Clause.compileEach_settled hbare hfields
        fun p hp => hnamed (List.mem_append_right _ hp)).bind fun fs _ hfs => .pure (.cons hf hfs)
termination_by structural clauses => clauses

end

-- =============================================================== orders

/-- A compiled term of an order has the joins of its element's fields. -/
theorem OrderTerm.compile_settled (hbare : scope.aliasPrefix = "")
    (hfields : scope.FieldsBring dialect paths) {term : OrderTerm}
    (hnamed : term.element.atFields paths ⊆ named) :
    Settled (term.compile dialect scope)
      (fun f => scope.Joined dialect f.joins (term.element.atFields paths))
      (RelationPath.Clash scope.tableAlias named) :=
  (Element.compile_settled hbare hfields hnamed).bind fun _ _ hf => .pure hf

end Compile

-- =============================================================== fields

namespace Catalog

variable {catalog : Catalog} {Q : Prop}

/-- What a relation leads to has nothing to do with aliases. -/
theorem step_settled {m : Mapping} {relation leftAlias before path : String} :
    Settled (catalog.step m relation leftAlias before path) (fun _ => True) Q := by
  unfold Catalog.step
  split
  · exact .error fun _ _ _ => nofun
  · split
    · exact .error fun _ _ _ => nofun
    · exact .pure trivial

theorem steps_settled {path : String} {relations : List String} :
    ∀ {m : Mapping} {leftAlias before : String},
      Settled (catalog.steps m leftAlias before path relations) (fun _ => True) Q := by
  induction relations with
  | nil => exact .pure trivial
  | cons relation rest ih =>
      exact step_settled.bind fun _ _ _ => ih.bind fun _ _ _ => .pure trivial

end Catalog

namespace Mapping

variable {m : Mapping} {Q : Prop}

theorem columnOfField_settled {field : String} :
    Settled (m.columnOfField field) (fun _ => True) Q := by
  unfold columnOfField
  split
  · exact .pure trivial
  · exact .error fun _ _ _ => nofun

theorem columnRef_settled {tableAlias outputPrefix field : String} :
    Settled (m.columnRef tableAlias outputPrefix field) (fun _ => True) Q :=
  columnOfField_settled.map fun _ _ => trivial

end Mapping

namespace Scope

theorem resolve_settled {path : String} {Q : Prop} :
    Settled (scope.resolve path) (fun _ => True) Q :=
  Catalog.steps_settled.bind fun _ _ _ => Mapping.columnRef_settled.bind fun _ _ _ => .pure trivial

/-- The joins of the steps that paths lead to are added, unless paths
clash. -/
theorem Joined.merge_steps (hbare : scope.aliasPrefix = "") {paths : List RelationPath}
    {steps : List Step} (hsteps : List.Forall₂ scope.Leads paths steps) :
    ∀ {joins : Joins} {a : List RelationPath}, scope.Joined dialect joins a → a ++ paths ⊆ named →
      Settled (joins.merge (steps.map fun step => step.join dialect none))
        (fun more => scope.Joined dialect more (a ++ paths))
        (RelationPath.Clash scope.tableAlias named) := by
  induction hsteps with
  | nil =>
      intro joins a hjoins _
      rw [List.append_nil]
      exact .pure hjoins
  | @cons path step paths steps hhead _ ih =>
      intro joins a hjoins hnamed
      have hassoc : a ++ path :: paths = a ++ [path] ++ paths := by simp
      rw [hassoc] at hnamed ⊢
      refine (hjoins.insert hbare ⟨step, none, hhead, rfl, nofun⟩
        fun p hp => hnamed (List.mem_append_left _ hp)).bind fun more _ hmore => ?_
      exact ih hmore hnamed

/-- A dotted field of the root brings the joins on its way, and none of
them under the alias of the root. -/
theorem fieldsBring_root (hbare : scope.aliasPrefix = "") (hroot : scope.relation = none) :
    scope.FieldsBring dialect FieldPath.relationPaths := by
  intro path
  unfold field
  split
  · next hdot =>
    rw [Bool.not_eq_true'] at hdot
    rw [FieldPath.relationPaths, FieldPath.split_of_not_dotted hdot]
    exact Mapping.columnRef_settled.map fun _ _ => .nil
  · rw [hroot]
    refine resolve_settled.bind fun resolved hresolved _ => ?_
    have hjoins : Settled (scope.joins dialect resolved.steps)
        (fun joins => scope.Joined dialect joins (FieldPath.relationPaths path))
        (RelationPath.Clash scope.tableAlias (FieldPath.relationPaths path)) := by
      refine (Joined.merge_steps hbare (leads_of_resolve hresolved) .nil
        (List.Subset.refl _)).bind fun joins _ hjoins => ?_
      exact (hjoins.apartFrom hbare (List.Subset.refl _)).bind fun _ _ _ => .pure hjoins
    exact hjoins.bind fun joins _ hjoins => .pure hjoins

/-- The filter and order of an included relation bring no joins. -/
theorem fieldsBring_nested {relation : String} (hrelation : scope.relation = some relation) :
    scope.FieldsBring dialect fun _ => [] := by
  intro path
  unfold field
  split
  · exact Mapping.columnRef_settled.map fun _ _ => .nil
  · rw [hrelation]
    exact .error fun _ _ _ => nofun

end Scope

end RecordQuery
