/-
How a request is written, literals and all, said without the pieces that
a statement is put together from.

The written form of an element or clause is its text with the literal
itself where the text has a placeholder. Beside it stand the literals of
a request from left to right and the steps that its paths take: both
collect what is found at the leaves. A membership in an empty list has no
leaves, since it is written without its operands.
-/
import RecordQuery.Proofs.Statement.Glyph
import RecordQuery.Sql.Compile

namespace RecordQuery

variable (dialect : Dialect) (scope : Scope)

-- ============================================================== leaves

section Leaves

variable {α : Type} (literal : Value → List α) (field : String → List α)

mutual

/-- What is collected at the literals and fields of an element, from left
to right. -/
def Element.collect : Element → List α
  | .value v => literal v
  | .field path => field path
  | .method _ args => Element.collectEach args
termination_by structural element => element

/-- What is collected in elements, one after the other. -/
def Element.collectEach : List Element → List α
  | [] => []
  | element :: rest => element.collect ++ Element.collectEach rest
termination_by structural elements => elements

end

mutual

/-- What is collected at the literals and fields of a clause, from left to
right. -/
def Clause.collect : Clause → List α
  | .compare _ lhs rhs => lhs.collect literal field ++ rhs.collect literal field
  | .not operand => operand.collect
  | .and operands => Clause.collectEach operands
  | .or operands => Clause.collectEach operands
  | .isIn lhs rows =>
    if rows.isEmpty then []
    else
      lhs.flatMap (Element.collect literal field) ++
        rows.flatMap fun row => row.flatMap (Element.collect literal field)
  | .truthy element => element.collect literal field
termination_by structural clause => clause

/-- What is collected in clauses, one after the other. -/
def Clause.collectEach : List Clause → List α
  | [] => []
  | clause :: rest => clause.collect ++ Clause.collectEach rest
termination_by structural clauses => clauses

end

end Leaves

/-- The literals of an element, from left to right. -/
def Element.literals (element : Element) : List Value :=
  element.collect (fun v => [v]) fun _ => []

/-- The literals of a clause, from left to right. -/
def Clause.literals (clause : Clause) : List Value :=
  clause.collect (fun v => [v]) fun _ => []

/-- The steps on the way to a field. -/
def Scope.stepsTo (path : String) : List Step :=
  match scope.resolve path with
  | .ok resolved => resolved.steps
  | .error _ => []

/-- The steps that the fields of an element take. -/
def Element.steps (element : Element) : List Step :=
  element.collect (fun _ => []) scope.stepsTo

/-- The steps that the fields of a clause take. -/
def Clause.steps (clause : Clause) : List Step :=
  clause.collect (fun _ => []) scope.stepsTo

-- ============================================================= writing

/-- The column at the end of a path, as it is written. -/
def Scope.columnText (path : String) : String :=
  match scope.resolve path with
  | .ok resolved => dialect.quoteTableColumn resolved.column.table resolved.column.name
  | .error _ => ""

mutual

/-- An element as it is written. -/
def Element.written : Element → Writing
  | .value v => [.literal v]
  | .field path => .ofText (scope.columnText dialect path)
  | .method name args =>
    .fill ((dialect.template? name).getD "").toList (Element.writtenEach args)
termination_by structural element => element

/-- Elements as they are written, one by one. -/
def Element.writtenEach : List Element → List Writing
  | [] => []
  | element :: rest => element.written :: Element.writtenEach rest
termination_by structural elements => elements

end

/-- A writing between two texts. -/
def Writing.between (before : String) (w : Writing) (after : String) : Writing :=
  .ofText before ++ w ++ .ofText after

/-- A comparison as it is written. -/
def Comparison.written (comparison : Comparison) (lhs rhs : Element) : Writing :=
  let whole := lhs.written dialect scope ++
    (.ofText s!" {comparison.operator dialect} " ++ rhs.written dialect scope)
  if comparison = .neq then whole.between "NOT (" ")" else whole

/-- A tuple as it is written. -/
def Element.writtenTuple (elements : List Element) : Writing :=
  let list := Writing.separated ", " (elements.map (Element.written dialect scope))
  if 1 < elements.length then list.between "(" ")" else list

/-- A membership as it is written. -/
def Clause.writtenIn (lhs : List Element) (rows : List (List Element)) : Writing :=
  if rows.isEmpty then .ofText "1 = 0"
  else
    let opening :=
      if 1 < lhs.length && dialect.rowValuesInList then " IN (VALUES " else " IN ("
    Element.writtenTuple dialect scope lhs ++ (.ofText opening ++
      (.separated ", " (rows.map (Element.writtenTuple dialect scope)) ++ .ofText ")"))

mutual

/-- A clause as it is written. -/
def Clause.written : Clause → Writing
  | .compare comparison lhs rhs => comparison.written dialect scope lhs rhs
  | .not operand => operand.written.between "NOT (" ")"
  | .and operands => (Writing.separated " AND " (Clause.writtenEach operands)).between "(" ")"
  | .or operands => (Writing.separated " OR " (Clause.writtenEach operands)).between "(" ")"
  | .isIn lhs rows => Clause.writtenIn dialect scope lhs rows
  | .truthy element => element.written dialect scope
termination_by structural clause => clause

/-- Clauses as they are written, one by one. -/
def Clause.writtenEach : List Clause → List Writing
  | [] => []
  | clause :: rest => clause.written :: Clause.writtenEach rest
termination_by structural clauses => clauses

end

/-- A term of an order as it is written. -/
def OrderTerm.written (term : OrderTerm) : Writing :=
  term.element.written dialect scope ++ .ofText s!" {term.direction.keyword}"

end RecordQuery
