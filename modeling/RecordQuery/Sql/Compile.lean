/-
Statements' pieces for the elements, clauses and orders of a request.
Every literal becomes a placeholder and a parameter, in the order in which
they are written; every dotted path brings the joins it follows.

A request is read from left to right, and the first thing that is wrong
with it is reported. What is compiled separately is put together after all
of it is compiled, so a collision of aliases between two parts is found
after what is wrong within them.
-/
import RecordQuery.Dialect
import RecordQuery.Dialect.Method
import RecordQuery.Expression.Clause
import RecordQuery.Sql.Fragment
import RecordQuery.Sql.Scope
import RecordQuery.Text.Template

namespace RecordQuery

-- ================================================================ joins

/-- The condition that two columns are equal. -/
def Step.condition (dialect : Dialect) (step : Step) (pair : JoinPair) : String :=
  dialect.quoteTableColumn step.leftAlias pair.own ++ " = " ++
    dialect.quoteTableColumn step.pathAlias pair.remote

/-- The join of a step. A filter is added to the join's condition, so rows
it rejects are not joined. -/
def Step.join (dialect : Dialect) (step : Step) (filter : Option Fragment) : Join where
  tableAlias := step.pathAlias
  sql := "LEFT JOIN " ++ dialect.quoteTable step.target.table ++ " AS " ++
    dialect.quoteTable step.pathAlias ++ " ON " ++
    " AND ".intercalate (step.relation.pairs.map (step.condition dialect)) ++
    (match filter with
      | some f => " AND " ++ f.sql
      | none => "")
  params := (filter.map Fragment.params).getD []
  kind := step.relation.kind
  source := step.leftAlias ++ "." ++ step.relation.field

/-- The joins of steps, none of them under the alias of the root. -/
def Scope.joins (dialect : Dialect) (scope : Scope) (steps : List Step) :
    Except CompileError Joins := do
  let joins ← Joins.merge [] (steps.map fun step => step.join dialect none)
  joins.apartFrom scope.tableAlias
  pure joins

-- ============================================================= elements

namespace Scope

/-- The column of a field, with the joins on the way to it. -/
def field (dialect : Dialect) (scope : Scope) (path : String) : Except CompileError Fragment :=
  if !FieldPath.isDotted path then
    (scope.mapping.columnRef scope.tableAlias "" path).map fun c =>
      { sql := dialect.quoteTableColumn c.table c.name }
  else
    match scope.relation with
    | some relation => .error (.nestedPath relation path)
    | none => do
      let resolved ← scope.resolve path
      let joins ← scope.joins dialect resolved.steps
      pure { sql := dialect.quoteTableColumn resolved.column.table resolved.column.name, joins }

end Scope

/-- Arguments of a call: their texts one by one, their parameters and joins
together. -/
structure Arguments where
  texts : List String := []
  params : List Value := []
  joins : Joins := []

/-- Adds an argument after the others. -/
def Arguments.push (args : Arguments) (f : Fragment) : Except CompileError Arguments :=
  (args.joins.merge f.joins).map fun joins =>
    { texts := args.texts ++ [f.sql], params := args.params ++ f.params, joins }

/-- A call written in the form that a dialect has for it. -/
def Arguments.fill (args : Arguments) (template : String) : Fragment :=
  { sql := Template.fill template args.texts, params := args.params, joins := args.joins }

/-- The form of a call in a dialect, if it is called as declared. -/
def Dialect.form (dialect : Dialect) (name : String) (args : List Element) :
    Except CompileError String := do
  let signature ← Signature.check name args
  match dialect.template? signature.name with
  | some template => pure template
  | none => throw (.unsupportedMethod name)

mutual

/-- The piece of a statement for an element. -/
def Element.compile (dialect : Dialect) (scope : Scope) : Element → Except CompileError Fragment
  | .value v => pure { sql := "?", params := [v] }
  | .field path => scope.field dialect path
  | .method name args => do
    let template ← dialect.form name args
    let compiled ← Element.compileArgs dialect scope {} args
    pure (compiled.fill template)
termination_by structural element => element

/-- Compiles arguments and adds each to those before it. -/
def Element.compileArgs (dialect : Dialect) (scope : Scope) (sofar : Arguments) :
    List Element → Except CompileError Arguments
  | [] => pure sofar
  | arg :: rest => do
    let compiled ← arg.compile dialect scope
    Element.compileArgs dialect scope (← sofar.push compiled) rest
termination_by structural args => args

end

/-- Elements separated by commas. -/
def Element.compileList (dialect : Dialect) (scope : Scope) (elements : List Element) :
    Except CompileError Fragment := do
  Fragment.join ", " (← elements.mapM (Element.compile dialect scope))

-- ============================================================== clauses

/-- Negates a condition. -/
def Fragment.negate (f : Fragment) : Fragment :=
  f.wrap "NOT (" ")"

/-- The operator of a comparison. That two elements differ is written as
the negation of their equality. -/
def Comparison.operator (dialect : Dialect) : Comparison → String
  | .eq | .neq => dialect.nullSafeEq
  | .gt => ">"
  | .gte => ">="
  | .lt => "<"
  | .lte => "<="

/-- The piece of a statement for a comparison. -/
def Comparison.compile (dialect : Dialect) (scope : Scope) (comparison : Comparison)
    (lhs rhs : Element) : Except CompileError Fragment := do
  let left ← lhs.compile dialect scope
  let right ← rhs.compile dialect scope
  let whole ← (left.wrap "" s!" {comparison.operator dialect} ").append right
  pure (if comparison = .neq then whole.negate else whole)

/-- A tuple, in parentheses unless it is a single element. -/
def Fragment.tuple (arity : Nat) (f : Fragment) : Fragment :=
  if 1 < arity then f.parenthesize else f

/-- The piece of a statement for membership in a list of tuples. Nothing
is a member of an empty list. -/
def Clause.compileIn (dialect : Dialect) (scope : Scope) (lhs : List Element)
    (rows : List (List Element)) : Except CompileError Fragment := do
  let arity := lhs.length
  if arity = 0 then throw (.arityMismatch "in" 1 0)
  if let some row := rows.find? fun row => row.length ≠ arity then
    throw (.arityMismatch "in" arity row.length)
  let left ← Element.compileList dialect scope lhs
  if rows.isEmpty then return { sql := "1 = 0" }
  let tuples ← rows.mapM fun row => do
    let tuple ← Element.compileList dialect scope row
    pure (tuple.tuple arity)
  let opening := if 1 < arity && dialect.rowValuesInList then " IN (VALUES " else " IN ("
  let list ← Fragment.join ", " tuples
  let whole ← ((left.tuple arity).wrap "" opening).append list
  pure (whole.wrap "" ")")

mutual

/-- The piece of a statement for a condition. -/
def Clause.compile (dialect : Dialect) (scope : Scope) : Clause → Except CompileError Fragment
  | .compare comparison lhs rhs => comparison.compile dialect scope lhs rhs
  | .not operand => do
    let f ← operand.compile dialect scope
    pure f.negate
  | .and operands => do
    if operands.isEmpty then throw (.emptyBooleanGroup "and")
    let f ← Fragment.join " AND " (← Clause.compileEach dialect scope operands)
    pure f.parenthesize
  | .or operands => do
    if operands.isEmpty then throw (.emptyBooleanGroup "or")
    let f ← Fragment.join " OR " (← Clause.compileEach dialect scope operands)
    pure f.parenthesize
  | .isIn lhs rows => Clause.compileIn dialect scope lhs rows
  | .truthy element => element.compile dialect scope
termination_by structural clause => clause

/-- The pieces of a statement for conditions, one by one. -/
def Clause.compileEach (dialect : Dialect) (scope : Scope) :
    List Clause → Except CompileError (List Fragment)
  | [] => pure []
  | clause :: rest => do
    let f ← clause.compile dialect scope
    let more ← Clause.compileEach dialect scope rest
    pure (f :: more)
termination_by structural clauses => clauses

end

-- =============================================================== orders

/-- The piece of a statement for one term of an order. -/
def OrderTerm.compile (dialect : Dialect) (scope : Scope) (term : OrderTerm) :
    Except CompileError Fragment := do
  let f ← term.element.compile dialect scope
  pure (f.wrap "" s!" {term.direction.keyword}")

/-- The pieces of a statement for an order, separated by commas. -/
def OrderTerm.compileList (dialect : Dialect) (scope : Scope) (terms : List OrderTerm) :
    Except CompileError Fragment := do
  Fragment.join ", " (← terms.mapM (OrderTerm.compile dialect scope))

end RecordQuery
