/-
Clauses: conditions over elements. Comparison for equality is null-safe:
two nulls are equal. Membership compares a tuple of elements with each
tuple of a list.
-/
import RecordQuery.Expression.Element

namespace RecordQuery

/-- How two elements are compared. -/
inductive Comparison where
  | eq
  | neq
  | gt
  | gte
  | lt
  | lte
deriving DecidableEq, Repr

/-- A condition. -/
inductive Clause where
  | compare (comparison : Comparison) (lhs rhs : Element)
  | not (operand : Clause)
  | and (operands : List Clause)
  | or (operands : List Clause)
  | isIn (lhs : List Element) (rows : List (List Element))
  /-- An element that is a truth value of its own. -/
  | truthy (element : Element)
deriving Repr, Inhabited, BEq

namespace Clause

/-- Membership of a single element in a list of elements. -/
def inList (lhs : Element) (items : List Element) : Clause :=
  .isIn [lhs] (items.map fun item => [item])

def isNot : Clause → Bool
  | .not _ => true
  | _ => false

/-- The conjunction of two conditions that may be absent. A conjunction on
the left takes up the condition on the right, or all of its members if it
is one as well. -/
def andOpt : Option Clause → Option Clause → Option Clause
  | none, none => none
  | some c, none => some c
  | none, some c => some c
  | some (.and lhs), some (.and rhs) => some (.and (lhs ++ rhs))
  | some (.and lhs), some rhs => some (.and (lhs ++ [rhs]))
  | some lhs, some rhs => some (.and [lhs, rhs])

end Clause

/-- A direction of order. -/
inductive Direction where
  | ascending
  | descending
deriving DecidableEq, Repr

/-- The word that orders in this direction. -/
def Direction.keyword : Direction → String
  | ascending => "ASC"
  | descending => "DESC"

/-- One term of an order. -/
structure OrderTerm where
  element : Element
  direction : Direction
deriving Repr, BEq

end RecordQuery
