/-
The statement of a plan: its text with placeholders, its parameters in the
order of the placeholders, and the window on records that is left to
whoever reads the rows.
-/
import RecordQuery.Plan.Build

namespace RecordQuery

/-- A selected column, with its output alias if it has one. -/
def ColumnRef.select (dialect : Dialect) (c : ColumnRef) : String :=
  dialect.quoteTableColumn c.table c.name ++
    (match c.output with
      | some output => " AS " ++ dialect.quoteColumn output
      | none => "")

/-- How many records to skip while reading rows and, at most, to keep. -/
structure Window where
  skip : Nat := 0
  take : Option Nat := none
deriving DecidableEq, Repr

namespace Plan

/-- The root's key, selected first. -/
def keyColumns (plan : Plan) : List ColumnRef :=
  plan.layout.keys.map StructureColumn.ref

/-- Every other selected column, in row order. -/
def selectedColumns (plan : Plan) : List ColumnRef :=
  plan.layout.columnsAfterKeys

/-- The number of columns of each result row. -/
def width (plan : Plan) : Nat :=
  plan.keyColumns.length + plan.selectedColumns.length

/-- The end of the statement that limits its rows. -/
def limitText (plan : Plan) : String :=
  match plan.paging, plan.limit, plan.offset with
  | .records, _, _ => ""
  | .rows, some limit, 0 => s!" LIMIT {limit}"
  | .rows, some limit, offset => s!" LIMIT {limit} OFFSET {offset}"
  | .rows, none, 0 => ""
  | .rows, none, offset =>
    (match plan.dialect.unboundedLimit? with
      | some unbounded => s!" LIMIT {unbounded}"
      | none => "") ++ s!" OFFSET {offset}"

/-- The text of the statement. -/
def sql (plan : Plan) : String :=
  "SELECT " ++
    ", ".intercalate ((plan.keyColumns ++ plan.selectedColumns).map (ColumnRef.select plan.dialect))
    ++ " FROM " ++ plan.dialect.quoteColumn plan.table
    ++ " AS " ++ plan.dialect.quoteColumn plan.tableAlias
    ++ String.join (plan.joins.map fun join => " " ++ join.sql)
    ++ (match plan.condition with
      | some f => " WHERE " ++ f.sql
      | none => "")
    ++ (match plan.order with
      | some f => " ORDER BY " ++ f.sql
      | none => "")
    ++ plan.limitText

/-- The parameters of the statement: those of the joins, of the filter and
of the order. -/
def params (plan : Plan) : List Value :=
  plan.joins.flatMap Join.params ++ (plan.condition.map Fragment.params).getD []
    ++ (plan.order.map Fragment.params).getD []

/-- The window on records that is left to whoever reads the rows: none if
the statement is limited itself. -/
def window (plan : Plan) : Window :=
  match plan.paging with
  | .rows => {}
  | .records => { skip := plan.offset, take := plan.limit }

end Plan

end RecordQuery
