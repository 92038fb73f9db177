/-
Scopes: where the fields of a request are looked up. A scope is a mapping
whose table has an alias within the statement. A path is followed from
there relation by relation, each step joining the target's table under an
alias made of the names of the relations followed so far.
-/
import RecordQuery.Expression.Element
import RecordQuery.Schema.Catalog

namespace RecordQuery

/-- One relation followed. -/
structure Step where
  relation : Relation
  /-- The mapping of the table that is joined. -/
  target : Mapping
  /-- The alias of the table that the join starts from. -/
  leftAlias : String
  /-- The alias of the table that is joined. -/
  pathAlias : String
deriving DecidableEq, Repr

/-- The alias of a relation followed from the one of another alias. -/
def Step.joinAlias (before relation : String) : String :=
  if before.isEmpty then relation else before ++ "_" ++ relation

/-- Follows a relation of a mapping whose table has the alias on the left.
The alias of the joined table continues the one given; the path is only
told when the relation is not known. -/
def Catalog.step (catalog : Catalog) (m : Mapping) (relation leftAlias before path : String) :
    Except CompileError Step :=
  match m.relation? relation with
  | none => .error (.unknownRelation m.model relation path)
  | some r =>
    match catalog.mapping? r.target with
    | none => .error (.unmappedRelationType r.field r.target)
    | some target =>
      .ok { relation := r, target, leftAlias, pathAlias := Step.joinAlias before r.field }

/-- Follows relations one after the other. -/
def Catalog.steps (catalog : Catalog) (m : Mapping) (leftAlias before path : String) :
    List String → Except CompileError (List Step)
  | [] => .ok []
  | relation :: rest => do
    let step ← catalog.step m relation leftAlias before path
    let more ← catalog.steps step.target step.pathAlias step.pathAlias path rest
    pure (step :: more)

/-- A mapping whose fields can be named, and its table's alias. -/
structure Scope where
  catalog : Catalog
  mapping : Mapping
  tableAlias : String
  /-- What the aliases of joined tables start with. -/
  aliasPrefix : String := ""
  /-- The relation whose filter or order is written in this scope, which
  may then name no fields of other tables. -/
  relation : Option String := none

/-- The field that a path leads to: the steps on the way, the mapping at
the end and the column there. -/
structure Resolved where
  steps : List Step
  mapping : Mapping
  column : ColumnRef

namespace Scope

/-- The scope of a mapping's table under its own name. -/
def ofMapping (catalog : Catalog) (m : Mapping) : Scope :=
  { catalog, mapping := m, tableAlias := m.table }

/-- Follows a path to the field at its end. -/
def resolve (scope : Scope) (path : String) : Except CompileError Resolved := do
  let (relations, field) := FieldPath.split path
  let steps ← scope.catalog.steps scope.mapping scope.tableAlias scope.aliasPrefix path relations
  let mapping := (steps.getLast?.map Step.target).getD scope.mapping
  let tableAlias := (steps.getLast?.map Step.pathAlias).getD scope.tableAlias
  let column ← mapping.columnRef tableAlias "" field
  pure { steps, mapping, column }

end Scope

end RecordQuery
