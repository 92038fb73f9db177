/-
What can be wrong with a request: a name that the schema does not know, a
method that is not called as declared, a group without members, or two
tables of one statement under one alias. Each is a mistake in the request
or in the schema, never one of the database.
-/

namespace RecordQuery

/-- Why a request has no statement. -/
inductive CompileError where
  /-- The field is mapped to no column of the model. -/
  | unmappedField (model field : String)
  /-- A segment of a path names no relation of the model reached. -/
  | unknownRelation (model relation path : String)
  /-- The model that a relation leads to is not in the catalog. -/
  | unmappedRelationType (relation target : String)
  /-- The method is unknown, or the dialect has no form for it. -/
  | unsupportedMethod (name : String)
  /-- A list of elements has the wrong length. -/
  | arityMismatch (node : String) (expected actual : Nat)
  /-- A literal argument has the wrong kind. -/
  | methodArgumentType (method : String) (position : Nat) (expected actual : String)
  /-- A conjunction or disjunction has no members. -/
  | emptyBooleanGroup (node : String)
  /-- The filter or order of a relation names another table's column. -/
  | nestedPath (relation path : String)
  /-- Two tables of one statement have the same alias. -/
  | aliasCollision (name first second : String)
deriving DecidableEq, Repr

def CompileError.message : CompileError → String
  | .unmappedField model field => s!"unmapped field `{field}` on `{model}`"
  | .unknownRelation model relation path =>
    s!"unknown relation `{relation}` on `{model}` (path `{path}`)"
  | .unmappedRelationType relation target =>
    s!"relation `{relation}` targets `{target}`, which has no mapping"
  | .unsupportedMethod name => s!"unsupported method `{name}`"
  | .arityMismatch node expected actual =>
    s!"arity mismatch in `{node}`: expected {expected}, got {actual}"
  | .methodArgumentType method position expected actual =>
    s!"argument {position} of `{method}` must be {expected}, got {actual}"
  | .emptyBooleanGroup node => s!"`{node}` requires at least one clause"
  | .nestedPath relation path =>
    s!"filter on relation `{relation}` cannot traverse path `{path}`"
  | .aliasCollision name first second =>
    s!"alias `{name}` is used by both `{first}` and `{second}`"

end RecordQuery
