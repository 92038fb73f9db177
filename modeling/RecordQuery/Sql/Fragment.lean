/-
Fragments: pieces of a statement with their parameters and the joins they
rely on. Joins are kept in the order of first use. Two that stand for the
same relation are one; two relations may not share an alias, and aliases
are the same if they differ only in the case of ASCII letters.
-/
import RecordQuery.Schema.Mapping
import RecordQuery.Text.Casing

namespace RecordQuery

/-- A join of a related table and the parameters of its condition. -/
structure Join where
  tableAlias : String
  sql : String
  params : List Value
  /-- Whether several rows can match one row on the left. -/
  kind : RelationKind
  /-- The relation followed: the alias on the left, a point, the field. -/
  source : String
deriving DecidableEq, Repr

/-- A list of joins, no two of one alias. -/
abbrev Joins := List Join

namespace Joins

/-- The join under an alias. -/
def find? (joins : Joins) (tableAlias : String) : Option Join :=
  List.find? (fun join => Casing.same join.tableAlias tableAlias) joins

/-- Adds a join, unless it is there already. -/
def insert (joins : Joins) (join : Join) : Except CompileError Joins :=
  match joins.find? join.tableAlias with
  | none => .ok (joins ++ [join])
  | some present =>
    if present.source = join.source then .ok joins
    else .error (.aliasCollision join.tableAlias present.source join.source)

/-- Adds joins one after the other. -/
def merge (joins : Joins) : Joins → Except CompileError Joins
  | [] => .ok joins
  | join :: rest => do merge (← joins.insert join) rest

/-- Refuses joins of which one has the alias of the root table. -/
def apartFrom (joins : Joins) (root : String) : Except CompileError Unit :=
  match joins.find? root with
  | none => .ok ()
  | some join => .error (.aliasCollision join.tableAlias root join.source)

end Joins

/-- A piece of a statement, its parameters in the order of their
placeholders, and the joins it relies on. -/
structure Fragment where
  sql : String
  params : List Value := []
  joins : Joins := []
deriving DecidableEq, Repr

namespace Fragment

/-- Text before and after a fragment. -/
def wrap (before : String) (f : Fragment) (after : String) : Fragment :=
  { f with sql := before ++ f.sql ++ after }

def parenthesize (f : Fragment) : Fragment :=
  f.wrap "(" ")"

/-- One fragment after another. -/
def append (f g : Fragment) : Except CompileError Fragment :=
  (f.joins.merge g.joins).map fun joins =>
    { sql := f.sql ++ g.sql, params := f.params ++ g.params, joins }

/-- More fragments after a first one, each behind a separator. -/
def appendAll (separator : String) (f : Fragment) : List Fragment → Except CompileError Fragment
  | [] => .ok f
  | g :: rest => do appendAll separator (← (f.wrap "" separator).append g) rest

/-- Fragments with a separator between them. -/
def join (separator : String) : List Fragment → Except CompileError Fragment
  | [] => .ok { sql := "" }
  | f :: rest => appendAll separator f rest

end Fragment

end RecordQuery
