/-
Plans: one select statement for a mapping and an include, in parts, with
the layout of its rows.

Included relations are walked depth first. Each adds a join, with its
filter in the join's condition, and a structure behind those before it;
their orders are kept for the end. The root filter and order bring the
joins of the paths they follow. Where any join fans out, the root's key is
added to the order behind the root's own terms, so that the rows of one
record stay together, and the window counts records instead of rows.
-/
import RecordQuery.Expression.Include
import RecordQuery.Plan.Structure
import RecordQuery.Sql.Compile

namespace RecordQuery

/-- What a plan's limit and offset count. -/
inductive Paging where
  /-- One row for each record: the statement is limited. -/
  | rows
  /-- A record may span rows: records are counted while they are read. -/
  | records
deriving DecidableEq, Repr

/-- A select statement in parts, and the layout of its rows. -/
structure Plan where
  dialect : Dialect
  table : String
  tableAlias : String
  joins : Joins
  /-- The filter's text and parameters. -/
  condition : Option Fragment
  /-- The order's text and parameters. -/
  order : Option Fragment
  limit : Option Nat
  offset : Nat
  paging : Paging
  layout : Structure

-- ============================================================ structures

/-- The key columns of a mapping within the table of an alias, selected
under numbered output aliases. -/
def Mapping.keyStructure (m : Mapping) (tableAlias outputPrefix : String) :
    List StructureColumn :=
  m.keyColumns.mapIdx fun i c =>
    { ref := { table := tableAlias, name := c.name, output := some s!"{outputPrefix}{i}" }
      column := c }

/-- The columns of the named fields within the table of an alias; all
columns if none is named. -/
def Mapping.fieldStructure (m : Mapping) (tableAlias : String) (fields : List String) :
    Except CompileError (List StructureColumn) :=
  let select := fun (c : Column) =>
    ({ ref := { table := tableAlias, name := c.name }, column := c } : StructureColumn)
  if fields.isEmpty then .ok (m.columns.map select)
  else fields.mapM fun field => (m.columnOfField field).map select

-- ================================================================ layout

/-- What the walk over included relations has gathered so far. -/
structure Walk where
  joins : Joins := []
  /-- The orders of included relations. -/
  orders : List Fragment := []
  /-- The position of the next structure in the row. -/
  offset : Nat

/-- Adds a step's join, with the filter and order of the include, and gives
the step's structure without the relations below it. -/
def Walk.enter (dialect : Dialect) (catalog : Catalog) (walk : Walk) (step : Step)
    (fields : List String) (filter : Option Clause) (order : List OrderTerm) :
    Except CompileError (Structure × Walk) := do
  let scope : Scope :=
    { catalog, mapping := step.target, tableAlias := step.pathAlias
      relation := some step.relation.field }
  let filter ← filter.mapM (Clause.compile dialect scope)
  let orders ← order.mapM (OrderTerm.compile dialect scope)
  let joins ← walk.joins.insert (step.join dialect filter)
  let keys := step.target.keyStructure step.pathAlias s!"_{step.pathAlias}_"
  let fields ← step.target.fieldStructure step.pathAlias fields
  pure
    ({ mapping := step.target, tableAlias := step.pathAlias, offset := walk.offset, keys, fields,
       relations := [] },
     { joins, orders := walk.orders ++ orders
       offset := walk.offset + (keys.length + fields.length) })

mutual

/-- Walks one included relation of a mapping whose table has the alias
`parent`, reached under `before`, the join's alias; at the root that is
empty. -/
def IncludeTree.layout (dialect : Dialect) (catalog : Catalog) (m : Mapping)
    (parent before : String) (walk : Walk) (name : String) :
    IncludeTree → Except CompileError ((Relation × Structure) × Walk)
  | ⟨fields, relations, filter, order⟩ => do
    let path := if before.isEmpty then name else before ++ "." ++ name
    let step ← catalog.step m name parent before path
    let (s, walk) ← walk.enter dialect catalog step fields filter order
    let (below, walk) ←
      IncludeTree.layoutEach dialect catalog step.target step.pathAlias step.pathAlias walk
        relations
    pure ((step.relation, { s with relations := below }), walk)
termination_by structural inc => inc

/-- Walks included relations one after the other. -/
def IncludeTree.layoutEach (dialect : Dialect) (catalog : Catalog) (m : Mapping)
    (parent before : String) (walk : Walk) :
    List (String × IncludeTree) → Except CompileError (List (Relation × Structure) × Walk)
  | [] => pure ([], walk)
  | (name, inc) :: rest => do
    let (entry, walk) ← inc.layout dialect catalog m parent before walk name
    let (more, walk) ← IncludeTree.layoutEach dialect catalog m parent before walk rest
    pure (entry :: more, walk)
termination_by structural relations => relations

end

-- ================================================================= build

/-- Compiles terms one after the other, adding the joins of each before the
next is compiled. -/
def Walk.orderBy (dialect : Dialect) (scope : Scope) (joins : Joins) :
    List OrderTerm → Except CompileError (List Fragment × Joins)
  | [] => pure ([], joins)
  | term :: rest => do
    let f ← term.compile dialect scope
    let joins ← joins.merge f.joins
    let (more, joins) ← Walk.orderBy dialect scope joins rest
    pure (f :: more, joins)

/-- Fragments separated by commas, whose joins are taken up elsewhere; none
if there are none. -/
def Fragment.listed : List Fragment → Option Fragment
  | [] => none
  | fs =>
    some { sql := ", ".intercalate (fs.map Fragment.sql), params := fs.flatMap Fragment.params }

/-- The ascending order by one key column. -/
def StructureColumn.ascending (dialect : Dialect) (key : StructureColumn) : Fragment :=
  { sql := dialect.quoteTableColumn key.ref.table key.ref.name ++ " ASC" }

/-- The plan for the tree of an include of a mapping. -/
def Plan.build (catalog : Catalog) (dialect : Dialect) (m : Mapping) (inc : IncludeTree)
    (tableAlias : String) (offset : Nat) (limit : Option Nat) : Except CompileError Plan := do
  let keys := m.keyStructure tableAlias "_"
  let fields ← m.fieldStructure tableAlias inc.fields
  let walk : Walk := { offset := keys.length + fields.length }
  let (relations, walk) ←
    IncludeTree.layoutEach dialect catalog m tableAlias "" walk inc.relations
  let scope : Scope := { catalog, mapping := m, tableAlias }
  let condition ← inc.filter.mapM (Clause.compile dialect scope)
  let joins ← walk.joins.merge ((condition.map Fragment.joins).getD [])
  let (order, joins) ← Walk.orderBy dialect scope joins inc.order
  joins.apartFrom tableAlias
  let fansOut := joins.any fun join => join.kind.isMany
  let tieBreakers := if fansOut then keys.map (StructureColumn.ascending dialect) else []
  pure
    { dialect, table := m.table, tableAlias, joins, condition
      order := Fragment.listed (order ++ tieBreakers ++ walk.orders)
      limit, offset
      paging := if fansOut then .records else .rows
      layout := { mapping := m, tableAlias, offset := 0, keys, fields, relations } }

end RecordQuery
