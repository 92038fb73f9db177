/-
Structures: the layout of a result row. A structure is the part of a row
that one mapping fills: its key columns, then its data columns, from an
offset on. The structures of its relations follow, in the order in which
they are included, each laid out the same way.
-/
import RecordQuery.Record

namespace RecordQuery

/-- A selected column, and the mapped column that it is loaded into. -/
structure StructureColumn where
  ref : ColumnRef
  column : Column
deriving DecidableEq, Repr

/-- The part of a result row that one mapping fills. -/
structure Structure where
  mapping : Mapping
  /-- The alias of the table that the columns are read from. -/
  tableAlias : String
  /-- The position of the first column in the row. -/
  offset : Nat
  keys : List StructureColumn
  fields : List StructureColumn
  relations : List (Relation × Structure)

namespace Structure

instance : Inhabited Structure := ⟨⟨⟨"", "", [], [], [], []⟩, "", 0, [], [], []⟩⟩

-- ============================================================ positions

/-- The number of columns that the mapping itself fills. -/
def ownWidth (s : Structure) : Nat :=
  s.keys.length + s.fields.length

/-- The position after the key columns. -/
def keyEnd (s : Structure) : Nat :=
  s.offset + s.keys.length

/-- The position after the data columns. -/
def fieldEnd (s : Structure) : Nat :=
  s.keyEnd + s.fields.length

/-- The key values of a row. -/
def keyOf (s : Structure) (row : Row) : List Value :=
  (row.drop s.offset).take s.keys.length

/-- The data values of a row. -/
def fieldsOf (s : Structure) (row : Row) : List Value :=
  (row.drop s.keyEnd).take s.fields.length

mutual

/-- The number of columns of a structure and everything below it. -/
def width : Structure → Nat
  | ⟨_, _, _, keys, fields, relations⟩ => keys.length + fields.length + widths relations
termination_by structural s => s

/-- The number of columns of the structures of relations. -/
def widths : List (Relation × Structure) → Nat
  | [] => 0
  | (_, s) :: rest => s.width + widths rest
termination_by structural relations => relations

end

mutual

/-- Whether any relation below a structure is to-many. -/
def hasMany : Structure → Bool
  | ⟨_, _, _, _, _, relations⟩ => anyMany relations
termination_by structural s => s

/-- Whether any of the relations, or one below them, is to-many. -/
def anyMany : List (Relation × Structure) → Bool
  | [] => false
  | (relation, s) :: rest => relation.kind.isMany || s.hasMany || anyMany rest
termination_by structural relations => relations

end

-- ============================================================== columns

mutual

/-- The columns of a structure and everything below it, in row order. -/
def columns : Structure → List ColumnRef
  | ⟨_, _, _, keys, fields, relations⟩ =>
    keys.map StructureColumn.ref ++ fields.map StructureColumn.ref ++ columnsBelow relations
termination_by structural s => s

/-- The columns of the structures of relations, in row order. -/
def columnsBelow : List (Relation × Structure) → List ColumnRef
  | [] => []
  | (_, s) :: rest => s.columns ++ columnsBelow rest
termination_by structural relations => relations

end

/-- All columns in row order but the layouts own keys. -/
def columnsAfterKeys (s : Structure) : List ColumnRef :=
  s.fields.map StructureColumn.ref ++ columnsBelow s.relations

end Structure

end RecordQuery
