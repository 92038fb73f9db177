/-
What rows stand for, said without reading them one after the other. The
rows of a list fall into runs of one key, and each run is a record. Below
a record, the rows that carry one key of a relation are a related record
again, whose own rows they are.

The second half says when rows stand for nothing: a record is loaded from
the first of its rows, so a row is at fault if a record begins in it and
one of the record's columns does not take the value in its slot.
-/
import RecordQuery.Loading.Window
import RecordQuery.Proofs.Layout.Slots

namespace RecordQuery

namespace Structure

-- ============================================================ one record

/-- What a row holds in a slot, as the slot's column takes it. -/
def slotValue (row : Row) (slot : StructureColumn × Nat) : Except Conversion Value :=
  slot.1.column.type.normalize (row.getD slot.2 .null)

/-- The value of a column once slots are loaded from a row: what the last
slot for its field holds, and the blank value if there is none. -/
def lastValue (row : Row) (slots : List (StructureColumn × Nat)) (c : Column) : Value :=
  match (slots.filter fun slot => slot.1.column.field == c.field).getLast? with
  | some slot =>
    match slotValue row slot with
    | .ok v => v
    | .error _ => .null
  | none => c.type.store c.type.blank

/-- The values of the record of a structure in a row. -/
def valuesIn (s : Structure) (row : Row) : List (String × Value) :=
  s.mapping.columns.map fun c => (c.field, lastValue row s.slots c)

-- ============================================================== grouping

/-- The texts of the keys that rows carry for a structure, one for each row
that has a record for it. -/
def carried (s : Structure) (rows : List Row) : List String :=
  (rows.filter fun row => !s.missing row).map fun row => Value.keyText (s.keyOf row)

/-- The keys of the records that rows hold for a relation: each key once,
where it is carried first; for a to-one relation only the first. -/
def keysOf (s : Structure) (kind : RelationKind) (rows : List Row) : List String :=
  match kind with
  | .many => (s.carried rows).eraseDups
  | .one => (s.carried rows).take 1

/-- The rows that carry a key. -/
def rowsOf (s : Structure) (key : String) (rows : List Row) : List Row :=
  rows.filter fun row => !s.missing row && Value.keyText (s.keyOf row) == key

mutual

/-- The record that rows stand for. It has the values of the first row, and
for each included relation the records of the keys that the rows hold. -/
def grouped : Structure → List Row → Record
  | ⟨m, tableAlias, offset, keys, fields, relations⟩, rows =>
    { model := m.model
      values := valuesIn ⟨m, tableAlias, offset, keys, fields, relations⟩ (rows.headD [])
      related := m.relations.map fun r =>
        (r.field, ((groupedBelow relations rows).lookup r.field).getD []) }
termination_by structural s => s

/-- The related records that rows stand for, relation by relation. -/
def groupedBelow : List (Relation × Structure) → List Row → List (String × List Record)
  | [], _ => []
  | (relation, s) :: rest, rows =>
    (relation.field, (s.keysOf relation.kind rows).map fun key => s.grouped (s.rowsOf key rows))
      :: groupedBelow rest rows
termination_by structural relations => relations

end

/-- Whether a row goes on with the run that another row begins: its key
equals that of the first. -/
def continues (s : Structure) (first next : Row) : Bool :=
  Value.equalAll (s.keyOf first) (s.keyOf next)

/-- Rows in runs, each as long as the rows go on with it. -/
def runs (s : Structure) : List Row → List (List Row)
  | [] => []
  | row :: rest =>
    (row :: rest.takeWhile (s.continues row)) :: s.runs (rest.dropWhile (s.continues row))
termination_by rows => rows.length
decreasing_by
  rw [List.length_cons]
  exact Nat.lt_succ_of_le (List.dropWhile_suffix _).length_le

/-- The runs are the rows, one run behind the other. -/
theorem flatten_runs (s : Structure) (rows : List Row) : (s.runs rows).flatten = rows := by
  induction rows using runs.induct s with
  | case1 => rw [runs, List.flatten_nil]
  | case2 row rest ih =>
      rw [runs, List.flatten_cons, ih, List.cons_append, List.takeWhile_append_dropWhile]

-- ================================================================ faults

/-- The fault of a slot whose value its column does not take. -/
def slotFault (row : Row) (slot : StructureColumn × Nat) : Option Fault :=
  match slotValue row slot with
  | .ok _ => none
  | .error e => some (.conversion e)

/-- The fault of the first slot of a structure that has one. -/
def faultIn (row : Row) (s : Structure) : Option Fault :=
  s.slots.findSome? (slotFault row)

mutual

/-- The structures below a record of which records begin in a row, given
the record's rows before. -/
def begun : Structure → List Row → Row → List Structure
  | ⟨_, _, _, _, _, relations⟩, before, row => begunBelow relations before row
termination_by structural s => s

/-- The structures of relations, and those below them, of which records
begin in a row: where the row is the first to carry a key that is held,
and below the record whose key it carries. -/
def begunBelow : List (Relation × Structure) → List Row → Row → List Structure
  | [], _, _ => []
  | (relation, s) :: rest, before, row =>
    (if s.missing row then []
      else if Value.keyText (s.keyOf row) ∈ s.keysOf relation.kind before then
        s.begun (s.rowsOf (Value.keyText (s.keyOf row)) before) row
      else if Value.keyText (s.keyOf row) ∈ s.keysOf relation.kind (before ++ [row]) then
        s :: s.begun [] row
      else [])
      ++ begunBelow rest before row
termination_by structural relations => relations

end

theorem begun_eq (s : Structure) (before : List Row) (row : Row) :
    s.begun before row = begunBelow s.relations before row := by
  cases s
  rfl

/-- The fault of a row of a record, given the record's rows before: that of
the first record that begins in the row and cannot be loaded. -/
def faultAt (s : Structure) (before : List Row) (row : Row) : Option Fault :=
  ((if before.isEmpty then [s] else []) ++ s.begun before row).findSome? (faultIn row)

/-- The faults of rows of a record behind those before. -/
def faultsAfter (s : Structure) (before : List Row) : List Row → List (Option Fault)
  | [] => []
  | row :: rest => s.faultAt before row :: s.faultsAfter (before ++ [row]) rest

/-- The first fault there is, with its position counted from a start. -/
def firstFrom (start : Nat) (faults : List (Option Fault)) : Option (Nat × Fault) :=
  (faults.zipIdx start).findSome? fun (fault, i) => fault.map fun f => (i, f)

/-- The fault of each row, if it has one. -/
def faults (s : Structure) (rows : List Row) : List (Option Fault) :=
  (s.runs rows).flatMap (s.faultsAfter [])

/-- The first fault of rows, with the position of its row. -/
def firstFault (s : Structure) (rows : List Row) : Option (Nat × Fault) :=
  firstFrom 0 (s.faults rows)

theorem length_faultsAfter (s : Structure) (rows : List Row) :
    ∀ before : List Row, (s.faultsAfter before rows).length = rows.length := by
  induction rows with
  | nil => exact fun _ => rfl
  | cons row rest ih =>
      intro before
      rw [faultsAfter, List.length_cons, List.length_cons, ih]

theorem length_faults (s : Structure) (rows : List Row) :
    (s.faults rows).length = rows.length := by
  have hlength := congrArg List.length (s.flatten_runs rows)
  rw [List.length_flatten] at hlength
  unfold faults
  rw [List.length_flatMap, ← hlength]
  simp only [length_faultsAfter]

end Structure

end RecordQuery
