/-
Nodes: records that are being loaded from rows. A node holds its record
and, for each relation of its structure, the nodes found so far below it,
each under the text of its key.

The rows of one record repeat whatever they share: a child whose key was
met before is not loaded again, its own children are looked for in the new
row. A part of a row whose key is null throughout stands for no record,
and a to-one relation keeps the first child it meets.

Loading moves the data values out of the row: what is left of the row is
passed on, with a null in each place that was emptied. Key values are
copied and stay.
-/
import RecordQuery.Plan.Structure
import RecordQuery.Value.Json

namespace RecordQuery

/-- A record that is being loaded, and for each relation of its structure
the nodes below it by the texts of their keys. -/
structure Node where
  record : Record
  children : List (List (String × Node))

namespace Structure

/-- The record of a structure in a row: its key, then its data, loaded into
a blank record. -/
def load (s : Structure) (row : Row) : Except Fault Record :=
  (s.keys.zip (s.keyOf row) ++ s.fields.zip (s.fieldsOf row)).foldlM
    (fun record (slot, v) => s.mapping.write slot.column record v) s.mapping.blank

/-- What is left of a row once the data values of a structure are moved
out. -/
def emptied (s : Structure) (row : Row) : Row :=
  row.take s.keyEnd ++ (s.fieldsOf row).map (fun v => v.take.2) ++ row.drop s.fieldEnd

/-- A new node for the record of a structure in a row, and what is left of
the row. -/
def start (s : Structure) (row : Row) : Except Fault (Node × Row) :=
  (s.load row).map fun record => (⟨record, s.relations.map fun _ => []⟩, s.emptied row)

/-- Whether a row has no record for a structure. -/
def missing (s : Structure) (row : Row) : Bool :=
  (s.keyOf row).all Value.isNull

mutual

/-- Takes up what a row adds below a node: the node, and what is left of
the row. -/
def absorb : Structure → Node → Row → Except Fault (Node × Row)
  | ⟨_, _, _, _, _, relations⟩, node, row =>
    (absorbEach relations node.children row).map fun (children, row) =>
      ({ node with children }, row)
termination_by structural s => s

/-- Takes up what a row adds below the relations of a node, one after the
other. -/
def absorbEach : List (Relation × Structure) → List (List (String × Node)) → Row →
    Except Fault (List (List (String × Node)) × Row)
  | (relation, s) :: rest, group :: groups, row => do
    let (group, row) ←
      if s.missing row then pure (group, row)
      else
        let key := Value.keyText (s.keyOf row)
        match group.lookup key with
        | some child => do
          let (child, row) ← s.absorb child row
          pure (Entries.put key child group, row)
        | none =>
          if !relation.kind.isMany && !group.isEmpty then pure (group, row)
          else do
            let (child, row) ← s.start row
            let (child, row) ← s.absorb child row
            pure (Entries.put key child group, row)
    let (groups, row) ← absorbEach rest groups row
    pure (group :: groups, row)
  | _, groups, row => pure (groups, row)
termination_by structural relations => relations

end

mutual

/-- The record of a node with everything below it attached. -/
def finish : Structure → Node → Except Error Record
  | ⟨m, _, _, _, _, relations⟩, node => finishEach m relations node.children node.record
termination_by structural s => s

/-- Attaches the nodes below the relations of a mapping to its record. -/
def finishEach (m : Mapping) : List (Relation × Structure) → List (List (String × Node)) →
    Record → Except Error Record
  | (relation, s) :: rest, group :: groups, record => do
    let record ← group.foldlM (fun record (_, node) => do
      let child ← s.finish node
      match m.attach relation record child with
      | .ok record => pure record
      | .error e => throw ((e : Error).noted s!"attach `{relation.field}`"))
      record
    finishEach m rest groups record
  | _, _, record => pure record
termination_by structural relations => relations

end

end Structure

end RecordQuery
