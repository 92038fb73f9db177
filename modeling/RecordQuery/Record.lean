/-
Records: the values and related records of one model's fields. A record
knows its model, and every accessor of a mapping first asks for a record
of its own model.

Related records of a to-one field are a list of at most one, replaced by
whatever is attached; those of a to-many field grow at the end.
-/
import RecordQuery.Entries
import RecordQuery.Schema.Mapping

namespace RecordQuery

/-- A record: a value for each column field, a list of records for each
relation field. -/
structure Record where
  model : String
  values : List (String × Value)
  related : List (String × List Record)
deriving BEq, Repr

namespace Record

instance : Inhabited Record := ⟨⟨"", [], []⟩⟩

def value? (r : Record) (field : String) : Option Value :=
  r.values.lookup field

/-- The records that a relation field holds. -/
def relatedTo (r : Record) (field : String) : List Record :=
  (r.related.lookup field).getD []

def setValue (r : Record) (field : String) (v : Value) : Record :=
  { r with values := Entries.put field v r.values }

def setRelated (r : Record) (field : String) (records : List Record) : Record :=
  { r with related := Entries.put field records r.related }

/-- The record itself, if it is of the model. -/
def asModel (r : Record) (model : String) : Except ArgumentError Record :=
  if r.model = model then .ok r else .error (.wrongModel model)

end Record

namespace Mapping

/-- A new record: every column at its type's blank, no related records. -/
def blank (m : Mapping) : Record where
  model := m.model
  values := m.columns.map fun c => (c.field, c.type.store c.type.blank)
  related := m.relations.map fun r => (r.field, [])

/-- Reads the field of a column. -/
def read (m : Mapping) (c : Column) (record : Record) : Except ArgumentError Value :=
  (record.asModel m.model).map fun r =>
    (r.value? c.field).getD (c.type.store c.type.blank)

/-- Loads a value into the field of a column. The value is converted
first, so of two faults that of the value is reported. -/
def write (m : Mapping) (c : Column) (record : Record) (v : Value) : Except Fault Record :=
  match c.type.normalize v with
  | .error e => .error (.conversion e)
  | .ok stored =>
    match record.asModel m.model with
    | .error e => .error (.argument e)
    | .ok r => .ok (r.setValue c.field stored)

/-- The primary key of a record. -/
def keyOf (m : Mapping) (record : Record) : Except ArgumentError (List Value) :=
  m.keyColumns.mapM fun c => m.read c record

/-- Stores a related record on its parent: in the place of what a to-one
field holds, at the end of a to-many field. Of two faults a to-one field
reports that of the child, a to-many field that of the parent. -/
def attach (m : Mapping) (relation : Relation) (parent child : Record) :
    Except ArgumentError Record :=
  match relation.kind with
  | .one => do
    let child ← child.asModel relation.target
    let parent ← parent.asModel m.model
    pure (parent.setRelated relation.field [child])
  | .many => do
    let parent ← parent.asModel m.model
    let child ← child.asModel relation.target
    pure (parent.setRelated relation.field (parent.relatedTo relation.field ++ [child]))

/-- What is left of two records after a move between them, and whether it
succeeded. -/
structure Transfer where
  result : Except Fault Unit
  target : Record
  source : Record

/-- Goes on with the two records, unless the move before failed. -/
def Transfer.andThen (t : Transfer) (move : Record → Record → Transfer) : Transfer :=
  match t.result with
  | .ok () => move t.target t.source
  | .error _ => t

/-- Moves what a relation field holds from one record to another. It is
taken out of the source before the target is looked at, so it is gone from
there even if the target is of another model. -/
def transfer (m : Mapping) (relation : Relation) (target source : Record) : Transfer :=
  match source.asModel m.model with
  | .error e => ⟨.error (.argument e), target, source⟩
  | .ok src =>
    let emptied := src.setRelated relation.field []
    match target.asModel m.model with
    | .error e => ⟨.error (.argument e), target, emptied⟩
    | .ok dst => ⟨.ok (), dst.setRelated relation.field (src.relatedTo relation.field), emptied⟩

end Mapping

end RecordQuery
