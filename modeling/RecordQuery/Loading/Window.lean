/-
Reading rows into records. The rows of one record follow each other: a
record begins with each row whose key differs from that of the record
before. A window skips records, which are not loaded, and stops at a
number of records; it stops when the first record beyond is met, so that
the last one is complete, and what comes after is not looked at.

Whatever goes wrong is reported with the position of the row.
-/
import RecordQuery.Loading.Node
import RecordQuery.Plan.Statement
import RecordQuery.Running.Cursor

namespace RecordQuery

namespace Structure

/-- Where reading stands: the records kept, how many have begun, and the
one at hand by its key, with no node if it is skipped. -/
structure Progress where
  records : List Record := []
  begun : Nat := 0
  current : Option (List Value × Option Node) := none

/-- The records kept, with the one at hand. -/
def Progress.finish (s : Structure) (p : Progress) : Except Error (List Record) :=
  match p.current with
  | some (_, some node) => (s.finish node).map fun record => p.records ++ [record]
  | _ => .ok p.records

/-- Whether a row with the key begins another record. -/
def Progress.isLeftBy (p : Progress) (key : List Value) : Bool :=
  match p.current with
  | some (current, _) => !Value.equalAll current key
  | none => true

/-- Takes up a row, or what is left of it, that belongs to the record at
hand. -/
def Progress.absorb (s : Structure) (p : Progress) (row : Row) : Except Fault Progress :=
  match p.current with
  | some (key, some node) =>
    (s.absorb node row).map fun (node, _) => { p with current := some (key, some node) }
  | _ => .ok p

/-- Begins the record of a row, behind those kept, and takes up what is
left of the row. The key is kept from before anything is moved out. -/
def Progress.begin (s : Structure) (window : Window) (row : Row) (records : List Record)
    (begun : Nat) : Except Fault Progress :=
  let key := s.keyOf row
  if begun < window.skip then
    .ok { records, begun := begun + 1, current := some (key, none) }
  else do
    let (node, row) ← s.start row
    Progress.absorb s { records, begun := begun + 1, current := some (key, some node) } row

/-- Reports a fault of the row at a position. -/
def atRow {α : Type} (index : Nat) : Except Fault α → Except Error α
  | .ok a => .ok a
  | .error fault => .error ((fault : Error).noted s!"row {index}")

/-- Reads rows from a position on into the records of a window. -/
def readFrom (s : Structure) (window : Window) (failure : Option Error) (index : Nat)
    (p : Progress) : List Row → Except Error (List Record)
  | [] =>
    match failure with
    | some e => .error (e.noted s!"row {index}")
    | none => p.finish s
  | row :: rest => do
    if row.length ≠ s.width then
      atRow index (throw (.argument (.rowWidth row.length s.width)))
    else if p.isLeftBy (s.keyOf row) then
      let records ← p.finish s
      if window.take.any (· ≤ records.length) then pure records
      else
        let p ← atRow index (Progress.begin s window row records p.begun)
        s.readFrom window failure (index + 1) p rest
    else
      let p ← atRow index (p.absorb s row)
      s.readFrom window failure (index + 1) p rest

/-- The records of a window over the rows that are delivered. -/
def read (s : Structure) (window : Window) (delivered : Cursor.Delivered) :
    Except Error (List Record) :=
  s.readFrom window delivered.failure 0 {} delivered.rows

end Structure

end RecordQuery
