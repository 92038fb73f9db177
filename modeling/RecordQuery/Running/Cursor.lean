/-
Cursors over the rows of a query. A cursor is moved to the next row, whose
values are then scanned into slots; a row can be scanned once. The rows
are in memory or arrive one by one, and the context is looked at before
each. A cursor that has run out or was closed delivers nothing more,
whatever its context.

A failure leaves the row that was delivered last where it is.
-/
import RecordQuery.Running.Context

namespace RecordQuery

/-- What a stream of rows brings next. -/
inductive Delivery where
  | row (values : Row)
  | failure (e : Error)
  /-- A token is cancelled before the next delivery is there. -/
  | cancel (token : Token)
deriving DecidableEq, Repr

/-- Where the rows of a cursor come from. -/
inductive Source where
  | buffered (rows : List Row)
  | stream (deliveries : List Delivery)
  | closed
deriving DecidableEq, Repr

/-- A cursor over rows. -/
structure Cursor where
  context : Context
  source : Source
  /-- The row delivered last, until it is scanned. -/
  current : Option Row := none
deriving DecidableEq, Repr

/-- Waits for the next row of a stream: the row, none at the end or a
failure, and the deliveries after it. -/
def Delivery.next : List Delivery → Work (Except Error (Option Row) × List Delivery)
  | [] => .done (.ok none, [])
  | .row values :: rest => .done (.ok (some values), rest)
  | .failure e :: rest => .done (.error e, rest)
  | .cancel token :: rest => .cancel token (Delivery.next rest)

namespace Cursor

/-- A move of a cursor: whether there is a row, or why that is unknown. -/
structure Move where
  result : Except Error Bool
  cursor : Cursor
  signals : Signals

/-- A cursor that delivers nothing more. -/
def close (c : Cursor) : Cursor :=
  { c with source := .closed, current := none }

/-- Moves a cursor to its next row. -/
def next (c : Cursor) (signals : Signals) : Move :=
  match c.source with
  | .closed => ⟨.ok false, c.close, signals⟩
  | .buffered rows =>
    match c.context.check signals, rows with
    | .error fault, _ => ⟨.error fault, c, signals⟩
    | .ok (), [] => ⟨.ok false, c.close, signals⟩
    | .ok (), row :: rest =>
      ⟨.ok true, { c with source := .buffered rest, current := some row }, signals⟩
  | .stream deliveries =>
    match c.context.run signals (Delivery.next deliveries) with
    | (.error fault, signals) => ⟨.error fault, c, signals⟩
    | (.ok (.error e, rest), signals) => ⟨.error e, { c with source := .stream rest }, signals⟩
    | (.ok (.ok none, _), signals) => ⟨.ok false, c.close, signals⟩
    | (.ok (.ok (some row), rest), signals) =>
      ⟨.ok true, { c with source := .stream rest, current := some row }, signals⟩

/-- Moves the row delivered last into slots, of which there must be one for
each of its values: the slots afterwards, and the cursor without the row.
After a failure the row is still there. -/
def scan (c : Cursor) (slots : List Value) :
    Except ArgumentError Unit × List Value × Cursor :=
  match c.current with
  | none => (.error .noCurrentRow, slots, c)
  | some row =>
    if row.length = slots.length then (.ok (), row, { c with current := none })
    else (.error (.rowWidth row.length slots.length), slots, c)

-- ============================================================== the rest

/-- How many times a source can be asked before it is known to be at its
end. -/
def remaining (c : Cursor) : Nat :=
  match c.source with
  | .buffered rows => rows.length
  | .stream deliveries => deliveries.length
  | .closed => 0

/-- Rows in order, and why there are no more if that is a failure. -/
structure Delivered where
  rows : List Row
  failure : Option Error := none
deriving DecidableEq, Repr

/-- The rows that a cursor delivers if it is moved as often as given. -/
def deliver (c : Cursor) (signals : Signals) : Nat → Delivered
  | 0 => ⟨[], none⟩
  | times + 1 =>
    let move := c.next signals
    match move.result, move.cursor.current with
    | .error e, _ => ⟨[], some e⟩
    | .ok true, some row =>
      let rest := move.cursor.deliver move.signals times
      { rest with rows := row :: rest.rows }
    | .ok _, _ => ⟨[], none⟩

/-- All rows that a cursor still delivers, up to the first failure. -/
def delivered (c : Cursor) (signals : Signals) : Delivered :=
  c.deliver signals (c.remaining + 1)

/-- All rows that a cursor still delivers, if it does not fail. -/
def collect (c : Cursor) (signals : Signals) : Except Error (List Row) :=
  match c.delivered signals with
  | ⟨rows, none⟩ => .ok rows
  | ⟨_, some e⟩ => .error e

end Cursor

end RecordQuery
