/-
Connections: what is sent to a database, and what it replies.
-/
import RecordQuery.Plan.Statement
import RecordQuery.Running.Cursor

namespace RecordQuery

/-- A statement with its parameters, in the order of its placeholders. -/
structure Statement where
  sql : String
  params : List Value
deriving DecidableEq, Repr

def Plan.statement (plan : Plan) : Statement :=
  ⟨plan.sql, plan.params⟩

/-- What a database replies to a statement. -/
inductive Reply where
  | rows (source : Source)
  /-- The number of rows affected. -/
  | count (n : Nat)
  | failure (e : Error)
deriving DecidableEq, Repr

namespace Reply

/-- Where the rows of a reply come from; a count comes with none. -/
def source : Reply → Except Error Source
  | rows source => .ok source
  | count _ => .ok (.buffered [])
  | failure e => .error e

/-- The number of rows affected; a reply with rows affected none. -/
def affected : Reply → Except Error Nat
  | rows _ => .ok 0
  | count n => .ok n
  | failure e => .error e

end Reply

/-- Waits under a context for what may itself fail. -/
def Context.attempt {α : Type} (context : Context) (signals : Signals)
    (work : Work (Except Error α)) : Except Error α × Signals :=
  match context.run signals work with
  | (.ok result, signals) => (result, signals)
  | (.error fault, signals) => (.error fault, signals)

end RecordQuery
