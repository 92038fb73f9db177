/-
Repositories: a catalog and a pool of connections. Records are loaded by
building a plan, sending its statement and reading the rows of the reply.

A request asks for a connection only when its statement is ready, so a
request that makes no statement needs none, and nothing is sent once the
context has ended.
-/
import RecordQuery.Loading.Window
import RecordQuery.Running.Connection
import RecordQuery.Running.Pool

namespace RecordQuery

/-- Mapped models, and connections to the database that stores them. -/
structure Repository where
  catalog : Catalog
  dialect : Dialect
  pool : Pool

/-- How a request went: its result, the statements sent, and the repository
afterwards. -/
structure Outcome (α : Type) where
  result : Except Error α
  sent : List Statement
  repository : Repository

/-- The circumstances of a request: its context, and what the database will
reply to a statement. -/
structure Circumstances where
  context : Context := {}
  signals : Signals := {}
  reply : Reply := .count 0

namespace Outcome

/-- Notes what was being done when a request failed. -/
def noted {α : Type} (o : Outcome α) (text : String) : Outcome α :=
  match o.result with
  | .ok _ => o
  | .error e => { o with result := .error (e.noted text) }

end Outcome

namespace Repository

/-- Seals the mappings and opens a pool of connections. -/
def build (mappings : List Mapping) (database : Database) (size : Nat) :
    Except Error Repository :=
  match Catalog.ofMappings mappings with
  | .error fault => .error (Fault.schema fault.message)
  | .ok catalog =>
    match Pool.start database size with
    | (.error e, _) => .error e
    | (.ok (), pool) => .ok { catalog, dialect := database.dialect, pool }

/-- Takes a connection from the pool, unless the context has ended. -/
def acquire (r : Repository) (c : Circumstances) : Except Error Unit × Repository :=
  match c.context.run c.signals (.done r.pool.get) with
  | (.ok (result, pool), _) => (result, { r with pool })
  | (.error fault, _) => (.error fault, r)

/-- Gives the connection back. -/
def release (r : Repository) : Repository :=
  { r with pool := r.pool.release }

/-- Loads the records of an include. -/
def load (r : Repository) (c : Circumstances) (m : Mapping) (inc : Include) (offset : Nat)
    (limit : Option Nat) : Outcome (List Record) :=
  match Plan.build r.catalog r.dialect m inc m.table offset limit with
  | .error e => ⟨.error e, [], r⟩
  | .ok plan =>
    match r.acquire c with
    | (.error e, r) => ⟨.error e, [], r⟩
    | (.ok (), r) =>
      let (answer, signals) := c.context.attempt c.signals (.done c.reply.source)
      let read := fun source =>
        plan.layout.read plan.window (Cursor.delivered { context := c.context, source } signals)
      ⟨answer.bind read, [plan.statement], r.release⟩

/-- Sends a statement that returns no rows: the number of rows affected. -/
def execute (r : Repository) (c : Circumstances) (statement : Statement) : Outcome Nat :=
  match r.acquire c with
  | (.error e, r) => ⟨.error e, [], r⟩
  | (.ok (), r) =>
    let (answer, _) := c.context.attempt c.signals (.done c.reply.affected)
    Outcome.noted ⟨answer, [statement], r.release⟩ "execute"

end Repository

end RecordQuery
