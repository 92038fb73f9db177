/-
Pools: connections to one database that are opened when needed, kept and
used again, never more than a limit at a time. A connection that is given
back is used before another is opened; when all are held, a request for
one fails at once.

What becomes of attempts to connect is given beforehand, so a pool can be
looked at without a database.
-/
import RecordQuery.Dialect

namespace RecordQuery

/-- A database to connect to. -/
structure Database where
  dialect : Dialect
  /-- The most connections that it takes, if there is such a limit. -/
  maxConnections : Option Nat := none
  /-- What becomes of the first attempts to connect, in order: the error of
  those that fail. All others succeed. -/
  attempts : List (Option Error) := []

/-- Connections to a database, by their number. -/
structure Pool where
  capacity : Nat
  /-- Connections that wait to be used. -/
  idle : Nat
  /-- Connections in use. -/
  held : Nat
  /-- How often connecting succeeded. -/
  opened : Nat
  /-- What becomes of the next attempts to connect. -/
  attempts : List (Option Error)
  bounded : idle + held ≤ capacity := by omega

namespace Pool

/-- The report of a request for which no connection was free. -/
def busy : Fault :=
  .connectionPool ⟨"Timeout occurred while waiting for a slot to become available", []⟩

/-- Opens one more connection, for which there is room. -/
def connect (pool : Pool) (room : pool.idle + pool.held < pool.capacity) :
    Except Error Unit × Pool :=
  match pool.attempts with
  | some e :: rest => (.error e, { pool with attempts := rest })
  | none :: rest =>
    (.ok (), { pool with
      held := pool.held + 1, opened := pool.opened + 1, attempts := rest, bounded := by omega })
  | [] =>
    (.ok (), { pool with held := pool.held + 1, opened := pool.opened + 1, bounded := by omega })

/-- Takes a connection: one that waits, or a new one if there is room. -/
def get (pool : Pool) : Except Error Unit × Pool :=
  if waiting : 0 < pool.idle then
    (.ok (), { pool with
      idle := pool.idle - 1, held := pool.held + 1
      bounded := by have := pool.bounded; omega })
  else if room : pool.idle + pool.held < pool.capacity then pool.connect room
  else (.error busy, pool)

/-- Gives a connection back, if one is held. -/
def release (pool : Pool) : Pool :=
  if inUse : 0 < pool.held then
    { pool with
      idle := pool.idle + 1, held := pool.held - 1
      bounded := by have := pool.bounded; omega }
  else pool

/-- A pool without connections. Of its own limit and that of the database
the smaller one counts. -/
def empty (database : Database) (size : Nat) : Pool where
  capacity := (database.maxConnections.getD size).min size
  idle := 0
  held := 0
  opened := 0
  attempts := database.attempts

/-- A pool that has opened a first connection, so that it fails now if it
cannot connect. -/
def start (database : Database) (size : Nat) : Except Error Unit × Pool :=
  let (result, pool) := (empty database size).get
  (result, pool.release)

end Pool

end RecordQuery
