/-
Errors: a root fault and the faults it was put into the context of. An
error is shown with its latest context first, down to the root.

Most questions about an error are asked of one place of that chain: of
the root (was it cancelled, did it run out of time), of the latest
context alone (is it this kind of failure), or of the first fault of a
kind from the outside in (a compile error, an argument error, the code
that the database gave).
-/
import RecordQuery.Error.Compile
import RecordQuery.Value.ColumnType

namespace RecordQuery

-- =============================================================== faults

/-- What another library reports: a text, and the texts of the causes
behind it, nearest first. -/
structure Report where
  message : String
  causes : List String
deriving DecidableEq, Repr

/-- What is wrong with an argument. -/
inductive ArgumentError where
  /-- The model has no mapping in the catalog. -/
  | noMapping (model : String)
  /-- The record is of another model than this one. -/
  | wrongModel (model : String)
  /-- No row was delivered, or it was taken already. -/
  | noCurrentRow
  /-- A row and the places offered for it differ in number. -/
  | rowWidth (columns slots : Nat)
  /-- Anything else that is wrong with an argument. -/
  | invalid (reason : String)
deriving DecidableEq, Repr

def ArgumentError.message : ArgumentError → String
  | .noMapping model => s!"no mapping registered for `{model}`"
  | .wrongModel model => s!"invalid argument: record is not a `{model}`"
  | .noCurrentRow =>
    "invalid argument: scan called without a current row, or the row was already scanned"
  | .rowWidth columns slots =>
    s!"invalid argument: row has {columns} columns, but {slots} slots were provided"
  | .invalid reason => s!"invalid argument: {reason}"

/-- One thing that went wrong, or a note on what was being done. -/
inductive Fault where
  | note (text : String)
  | argument (e : ArgumentError)
  | cancelled
  | deadlineExceeded
  | compile (e : CompileError)
  | connectionPool (report : Report)
  | driver (report : Report) (code : Option String)
  | connectionUrl (reason : String)
  | schema (reason : String)
  | notFound (requested found : Nat)
  | conversion (c : Conversion)
  /-- A failure of another library, shown by its own text. -/
  | foreign (report : Report)
deriving DecidableEq, Repr

namespace Fault

def message : Fault → String
  | note text => text
  | argument e => e.message
  | cancelled => "operation cancelled"
  | deadlineExceeded => "deadline exceeded"
  | compile e => e.message
  | connectionPool report => s!"connection pool: {report.message}"
  | driver report _ => ": ".intercalate (report.message :: report.causes)
  | connectionUrl reason => s!"invalid connection URL: {reason}"
  | schema reason => s!"invalid schema: {reason}"
  | notFound requested found => s!"not found: requested {requested} records, found {found}"
  | conversion c => c.message
  | foreign report => report.message

/-- The texts of what stands behind a fault. What the pool or the database
reported stands behind it whole; a failure of another library is its own
first cause. -/
def causes (fault : Fault) : List String :=
  match fault with
  | connectionPool report | driver report _ =>
    fault.message :: report.message :: report.causes
  | foreign report => report.message :: report.causes
  | _ => []

end Fault

-- ================================================================ chains

/-- A fault and its contexts, the latest first. -/
structure Error where
  contexts : List Fault
  root : Fault
deriving DecidableEq, Repr

namespace Error

def ofFault (fault : Fault) : Error := ⟨[], fault⟩

instance : Coe Fault Error := ⟨ofFault⟩
instance : Coe CompileError Error := ⟨fun e => ofFault (.compile e)⟩
instance : Coe ArgumentError Error := ⟨fun e => ofFault (.argument e)⟩
instance : Coe Conversion Error := ⟨fun c => ofFault (.conversion c)⟩

/-- All faults of an error, the latest context first and the root last. -/
def chain (e : Error) : List Fault :=
  e.contexts ++ [e.root]

/-- The latest context, or the root if there is none. -/
def outermost (e : Error) : Fault :=
  e.contexts.headD e.root

/-- Puts an error into a context. -/
def within (e : Error) (fault : Fault) : Error :=
  ⟨fault :: e.contexts, e.root⟩

/-- Puts an error into the context of a note. -/
def noted (e : Error) (text : String) : Error :=
  e.within (.note text)

/-- Puts an error into the context of another, of which only the latest
context counts. One that is still held elsewhere cannot be taken apart and
leaves its text behind. -/
def context (e : Error) (other : Error) (held : Bool) : Error :=
  e.within (if held then .note other.outermost.message else other.outermost)

/-- The text of an error, the latest context first. -/
def message (e : Error) : String :=
  ": ".intercalate (e.chain.map Fault.message)

/-- The texts of what stands behind an error. A context stands before what
was reported, so it hides it. -/
def causes (e : Error) : List String :=
  e.outermost.causes

-- ============================================================ questions

/-- The first compile error, from the outside in. -/
def compileError? (e : Error) : Option CompileError :=
  e.chain.findSome? fun | .compile c => some c | _ => none

/-- The first argument error, from the outside in. -/
def argumentError? (e : Error) : Option ArgumentError :=
  e.chain.findSome? fun | .argument a => some a | _ => none

/-- The first code given by a database, from the outside in. -/
def driverCode? (e : Error) : Option String :=
  e.chain.findSome? fun | .driver _ code => code | _ => none

/-- How many records were requested and found, if that is the failure. -/
def notFound? (e : Error) : Option (Nat × Nat) :=
  match e.outermost with
  | .notFound requested found => some (requested, found)
  | _ => none

def isCompileError (e : Error) : Bool :=
  e.compileError?.isSome

def isNoMapping (e : Error) : Bool :=
  match e.argumentError? with
  | some (.noMapping _) => true
  | _ => false

def isDriverFailure (e : Error) : Bool :=
  e.chain.any fun | .driver .. => true | _ => false

def isCancelled (e : Error) : Bool :=
  e.root = .cancelled

def isDeadlineExceeded (e : Error) : Bool :=
  e.root = .deadlineExceeded

def isConnectionPool (e : Error) : Bool :=
  match e.outermost with
  | .connectionPool _ => true
  | _ => false

def isConnectionUrl (e : Error) : Bool :=
  match e.outermost with
  | .connectionUrl _ => true
  | _ => false

def isSchema (e : Error) : Bool :=
  match e.outermost with
  | .schema _ => true
  | _ => false

def isNotFound (e : Error) : Bool :=
  e.notFound?.isSome

def isConversion (e : Error) : Bool :=
  match e.outermost with
  | .conversion _ => true
  | _ => false

end Error

end RecordQuery
