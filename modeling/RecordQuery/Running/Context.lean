/-
Contexts: how long an operation may go on. A context may have a deadline
and a token that cancels it. Both are looked at before an operation begins
and before each later turn it takes; of a cancelled token and a passed
deadline the token counts.

Work is done in turns. Within a turn it goes on without being looked at,
so what it ends with stands, even if it cancelled its own token on the
way.
-/
import RecordQuery.Error

namespace RecordQuery

/-- A token that can be cancelled, once and for all, told apart by its
number. -/
structure Token where
  id : Nat
deriving DecidableEq, Repr

/-- What contexts are held against: the time, and the tokens that are
cancelled by then. -/
structure Signals where
  now : Nat := 0
  cancelled : List Token := []

namespace Signals

def isCancelled (signals : Signals) (token : Token) : Bool :=
  signals.cancelled.contains token

def cancel (signals : Signals) (token : Token) : Signals :=
  { signals with cancelled := token :: signals.cancelled }

end Signals

/-- How long an operation may go on. -/
structure Context where
  deadline : Option Nat := none
  token : Option Token := none
deriving DecidableEq, Repr

/-- An operation in turns, and what it ends with. -/
inductive Work (α : Type) where
  | done (result : α)
  /-- Cancels a token and goes on in the same turn. -/
  | cancel (token : Token) (rest : Work α)
  /-- Ends the turn, to go on in the next. -/
  | yield (rest : Work α)

namespace Context

/-- Why an operation may not go on, if it may not. -/
def fault? (context : Context) (signals : Signals) : Option Fault :=
  if context.token.any signals.isCancelled then some .cancelled
  else if context.deadline.any (· ≤ signals.now) then some .deadlineExceeded
  else none

/-- Fails if an operation may not begin. -/
def check (context : Context) (signals : Signals) : Except Fault Unit :=
  match context.fault? signals with
  | some fault => .error fault
  | none => .ok ()

/-- Goes on with a turn that has begun. -/
def resume {α : Type} (context : Context) (signals : Signals) :
    Work α → Except Fault α × Signals
  | .done result => (.ok result, signals)
  | .cancel token rest => context.resume (signals.cancel token) rest
  | .yield rest =>
    match context.fault? signals with
    | some fault => (.error fault, signals)
    | none => context.resume signals rest

/-- Does the work, unless the context ends it first. -/
def run {α : Type} (context : Context) (signals : Signals) (work : Work α) :
    Except Fault α × Signals :=
  context.resume signals (.yield work)

/-- Waits for what never happens while tokens are cancelled elsewhere: for
the token of the context, or else for the deadline. There is no fault in
a context that waits forever. -/
def wait (context : Context) (signals : Signals) (cancelled : List Token) :
    Option Fault × Signals :=
  let later := cancelled.foldl Signals.cancel signals
  match context.fault? signals, context.fault? later, context.deadline with
  | some fault, _, _ | none, some fault, _ => (some fault, later)
  | none, none, some deadline => (some .deadlineExceeded, { later with now := deadline })
  | none, none, none => (none, later)

end Context

end RecordQuery
