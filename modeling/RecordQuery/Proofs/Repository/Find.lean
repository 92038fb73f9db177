/-
Finding records, from the options to the list of targets. Each thing that
can go wrong before a statement is sent is found out in its turn: that the
model has no mapping, that nothing is asked for, that no plan can be made,
that the context has ended, that there is no connection. Only the first of
these leaves the targets as they were; by all others they are given up.

Reading is all or nothing, so the list is never filled in part. Whatever
the connection delivers, a request that succeeds leaves the records in the
plan's window; once there is a connection it fails only if the reply does
or its rows cannot all be read.
-/
import RecordQuery.Proofs.Loading.Part
import RecordQuery.Proofs.Repository.Get

namespace RecordQuery

-- ============================================================== context

namespace Context

variable {α : Type} {context : Context} {signals : Signals}

end Context

-- ============================================================ delivered

namespace Cursor

variable {context : Context} {signals : Signals}

end Cursor

-- ================================================================= pool

namespace Pool

end Pool

-- ============================================================== loading

/-- Records of one model are all of them records of that model. -/
theorem Record.allOf_eq {model : String} {records : List Record}
    (h : ∀ t ∈ records, t.model = model) : allOf model records = (.ok (), records) := by
  have hall : records.mapM (fun record => record.asModel model) = .ok records := by
    induction records with
    | nil => rfl
    | cons t rest ih =>
        obtain ⟨ht, hrest⟩ := List.forall_mem_cons.1 h
        rw [List.mapM_cons, ih hrest, asModel, if_pos ht]
        rfl
  rw [allOf, hall]

/-- What the connection delivers of the rows of a source. -/
def Circumstances.delivered (c : Circumstances) (source : Source) : Cursor.Delivered :=
  Cursor.delivered { context := c.context, source } c.signals

namespace Repository

variable {r : Repository} {c : Circumstances} {m : Mapping} {inc : Include} {offset : Nat}
  {limit : Option Nat} {plan : Plan}

/-- How a request for many records goes once its plan is made and its context
has not ended. -/
structure Finds (r : Repository) (c : Circumstances) (plan : Plan) (found : Filled) : Prop where
  /-- The plan's text is sent once, with its parameters, if there is a
  connection, and nothing else. -/
  sent : found.sent = if r.pool.get.1.isOk then [⟨plan.sql, plan.params⟩] else []
  /-- The connection is given back. -/
  held : found.repository.pool.held = r.pool.held
  /-- A failure leaves no record, and says that records were to be found. -/
  failed : ∀ e, found.result = .error e →
    found.targets = [] ∧ ∃ cause : Error, e = cause.noted "find"
  /-- Otherwise the records are those in the window, each made of the rows of
  one run, in the order of the rows. -/
  filled : found.result = .ok () → ∃ source, c.reply.source = .ok source
    ∧ found.targets
      = (plan.window.part (plan.layout.runs (c.delivered source).rows)).map plan.layout.grouped
  /-- Nothing but the connection, the reply and the rows can make it fail. -/
  served : ∀ source records, r.pool.get.1 = .ok () → c.reply.source = .ok source →
    plan.layout.read {} (c.delivered source) = .ok records →
    found.result = .ok () ∧ found.targets = plan.window.part records
  /-- All rows of a reply are delivered that has nothing but rows. -/
  delivered : ∀ source rows, source = .buffered rows ∨ source = .stream (rows.map .row) →
    c.delivered source = ⟨rows, none⟩

variable {model : String} {targets : List Record} {capacity : Nat} {options : FindOptions}

end Repository

end RecordQuery
