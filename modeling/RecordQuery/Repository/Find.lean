/-
Finding records: the list of targets is replaced by the records that
satisfy the options, in the order of the rows. There are at most as many
as the limit says, or else as the list has room for; a limit of zero asks
for nothing and sends nothing.
-/
import RecordQuery.Repository
import RecordQuery.Repository.Options

namespace RecordQuery

/-- How a request that fills a list of targets went. -/
structure Filled where
  result : Except Error Unit
  targets : List Record
  sent : List Statement
  repository : Repository

/-- The records as those of a model: all of them, or those before the first
that is of another. -/
def Record.allOf (model : String) (records : List Record) :
    Except Error Unit × List Record :=
  match records.mapM fun record => record.asModel model with
  | .ok records => (.ok (), records)
  | .error e => (.error e, records.takeWhile fun record => record.model = model)

/-- Replaces the targets by the records found. -/
def Repository.find (r : Repository) (c : Circumstances) (model : String)
    (targets : List Record) (capacity : Nat) (options : FindOptions) : Filled :=
  match r.catalog.mapping model with
  | .error e => ⟨.error e, targets, [], r⟩
  | .ok m =>
    let limit := options.limit.getD capacity
    if limit = 0 then ⟨.ok (), [], [], r⟩
    else
      let loaded := (r.load c m options.included options.offset (some limit)).noted "find"
      match loaded.result with
      | .error e => ⟨.error e, [], loaded.sent, loaded.repository⟩
      | .ok records =>
        let (result, records) := Record.allOf model records
        ⟨result, records, loaded.sent, loaded.repository⟩

end RecordQuery
