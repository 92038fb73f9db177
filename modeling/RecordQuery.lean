import RecordQuery.Description
import RecordQuery.Endpoint
import RecordQuery.Proofs.Acceptance.Clauses
import RecordQuery.Proofs.Error.Notes
import RecordQuery.Proofs.Loading.Part
import RecordQuery.Proofs.Loading.Refused
import RecordQuery.Proofs.Path.Resolution
import RecordQuery.Proofs.Plan.Contiguity
import RecordQuery.Proofs.Plan.Joins
import RecordQuery.Proofs.Plan.Numbering
import RecordQuery.Proofs.Plan.Paging
import RecordQuery.Proofs.Plan.Spelling
import RecordQuery.Proofs.Record.Accessors
import RecordQuery.Proofs.Repository.Find
import RecordQuery.Proofs.Repository.KeyClause
import RecordQuery.Proofs.Repository.Matching
import RecordQuery.Proofs.Running.Cursor
import RecordQuery.Proofs.Schema.Coherent
import RecordQuery.Proofs.Statement.Apart
import RecordQuery.Proofs.Storage.Parameter
import RecordQuery.Proofs.Storage.RoundTrip
import RecordQuery.Storage.Postgresql
import RecordQuery.Proofs.Statement.Renamed
import RecordQuery.Proofs.Plan.Renaming
import RecordQuery.Proofs.Acceptance.Conjoined
import RecordQuery.Proofs.Repository.Filters
import RecordQuery.Proofs.Repository.Conjuncts
import RecordQuery.Proofs.Path.Inward
import RecordQuery.Proofs.Plan.Unknown
import RecordQuery.Proofs.Statement.Filled
