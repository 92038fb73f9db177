/-
Options of requests to a repository. An include given anew replaces the
one before; filters add up.

The filter of a request for many records is kept in its include, so an
include given after it replaces it too. The filter of a request for known
records stands beside the include.
-/
import RecordQuery.Expression.Include

namespace RecordQuery

/-- Which records to find. -/
structure FindOptions where
  included : Include := .empty
  offset : Nat := 0
  limit : Option Nat := none

/-- What to load of known records, and which condition they must satisfy
besides their keys. -/
structure GetOptions where
  filter : Option Clause := none
  included : Include := .empty

namespace FindOptions

def withInclude (options : FindOptions) (inc : Include) : FindOptions :=
  { options with included := inc }

def addFilter (options : FindOptions) (clause : Clause) : FindOptions :=
  { options with included := options.included.addFilter clause }

def withOffset (options : FindOptions) (offset : Nat) : FindOptions :=
  { options with offset }

def withLimit (options : FindOptions) (limit : Nat) : FindOptions :=
  { options with limit := some limit }

end FindOptions

namespace GetOptions

def withInclude (options : GetOptions) (inc : Include) : GetOptions :=
  { options with included := inc }

def addFilter (options : GetOptions) (clause : Clause) : GetOptions :=
  { options with filter := Clause.andOpt options.filter (some clause) }

end GetOptions

end RecordQuery
