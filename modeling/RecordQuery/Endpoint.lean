/-
Endpoints: what a connection URL leads to. Each database takes the URLs of
its own scheme; the scheme says which database that is.

A URL that a database does not take is reported with its text: the text
given where it was read directly, its normal text where the database was
chosen by the scheme first.
-/
import RecordQuery.Dialect.Flavor
import RecordQuery.Endpoint.Options
import RecordQuery.Repository
import RecordQuery.Url

namespace RecordQuery

/-- A server of PostgreSQL, and the database to use there. -/
structure Server where
  host : String
  portNumber : Option Nat
  database : String
  user : Option String
  password : Option String
deriving DecidableEq, Repr

/-- What a connection URL leads to. -/
inductive Endpoint where
  /-- A database of SQLite that exists only while it is connected to. -/
  | memory
  /-- A database of SQLite in a file. -/
  | file (path : String)
  | postgresql (server : Server)
  | mysql (options : PoolBounds)

namespace Endpoint

def flavor : Endpoint → Flavor
  | memory | file _ => .sqlite
  | postgresql _ => .postgresql
  | mysql _ => .mysql

/-- The database of an endpoint. One in memory exists on a single
connection. -/
def database (endpoint : Endpoint) : Database where
  dialect := endpoint.flavor.dialect
  maxConnections := match endpoint with
    | memory => some 1
    | _ => none

-- =============================================================== reading

private def refuse {α : Type} (reason text : String) : Except Fault α :=
  .error (.connectionUrl s!"{reason}; url={text}")

private def readUrl (text : String) : Except Fault Url :=
  match Url.parse text with
  | .ok url => .ok url
  | .error fault => refuse fault.message text

/-- Reads a URL of one of the schemes of a database. -/
private def readScheme (name : String) (schemes : List String) (text : String) :
    Except Fault Url := do
  let url ← readUrl text
  if schemes.contains (String.ofList url.scheme) then pure url
  else refuse s!"connection URL does not have a `{name}` scheme" text

/-- The host of a URL, and the name of the database in its path. -/
private def hostAndDatabase (url : Url) (text : String) : Except Fault (String × String) :=
  match url.host?, url.path.dropWhile (· = '/') with
  | none, _ => refuse "missing host in connection URL" text
  | some _, [] => refuse "no database specified - missing path in connection URL" text
  | some host, database => .ok (String.ofList host, String.ofList database)

/-- The endpoint of a URL for SQLite. -/
def ofSqliteUrl (text : String) : Except Fault Endpoint := do
  let url ← readScheme "sqlite" ["sqlite"] text
  pure (if url.path = ":memory:".toList then memory else file (String.ofList url.path))

/-- The endpoint of a URL for PostgreSQL. -/
def ofPostgresqlUrl (text : String) : Except Fault Endpoint := do
  let url ← readScheme "postgresql" ["postgres", "postgresql"] text
  let (host, database) ← hostAndDatabase url text
  let user := url.authority.map Authority.username
  pure (postgresql
    { host, database
      portNumber := url.authority.bind Authority.portNumber
      user := (user.filter fun name => !name.isEmpty).map String.ofList
      password := (url.authority.bind Authority.password).map String.ofList })

/-- The endpoint of a URL for MySQL, whose query holds options. -/
def ofMysqlUrl (text : String) : Except Fault Endpoint := do
  let url ← readScheme "mysql" ["mysql"] text
  let _ ← hostAndDatabase url text
  match PoolBounds.ofOptions {} url.parameters with
  | .ok bounds => pure (mysql bounds)
  | .error fault => refuse fault.message text

/-- The endpoint of a URL for the database that its scheme names. -/
def ofUrl (text : String) : Except Fault Endpoint := do
  let url ← readUrl text
  match String.ofList url.scheme with
  | "sqlite" => ofSqliteUrl url.text
  | "postgres" | "postgresql" => ofPostgresqlUrl url.text
  | "mysql" => ofMysqlUrl url.text
  | scheme => .error (.connectionUrl s!"unsupported database; scheme={scheme}")

end Endpoint

/-- A pool of connections to the endpoint of a URL. -/
def Pool.connect? (text : String) (size : Nat) : Except Error (Dialect × Pool) :=
  match Endpoint.ofUrl text with
  | .error fault => .error fault
  | .ok endpoint =>
    match Pool.start endpoint.database size with
    | (.error e, _) => .error e
    | (.ok (), pool) => .ok (endpoint.database.dialect, pool)

/-- A repository over the endpoint of a URL. The URL is read before the
mappings are sealed. -/
def Repository.connect (mappings : List Mapping) (text : String) (size : Nat) :
    Except Error Repository :=
  match Endpoint.ofUrl text with
  | .error fault => .error fault
  | .ok endpoint => Repository.build mappings endpoint.database size

end RecordQuery
