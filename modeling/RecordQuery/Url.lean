/-
URLs: a scheme, an authority with a host, a path, a query and a fragment.
Reading normalises: the scheme becomes lower case, blanks around the text
and line breaks within are dropped, `.` and `..` are worked off in a path
of segments, and every part is percent-encoded as its place demands. Two
texts of one URL have the same normal text.

Some schemes are special: a backslash separates like a slash, any number
of slashes introduces the authority, and its host is a domain. A path that
follows another scheme without a slash is opaque and kept as it is.
-/
import RecordQuery.Url.Host

namespace RecordQuery

/-- Who is asked, and where. -/
structure Authority where
  username : List Char := []
  /-- There is no empty password. -/
  password : Option (List Char) := none
  /-- Empty if the URL names no host. -/
  host : List Char
  portNumber : Option Nat := none
deriving DecidableEq, Repr

/-- A URL in its normal form. -/
structure Url where
  scheme : List Char
  authority : Option Authority
  path : List Char
  query : Option (List Char)
  fragment : Option (List Char)
deriving DecidableEq, Repr

namespace Url

-- =============================================================== schemes

/-- Splits off a scheme: a letter, then letters, digits and some marks up
to a colon. -/
def scheme? (cs : List Char) : Option (List Char × List Char) :=
  let isSchemeChar := fun (c : Char) => c.isAlphanum || c = '+' || c = '-' || c = '.'
  let scheme := cs.takeWhile isSchemeChar
  match scheme, cs.drop scheme.length with
  | first :: _, ':' :: rest =>
    if first.isAlpha then some (scheme.map Casing.lower, rest) else none
  | _, _ => none

/-- The port number that a special scheme need not name. -/
def defaultPortNumber? (scheme : List Char) : Option Nat :=
  [("http", 80), ("https", 443), ("ws", 80), ("wss", 443), ("ftp", 21)].lookup
    (String.ofList scheme)

def isFile (scheme : List Char) : Bool :=
  scheme = "file".toList

def isSpecial (scheme : List Char) : Bool :=
  isFile scheme || (defaultPortNumber? scheme).isSome

private def isSlash (special : Bool) (c : Char) : Bool :=
  c = '/' || (special && c = '\\')

private def endsAuthority (special : Bool) (c : Char) : Bool :=
  isSlash special c || c = '?' || c = '#'

-- ============================================================= authority

/-- The parts before and after the last at sign, if there is one. -/
def splitUser (cs : List Char) : Option (List Char × List Char) :=
  let after := (cs.reverse.takeWhile (· ≠ '@')).reverse
  if after.length = cs.length then none
  else some (cs.take (cs.length - after.length - 1), after)

/-- The user name and the password, if that is not empty. -/
def credentials (cs : List Char) : List Char × Option (List Char) :=
  let name := cs.takeWhile (· ≠ ':')
  let password := cs.drop (name.length + 1)
  (Percent.encode Percent.userinfo name,
    if password.isEmpty then none else some (Percent.encode Percent.userinfo password))

/-- The length of a host: up to a colon outside brackets. -/
def hostLength (bracketed : Bool) : List Char → Nat
  | [] => 0
  | c :: rest =>
    if c = ':' && !bracketed then 0
    else 1 + hostLength (if c = '[' then true else if c = ']' then false else bracketed) rest

/-- The port number behind a colon, unless it is that of the scheme, and what
follows its digits. A backslash ends it in any scheme. -/
def readPortNumber (scheme cs : List Char) : Except UrlFault (Option Nat × List Char) :=
  let digits := cs.takeWhile Char.isDigit
  let rest := cs.drop digits.length
  let n := (Host.number? 10 digits).getD 0
  if 65535 < n then .error .portNumber
  else if rest.head?.all (· = '\\') then
    .ok (if digits.isEmpty ∨ defaultPortNumber? scheme = some n then none else some n, rest)
  else .error .portNumber

/-- Reads an authority, and what of its text belongs to the path after
it. -/
def readAuthority (scheme cs : List Char) (followed : Bool) :
    Except UrlFault (Authority × List Char) := do
  let special := isSpecial scheme
  let (user, cs) := match splitUser cs with
    | some (user, cs) => (some user, cs)
    | none => (none, cs)
  if user = some [] ∧ cs.isEmpty ∧ followed then throw .emptyHost
  let (username, password) := credentials (user.getD [])
  let size := hostLength false cs
  let text := cs.take size
  if text.isEmpty && special then throw .emptyHost
  let host ← Host.parse special text
  match cs.drop size with
  | [] =>
    if host.isEmpty && (!username.isEmpty || password.isSome) then throw .emptyHost
    else pure ({ username, password, host }, [])
  | rest =>
    if host.isEmpty then throw .emptyHost
    else
      let (portNumber, rest) ← readPortNumber scheme (rest.drop 1)
      pure ({ username, password, host, portNumber }, rest)

-- ================================================================== path

private def dots (segment : List Char) : Nat :=
  match String.ofList (segment.map Casing.lower) with
  | "." | "%2e" => 1
  | ".." | ".%2e" | "%2e." | "%2e%2e" => 2
  | _ => 0

/-- The name of a drive: a letter and a colon or a bar. No segment leads
out of it. -/
def isDrive : List Char → Bool
  | [letter, mark] => letter.isAlpha && (mark = ':' || mark = '|')
  | _ => false

/-- Works off the segments of a path, behind those in reverse that are
there already. A last segment of dots leaves an empty one. -/
def segments (behind : List (List Char)) : List (List Char) → List (List Char)
  | [] => behind.reverse
  | segment :: rest =>
    let last := rest.isEmpty
    match dots segment with
    | 0 => segments (segment :: behind) rest
    | 1 => segments (if last then [] :: behind else behind) rest
    | _ =>
      let shorter := if behind.head?.any isDrive then behind else behind.drop 1
      segments (if last then [] :: shorter else shorter) rest

/-- The path of segments that a text stands for. -/
def readPath (special : Bool) (cs : List Char) : List Char :=
  if cs.isEmpty && !special then []
  else
    let slashed := cs.map fun c => if isSlash special c then '/' else c
    let parts := (if slashed.head? = some '/' then slashed.drop 1 else slashed).splitOn '/'
    '/' :: ['/'].intercalate (segments [] (parts.map (Percent.encode Percent.path)))

-- =============================================================== reading

/-- The characters of a text that count: blanks and controls around it and
line breaks and tabs within do not. -/
def significant (text : String) : List Char :=
  let blank := fun (c : Char) => decide (c.toNat ≤ 0x20)
  let trimmed := ((text.toList.dropWhile blank).reverse.dropWhile blank).reverse
  trimmed.filter fun c => c ≠ '\t' ∧ c ≠ '\n' ∧ c ≠ '\r'

/-- Splits off what follows the first of a mark. -/
def splitMark (mark : Char) (cs : List Char) : List Char × Option (List Char) :=
  let before := cs.takeWhile (· ≠ mark)
  if before.length = cs.length then (cs, none) else (before, some (cs.drop (before.length + 1)))

/-- The text behind the slashes that introduce an authority, if there are
any. -/
def authorityText? (scheme rest : List Char) : Option (List Char) :=
  let special := isSpecial scheme
  if special && !isFile scheme then some (rest.dropWhile (isSlash true))
  else
    match rest with
    | a :: b :: rest => if isSlash special a && isSlash special b then some rest else none
    | _ => none

/-- The authority and the path behind a scheme. The host of a file may be
missing, and is then followed by no port number. -/
def readHierarchy (scheme rest : List Char) (followed : Bool) :
    Except UrlFault (Option Authority × List Char) := do
  let special := isSpecial scheme
  match authorityText? scheme rest with
  | some text =>
    let server := text.takeWhile fun c => !endsAuthority special c
    let behind := text.drop server.length
    if isFile scheme then
      if server.isEmpty || isDrive server then
        pure (some { host := [] }, readPath special (if server.isEmpty then behind else text))
      else
        let host ← Host.parse special server
        pure (some { host }, readPath special behind)
    else
      let (authority, more) ← readAuthority scheme server (followed || !behind.isEmpty)
      pure (some authority, readPath special (more ++ behind))
  | none =>
    if special || rest.head? = some '/' then pure (none, readPath special rest)
    else pure (none, Percent.encode Percent.control rest)

/-- The URL that a text stands for. -/
def parse (text : String) : Except UrlFault Url := do
  match scheme? (significant text) with
  | none => throw .noScheme
  | some (scheme, rest) =>
    let (rest, fragment) := splitMark '#' rest
    let (rest, query) := splitMark '?' rest
    let (authority, path) ← readHierarchy scheme rest (query.isSome || fragment.isSome)
    pure
      { scheme, authority, path
        query := query.map (Percent.encode Percent.query)
        fragment := fragment.map (Percent.encode Percent.fragment) }

-- =============================================================== writing

/-- The text of an authority behind its slashes. -/
def Authority.chars (a : Authority) : List Char :=
  let password := match a.password with
    | some password => ':' :: password
    | none => []
  let user := a.username ++ password
  (if user.isEmpty then [] else user ++ ['@']) ++ a.host ++
    match a.portNumber with
    | some n => ':' :: Nat.toDigits 10 n
    | none => []

/-- The text of a URL. A path that begins with two slashes is kept apart
from the scheme, so that it is not taken for an authority. -/
def chars (url : Url) : List Char :=
  let before := match url.authority with
    | some a => '/' :: '/' :: Authority.chars a
    | none => if url.path.take 2 = ['/', '/'] then ['/', '.'] else []
  let mark := fun (c : Char) (part : Option (List Char)) =>
    match part with
    | some cs => c :: cs
    | none => []
  url.scheme ++ ':' :: (before ++ url.path ++ mark '?' url.query ++ mark '#' url.fragment)

def text (url : Url) : String :=
  String.ofList url.chars

/-- The host, if there is one. -/
def host? (url : Url) : Option (List Char) :=
  (url.authority.map Authority.host).filter fun host => !host.isEmpty

/-- The names and values of a query. -/
def parameters (url : Url) : List (String × String) :=
  (((url.query.getD []).splitOn '&').filter fun part => !part.isEmpty).map fun part =>
    let (name, value) := splitMark '=' part
    (Percent.decodeForm name, Percent.decodeForm (value.getD []))

end Url

end RecordQuery
