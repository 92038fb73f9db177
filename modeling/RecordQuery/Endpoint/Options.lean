/-
Options of connections to MySQL, given in the query of a URL. They are
checked one after the other; how large the pool of connections may get is
checked when all are known.
-/
import RecordQuery.Text.Utf8

namespace RecordQuery

/-- What the value of an option has to be. -/
inductive OptionKind where
  /-- A number in so many bits. -/
  | number (bits : Nat)
  | truth
  | text
  /-- A word, or a level of one digit. -/
  | compression
deriving DecidableEq, Repr

/-- Why options are not accepted. -/
inductive OptionFault where
  | unknown (name : String)
  | value (name given : String)
  | pool (least most : Nat)
deriving DecidableEq, Repr

def OptionFault.message : OptionFault → String
  | unknown name => s!"Unknown connection URL parameter `{name}'"
  | value name given => s!"Invalid value `{given}' for connection URL parameter `{name}'"
  | pool least most =>
    s!"Invalid pool constraints: pool_min ({least}) > pool_max ({most})"

namespace OptionKind

/-- The kind of an option, if there is one of that name. -/
def ofName? (name : String) : Option OptionKind :=
  let sizes := ["pool_min", "pool_max", "inactive_connection_ttl", "ttl_check_interval",
    "conn_ttl", "abs_conn_ttl", "abs_conn_ttl_jitter", "max_allowed_packet", "wait_timeout",
    "stmt_cache_size"]
  let switches := ["enable_cleartext_plugin", "reset_connection", "tcp_nodelay", "prefer_socket",
    "secure_auth", "client_found_rows", "require_ssl", "verify_ca", "verify_identity",
    "built_in_roots"]
  if sizes.contains name then some (number 64)
  else if name = "tcp_keepalive" then some (number 32)
  else if switches.contains name then some truth
  else if name = "socket" then some text
  else if name = "compression" then some compression
  else none

/-- The number of a text of digits, with or without a plus sign before
them. -/
def number? (text : String) : Option Nat :=
  let digits := match text.toList with
    | '+' :: rest => rest
    | cs => cs
  if digits.isEmpty || !digits.all Char.isDigit then none
  else some (digits.foldl (fun n c => 10 * n + (c.toNat - '0'.toNat)) 0)

/-- Whether a value is of a kind. -/
def accepts : OptionKind → String → Bool
  | number bits, value => (number? value).any (· < Nat.pow 2 bits)
  | truth, value => value = "true" || value = "false"
  | text, _ => true
  | compression, value =>
    ["fast", "on", "true", "best"].contains value ||
      match value.toList with
      | [c] => c.isDigit
      | _ => false

end OptionKind

/-- The bounds of a pool of connections. -/
structure PoolBounds where
  least : Nat := 10
  most : Nat := 100

/-- The bounds of the pool once options have been checked. -/
def PoolBounds.ofOptions (bounds : PoolBounds) :
    List (String × String) → Except OptionFault PoolBounds
  | [] =>
    if bounds.least ≤ bounds.most ∧ 0 < bounds.most then .ok bounds
    else .error (.pool bounds.least bounds.most)
  | (name, value) :: rest =>
    match OptionKind.ofName? name with
    | none => .error (.unknown name)
    | some kind =>
      if kind.accepts value then
        let n := (OptionKind.number? value).getD 0
        ofOptions
          (if name = "pool_min" then { bounds with least := n }
            else if name = "pool_max" then { bounds with most := n }
            else bounds) rest
      else .error (.value name value)

end RecordQuery
