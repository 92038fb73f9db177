/-
Parameters of PostgreSQL statements, in the binary form of the type that
the server has inferred for them. Integers are fitted to the type or
refused; a floating point number is narrowed and a text is read as an
identifier where the type asks for it. Anything else is sent in its own
form, whatever the type.
-/
import RecordQuery.Number.BigEndian
import RecordQuery.Value

namespace RecordQuery

/-- The inferred type of a parameter. -/
inductive ParameterType where
  | bool
  | int2
  | int4
  | int8
  | float4
  | float8
  | text
  | bytea
  | uuid
  | numeric
  | timestamptz
deriving DecidableEq, Repr

/-- Why a value cannot be bound to a parameter. -/
inductive BindFault where
  | tooLarge
  | tooSmall
  /-- The type takes no integer. -/
  | integer (type : ParameterType)
  | identifier (fault : Uuid.Fault)
deriving DecidableEq, Repr

namespace ParameterType

def name : ParameterType → String
  | bool => "bool"
  | int2 => "int2"
  | int4 => "int4"
  | int8 => "int8"
  | float4 => "float4"
  | float8 => "float8"
  | text => "text"
  | bytea => "bytea"
  | uuid => "uuid"
  | numeric => "numeric"
  | timestamptz => "timestamptz"

/-- An integer in a width of octets, if it is in their range. -/
def fit (width : Nat) (n : Int) : Except BindFault Octets :=
  let half : Int := (Nat.pow 256 width / 2 : Nat)
  if half ≤ n then .error .tooLarge
  else if n < -half then .error .tooSmall
  else .ok (BigEndian.ofInt width n)

private def truth (b : Bool) : Octets :=
  [if b then 1 else 0]

private def double (x : Binary64) : Octets :=
  BigEndian.ofNat 8 x.bits.toNat

/-- The binary form of an integer for a type. -/
def encodeInt (type : ParameterType) (n : Int) : Except BindFault Octets :=
  match type with
  | int2 => fit 2 n
  | int4 => fit 4 n
  | int8 => fit 8 n
  | float8 => .ok (double (Binary64.ofInt n))
  | bool => .ok (truth (n ≠ 0))
  | _ => .error (.integer type)

/-- The binary form of a value for a type; none for a null. -/
def encode (type : ParameterType) : Value → Except BindFault (Option Octets)
  | .null => .ok none
  | .bool b => .ok (truth b)
  | .int32 n => (type.encodeInt n.toInt).map some
  | .int64 n => (type.encodeInt n.toInt).map some
  | .float x =>
    .ok (some (if type = float4 then BigEndian.ofNat 4 x.toBinary32Bits.toNat else double x))
  | .text s =>
    if type = uuid then
      match Uuid.parse s with
      | .ok id => .ok id.octets
      | .error fault => .error (.identifier fault)
    else .ok (Utf8.encode s)
  | .bytes octets => .ok octets
  | .uuid id => .ok (some (if type = uuid then id.octets else Utf8.encode id.text))

end ParameterType

def BindFault.message : BindFault → String
  | tooLarge => "number too large to fit in target type"
  | tooSmall => "number too small to fit in target type"
  | integer type => s!"cannot bind an integer to a `{type.name}` parameter"
  | identifier fault => fault.message

end RecordQuery
