/-
Column types: what a field of a record holds, and how it is written to a
value and read from one.

Databases hand back looser types than were stored, so reading accepts
what a type can be stored as and narrows it: an integer of either width
where it fits, zero and one for a truth value, any integer as a floating
point number, and the texts and octets of an identifier. Whatever is
written reads back as it was.
-/
import RecordQuery.Value

namespace RecordQuery

/-- The type of a column. -/
inductive ColumnType where
  | text
  | bool
  | int32
  | int64
  | float
  | bytes
  | uuid
  | optional (base : ColumnType)
deriving DecidableEq, Repr, Inhabited

/-- A value that a type cannot be read from. -/
structure Conversion where
  value : Value
  target : String
deriving DecidableEq, Repr

def Conversion.message (c : Conversion) : String :=
  s!"cannot convert {c.value.kind} to {c.target}"

namespace ColumnType

/-- What a field of the type holds. -/
@[reducible] def Carrier : ColumnType → Type
  | text => String
  | bool => Bool
  | int32 => Int32
  | int64 => Int64
  | float => Binary64
  | bytes => Octets
  | uuid => Uuid
  | optional base => Option base.Carrier

/-- The name of the type that conversion errors give; that of an optional
type is its base's. -/
def name : ColumnType → String
  | text => "String"
  | bool => "bool"
  | int32 => "i32"
  | int64 => "i64"
  | float => "f64"
  | bytes => "Vec<u8>"
  | uuid => "Uuid"
  | optional base => base.name

/-- What a field of a new record holds. -/
def blank : (t : ColumnType) → t.Carrier
  | text => ""
  | bool => false
  | int32 => (0 : Int32)
  | int64 => (0 : Int64)
  | float => Binary64.zero
  | bytes => ([] : Octets)
  | uuid => Uuid.nil
  | optional _ => none

/-- The value that a field's content is written as. -/
def store : (t : ColumnType) → t.Carrier → Value
  | text, s => .text s
  | bool, b => .bool b
  | int32, n => .int32 n
  | int64, n => .int64 n
  | float, x => .float x
  | bytes, octets => .bytes octets
  | uuid, id => .uuid id
  | optional _, none => .null
  | optional base, some x => base.store x

-- ============================================================== reading

private def bool? : Value → Option Bool
  | .bool b => some b
  | v => v.int?.bind fun n => if n = 0 then some false else if n = 1 then some true else none

private def int32? : Value → Option Int32
  | .int32 n => some n
  | .int64 n =>
    if Int32.minValue.toInt ≤ n.toInt ∧ n.toInt ≤ Int32.maxValue.toInt then
      some (Int32.ofInt n.toInt)
    else none
  | _ => none

private def int64? : Value → Option Int64
  | .int64 n => some n
  | .int32 n => some (Int64.ofInt n.toInt)
  | _ => none

private def float? : Value → Option Binary64
  | .float x => some x
  | v => v.int?.map Binary64.ofInt

private def bytes? : Value → Option Octets
  | .bytes octets => some octets
  | _ => none

private def uuid? : Value → Option Uuid
  | .uuid id => some id
  | .text s => Uuid.parse? s
  | .bytes octets => Uuid.ofOctets? octets
  | _ => none

/-- The content of a field that a value stands for, if the type can be
read from it. -/
def load? : (t : ColumnType) → Value → Option t.Carrier
  | text, v => v.text?
  | bool, v => bool? v
  | int32, v => int32? v
  | int64, v => int64? v
  | float, v => float? v
  | bytes, v => bytes? v
  | uuid, v => uuid? v
  | optional base, v => if v.isNull then some none else (base.load? v).map some

/-- The content of a field that a value stands for. -/
def load (t : ColumnType) (v : Value) : Except Conversion t.Carrier :=
  match t.load? v with
  | some x => .ok x
  | none => .error ⟨v, t.name⟩

/-- The value that a field holds once a value has been read into it. -/
def normalize (t : ColumnType) (v : Value) : Except Conversion Value :=
  (t.load v).map t.store

/-- What is read of a written content is written the same way. -/
theorem load?_store (t : ColumnType) :
    ∀ x : t.Carrier, ∃ y, t.load? (t.store x) = some y ∧ t.store y = t.store x := by
  induction t with
  | optional base ih =>
      intro x
      cases x with
      | none => exact ⟨none, rfl, rfl⟩
      | some x =>
          obtain ⟨y, hload, hstore⟩ := ih x
          have hoptional : (optional base).load? (base.store x)
              = if (base.store x).isNull then some none
                else (base.load? (base.store x)).map some := rfl
          cases hnull : (base.store x).isNull with
          | true =>
              rw [hnull, if_pos rfl] at hoptional
              exact ⟨none, hoptional, (Value.eq_null_of_isNull hnull).symm⟩
          | false =>
              rw [hnull, if_neg Bool.false_ne_true, hload] at hoptional
              exact ⟨some y, hoptional, hstore⟩
  | _ => exact fun x => ⟨x, rfl, rfl⟩

/-- A value that was written is read as it is. -/
theorem normalize_store (t : ColumnType) (x : t.Carrier) :
    t.normalize (t.store x) = .ok (t.store x) := by
  obtain ⟨y, hload, hstore⟩ := t.load?_store x
  rw [normalize, load, hload]
  exact congrArg Except.ok hstore

end ColumnType

end RecordQuery
