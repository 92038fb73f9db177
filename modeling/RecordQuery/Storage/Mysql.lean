/-
Values in MySQL. Texts and octets are sent alike, so octets that happen to
be a text are read as one. Dates and times are read as the texts that
stand for them in statements.
-/
import RecordQuery.Error

namespace RecordQuery

/-- A day with the time on it; zeros where nothing is known. -/
structure MysqlDate where
  year : Nat
  month : Nat
  day : Nat
  hour : Nat
  minute : Nat
  second : Nat
  micros : Nat
deriving DecidableEq, Repr

/-- A length of time, in either direction. -/
structure MysqlTime where
  negative : Bool
  days : Nat
  hours : Nat
  minutes : Nat
  seconds : Nat
  micros : Nat
deriving DecidableEq, Repr

/-- A value as it is sent and received. -/
inductive MysqlValue where
  | null
  | int (n : Int64)
  | uint (n : UInt64)
  /-- A number of 32 bits, by its bits. -/
  | float (bits : UInt32)
  | double (x : Binary64)
  | bytes (octets : Octets)
  | date (d : MysqlDate)
  | time (t : MysqlTime)
deriving DecidableEq, Repr

-- ======================================================= dates and times

/-- A number with zeros before it up to a width. -/
def padded (width n : Nat) : String :=
  let digits := Nat.toDigits 10 n
  String.ofList (List.replicate (width - digits.length) '0' ++ digits)

/-- Hours, minutes and seconds, and the fraction of a second if there is
one. -/
def clockText (hourWidth hours minutes seconds micros : Nat) : String :=
  s!"{padded hourWidth hours}:{padded 2 minutes}:{padded 2 seconds}" ++
    if micros = 0 then "" else "." ++ padded 6 micros

/-- A day, and the time on it unless that is midnight. -/
def MysqlDate.text (d : MysqlDate) : String :=
  s!"{padded 4 d.year}-{padded 2 d.month}-{padded 2 d.day}" ++
    if d.hour = 0 ∧ d.minute = 0 ∧ d.second = 0 ∧ d.micros = 0 then ""
    else " " ++ clockText 2 d.hour d.minute d.second d.micros

/-- A length of time, with its days as hours. -/
def MysqlTime.text (t : MysqlTime) : String :=
  (if t.negative then "-" else "") ++
    clockText 3 (24 * t.days + t.hours) t.minutes t.seconds t.micros

-- ====================================================== there and back

namespace MysqlValue

/-- The form in which a value is bound as a parameter. -/
def bind : Value → MysqlValue
  | .null => null
  | .bool b => int (if b then 1 else 0)
  | .int32 n => int (Int64.ofInt n.toInt)
  | .int64 n => int n
  | .float x => double x
  | .text s => bytes (Utf8.encode s)
  | .bytes octets => bytes octets
  | .uuid id => bytes (Utf8.encode id.text)

/-- The value of a column that was read. An unsigned number may be out of
the range of values. -/
def read : MysqlValue → Except Fault Value
  | null => .ok .null
  | int n => .ok (.int64 n)
  | uint n =>
    if n.toNat < Nat.pow 2 63 then .ok (.int64 (Int64.ofInt n.toNat))
    else .error (.conversion ⟨.text (toString n.toNat), "i64"⟩)
  | float bits => .ok (.float (Binary64.ofBinary32Bits bits))
  | double x => .ok (.float x)
  | bytes octets =>
    match Utf8.decode? octets with
    | some s => .ok (.text s)
    | none => .ok (.bytes octets)
  | date d => .ok (.text d.text)
  | time t => .ok (.text t.text)

end MysqlValue

end RecordQuery
