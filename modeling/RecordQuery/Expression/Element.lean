/-
Elements: what a request compares, tests and orders by. An element is a
literal value, the path of a field, or a named method of other elements.

A path is a text. What follows its last point names a field; the segments
before it, if there is a point, name the relations to follow on the way.
-/
import RecordQuery.Value

namespace RecordQuery

/-- A literal, a field or a method call. -/
inductive Element where
  | value (v : Value)
  | field (path : String)
  | method (name : String) (args : List Element)
deriving Repr, Inhabited, BEq

namespace Element

def isValue : Element → Bool
  | value _ => true
  | _ => false

def value? : Element → Option Value
  | value v => some v
  | _ => none

end Element

namespace FieldPath

/-- Whether a path follows any relation. -/
def isDotted (path : String) : Bool :=
  path.toList.contains '.'

/-- The segments of a path: a text without a point is one segment, and
segments may be empty. -/
def segments : List Char → List (List Char)
  | [] => [[]]
  | c :: rest =>
    if c = '.' then [] :: segments rest
    else
      match segments rest with
      | [] => [[c]]
      | first :: more => (c :: first) :: more

/-- The relations to follow, and the field at the end. -/
def split (path : String) : List String × String :=
  let parts := (segments path.toList).map String.ofList
  (parts.dropLast, parts.getLastD "")

end FieldPath

end RecordQuery
