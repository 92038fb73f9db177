/-
Methods: the functions that a request may call. A method takes a fixed
number of arguments. What a field or another call yields is known to the
database alone, so only literal arguments are checked: one in the place of
a text has to be a text.
-/
import RecordQuery.Error.Compile
import RecordQuery.Expression.Element

namespace RecordQuery

/-- What a method takes in one place. -/
inductive Arg where
  | text
  | any
deriving DecidableEq, Repr

/-- A method and what it takes. -/
structure Signature where
  name : String
  args : List Arg
deriving DecidableEq, Repr

namespace Signature

/-- Every method there is. -/
def all : List Signature :=
  [⟨"contains", [.text, .text]⟩, ⟨"starts_with", [.text, .text]⟩, ⟨"ends_with", [.text, .text]⟩,
   ⟨"lower", [.text]⟩, ⟨"upper", [.text]⟩, ⟨"length", [.text]⟩,
   ⟨"is_null", [.any]⟩, ⟨"is_not_null", [.any]⟩]

def find? (name : String) : Option Signature :=
  all.find? fun s => s.name == name

/-- Whether an element may stand where this is taken. -/
def Arg.accepts : Arg → Element → Bool
  | .text, .value v => v.isText
  | _, _ => true

/-- The first literal that may not stand in its place, with the position
counted from `position`. -/
def misfit? (position : Nat) : List Arg → List Element → Option (Nat × Value)
  | arg :: args, element :: elements =>
    match element.value? with
    | some v =>
      if Arg.accepts arg element then misfit? (position + 1) args elements else some (position, v)
    | none => misfit? (position + 1) args elements
  | _, _ => none

/-- The signature of a call, or what is wrong with the call. -/
def check (name : String) (args : List Element) : Except CompileError Signature :=
  match find? name with
  | none => .error (.unsupportedMethod name)
  | some s =>
    if args.length ≠ s.args.length then
      .error (.arityMismatch s.name s.args.length args.length)
    else
      match misfit? 0 s.args args with
      | some (position, v) => .error (.methodArgumentType name position "String" v.kind)
      | none => .ok s

end Signature

end RecordQuery
