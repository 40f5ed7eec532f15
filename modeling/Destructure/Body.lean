/-
Typed bodies.

A body is a function of typed arguments.  Its signature lists, for each argument,
the type it is taken in; the type says which values can be taken so and how.
Running a body on values converts them from left to right and stops at the first
that cannot be taken, in which case the body does not run.
-/
import Destructure.Path
import Destructure.Tag

namespace Destructure

/-- A type that a body may take an argument in. -/
inductive ArgType where
  /-- Any value, as it is. -/
  | value
  | int
  | float
  | bool
  | char
  | str
  /-- An instance of any type. -/
  | object
  /-- The elements of an array or a list. -/
  | items
  /-- The entries of a map. -/
  | entries
deriving DecidableEq, Repr

namespace ArgType

/-- The values that can be taken in this type. -/
def tag : ArgType → Tag
  | value => .any
  | int => .int
  | float => .float
  | bool => .bool
  | char => .char
  | str => .str
  | object => .anyObject
  | items => .sequence
  | entries => .map

/-- What the body receives. -/
@[reducible] def Carrier : ArgType → Type
  | value => Value
  | int => Int64
  | float => Binary64
  | bool => Bool
  | char => Char
  | str => String
  | object => Instance
  | items => List Value
  | entries => List (String × Value)

/-- Take a value in this type. -/
def read? : (t : ArgType) → Value → Option t.Carrier
  | value, v => some v
  | int, v => v.int?
  | float, v => v.float?
  | bool, v => v.bool?
  | char, v => v.char?
  | str, v => v.str?
  | object, v => v.instance?
  | items, v => v.items?
  | entries, v => v.entries?

end ArgType

/-- Why the arguments of a body could not be had from a value. -/
inductive ExtractError where
  /-- There are fewer values than arguments. -/
  | missing (expected : Tag)
  | mismatch (expected : Tag) (found : String)
  /-- A bound path leads nowhere. -/
  | noValueAt (path : Path)
deriving DecidableEq, Repr

def ExtractError.message : ExtractError → String
  | missing expected => s!"expected a value of type {expected.text}, found nothing"
  | mismatch expected found => s!"expected a value of type {expected.text}, found {found}"
  | noValueAt path => s!"nothing to extract at {path.text}"

abbrev Signature := List ArgType

/-- Arguments for a signature. -/
inductive Args : Signature → Type where
  | nil : Args []
  | cons {t : ArgType} {ts : Signature} (head : t.Carrier) (tail : Args ts) : Args (t :: ts)

namespace Args

/-- The arguments in order, each with the type it was taken in. -/
def toList {ts : Signature} : Args ts → List ((t : ArgType) × t.Carrier)
  | nil => []
  | cons (t := t) x xs => ⟨t, x⟩ :: xs.toList

/-- Take the leading values as arguments; surplus values are left over. -/
def ofValues : (ts : Signature) → List Value → Except ExtractError (Args ts)
  | [], _ => .ok nil
  | t :: _, [] => .error (.missing t.tag)
  | t :: ts, v :: vs =>
    match t.read? v with
    | none => .error (.mismatch t.tag v.typeName)
    | some x => (ofValues ts vs).map (cons x)

end Args

/-- A function of typed arguments, with a label to know it by. -/
structure Body (α : Type) where
  label : String
  signature : Signature
  run : Args signature → α

/-- One run of a body or a fallback: which one ran, and its answer. -/
structure Call (α : Type) where
  label : String
  answer : α
deriving DecidableEq, Repr

namespace Body

variable {α : Type}

def tags (b : Body α) : List Tag := b.signature.map ArgType.tag

/-- Run the body on values. -/
def invoke (b : Body α) (values : List Value) : Except ExtractError (Call α) :=
  (Args.ofValues b.signature values).map fun args => ⟨b.label, b.run args⟩

end Body
end Destructure
