/-
A registry that is searched by name.

Beside the types in order of registration stands the number of each name, so that a
lookup does not go through the declarations.  A registration writes to both, one after
the other, and `EStateM` keeps what has been written when a later step fails: that a
failed registration leaves no trace is for a proof to say.
-/
import Destructure.Registry

namespace Destructure

/-- A number fits into 32 bits. -/
def TypeId.capacity : Nat := UInt32.size

/-- A registration fails because of the declaration, or because no number is left. -/
inductive RegisterError where
  | refused (e : RegistryError)
  | tooManyTypes
deriving DecidableEq, Repr

def RegisterError.message : RegisterError → String
  | refused e => e.message
  | tooManyTypes => "registry is full"

/-- A registry with the number of each name; the newest name comes first. -/
structure IndexedRegistry extends Registry where
  numbers : List (String × TypeId)
deriving DecidableEq, Repr

namespace IndexedRegistry

def empty : IndexedRegistry := ⟨.empty, []⟩

/-- The number that is kept under a name. -/
def find? (x : IndexedRegistry) (name : String) : Option TypeId := x.numbers.lookup name

def nextNumber : EStateM RegisterError IndexedRegistry TypeId := do
  let x ← get
  if x.size < TypeId.capacity then
    return ⟨x.size⟩
  else
    throw .tooManyTypes

def insertNumber (name : String) (t : TypeId) : EStateM RegisterError IndexedRegistry Unit :=
  modify fun x => { x with numbers := (name, t) :: x.numbers }

def pushType (d : TypeDecl) : EStateM RegisterError IndexedRegistry Unit :=
  modify fun x => { x with types := x.types ++ [d] }

/-- Add a type under the next number, in the order of checks of `Registry.register`, with
the number as the last of them. -/
def register (d : TypeDecl) : EStateM RegisterError IndexedRegistry TypeId := do
  let x ← get
  if (x.find? d.name).isSome then
    throw (.refused (.duplicateType d.name))
  match d.validate with
  | .error e => throw (.refused e)
  | .ok () =>
    let t ← nextNumber
    insertNumber d.name t
    pushType d
    return t

/-- The registry after registering types in order, whichever of them fail. -/
def registerAll (x : IndexedRegistry) : List TypeDecl → IndexedRegistry
  | [] => x
  | d :: ds =>
    match (register d).run x with
    | .ok _ x | .error _ x => x.registerAll ds

/-- What each of the registrations answers. -/
def answers (x : IndexedRegistry) : List TypeDecl → List (Except RegisterError TypeId)
  | [] => []
  | d :: ds =>
    match (register d).run x with
    | .ok t x => .ok t :: x.answers ds
    | .error e x => .error e :: x.answers ds

end IndexedRegistry
end Destructure
