/-
The registry of types.

A type declares its readable fields and its constructors; each constructor
parameter names the field it initialises, or none.  Types are numbered in the
order of their registration, and a refused registration leaves the registry as
it was.  The fields that parameters name are not looked up here: a parameter
naming a field that does not exist is an error of the clause that uses it.
-/
import Destructure.Repeats
import Destructure.Value

namespace Destructure

/-- A constructor parameter and the field it initialises, if it is known to
initialise one. -/
structure Param where
  name : String
  field? : Option String
deriving DecidableEq, Repr

namespace Param

def mapped (field : String) : Param := ⟨field, some field⟩

def mappedAs (name field : String) : Param := ⟨name, some field⟩

def unmapped (name : String) : Param := ⟨name, none⟩

end Param

structure Constructor where
  params : List Param
deriving DecidableEq, Repr

def Constructor.arity (c : Constructor) : Nat := c.params.length

/-- The declaration of a type. -/
structure TypeDecl where
  name : String
  fields : List String
  constructors : List Constructor
deriving DecidableEq, Repr

namespace TypeDecl

/-- The position of a field in the order of declaration. -/
def fieldIndex? (d : TypeDecl) (field : String) : Option Nat := d.fields.idxOf? field

def constructor? (d : TypeDecl) (arity : Nat) : Option Constructor :=
  d.constructors.find? (·.arity == arity)

end TypeDecl

inductive RegistryError where
  | duplicateType (name : String)
  | duplicateField (typeName field : String)
  | duplicateConstructor (typeName : String) (arity : Nat)
  | unknownType (type : TypeId)
  | fieldCountMismatch (typeName : String) (expected got : Nat)
deriving DecidableEq, Repr

def RegistryError.message : RegistryError → String
  | duplicateType name => s!"type `{name}` is already registered"
  | duplicateField typeName field => s!"type `{typeName}` declares field `{field}` twice"
  | duplicateConstructor typeName arity =>
    s!"type `{typeName}` declares two constructors taking {arity} parameters"
  | unknownType type => s!"type {type.text} is not registered"
  | fieldCountMismatch typeName expected got =>
    s!"type `{typeName}` has {expected} fields, got {got} values"

/-- The check of a declaration by itself: no field may repeat, and no two constructors may
take equally many parameters.  The first of these to fail is reported. -/
def TypeDecl.validate (d : TypeDecl) : Except RegistryError Unit :=
  match firstRepeated d.fields, firstRepeated (d.constructors.map Constructor.arity) with
  | some field, _ => .error (.duplicateField d.name field)
  | none, some arity => .error (.duplicateConstructor d.name arity)
  | none, none => .ok ()

/-- The registered types, in order of registration. -/
structure Registry where
  types : List TypeDecl
deriving DecidableEq, Repr

namespace Registry

def empty : Registry := ⟨[]⟩

def size (r : Registry) : Nat := r.types.length

def isEmpty (r : Registry) : Bool := r.types.isEmpty

def get? (r : Registry) (t : TypeId) : Option TypeDecl := r.types[t.index]?

/-- The type registered under a name. -/
def find? (r : Registry) (name : String) : Option TypeId :=
  (r.types.findIdx? (·.name == name)).map TypeId.mk

/-- Add a type under the next number.  A taken name is reported before what is wrong with
the declaration itself. -/
def register (r : Registry) (d : TypeDecl) : Except RegistryError (TypeId × Registry) :=
  if r.types.any (·.name == d.name) then
    .error (.duplicateType d.name)
  else
    match d.validate with
    | .error e => .error e
    | .ok () => .ok (⟨r.size⟩, ⟨r.types ++ [d]⟩)

/-- Make an instance from the values of all fields in order of declaration. -/
def instantiate (r : Registry) (t : TypeId) (fields : List Value) : Except RegistryError Value :=
  match r.get? t with
  | none => .error (.unknownType t)
  | some d =>
    if fields.length = d.fields.length then
      .ok (.object t d.name fields)
    else
      .error (.fieldCountMismatch d.name d.fields.length fields.length)

/-- An instance holds the given values under the registered name of its type. -/
theorem instantiate_eq_ok_iff {r : Registry} {t : TypeId} {fields : List Value} {o : Value} :
    r.instantiate t fields = .ok o ↔
      ∃ d, r.get? t = some d ∧ fields.length = d.fields.length ∧ o = .object t d.name fields := by
  cases hd : r.get? t with
  | none => simp [instantiate, hd]
  | some d =>
    by_cases hcount : fields.length = d.fields.length
    · simp [instantiate, hd, hcount, eq_comm]
    · simp [instantiate, hd, hcount]

end Registry
end Destructure
