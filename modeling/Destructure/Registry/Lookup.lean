/-
Looking up fields for a clause.

A clause names fields directly or by the position of a constructor argument.
Both lead to a field's position in the order of declaration, and a lookup that
fails is an error of the clause.
-/
import Destructure.Clause.Error
import Destructure.Path
import Destructure.Registry

namespace Destructure

/-- A declared field and its position.  Positions need no limit as the indices of elements
do: registering a type compares every two of its fields, so there is none with as many
fields as 32 bits can count. -/
structure Field where
  index : Nat
  name : String
deriving DecidableEq, Repr

/-- The step that reads the field. -/
def Field.step (f : Field) : Step := .field f.index f.name

namespace Registry

def typeDecl (r : Registry) (t : TypeId) : Except ClauseError TypeDecl :=
  match r.get? t with
  | some d => .ok d
  | none => .error (.unknownType t)

/-- The constructor of a type that takes so many arguments. -/
def constructor (r : Registry) (t : TypeId) (arity : Nat) : Except ClauseError Constructor :=
  match r.typeDecl t with
  | .error e => .error e
  | .ok d =>
    match d.constructor? arity with
    | some c => .ok c
    | none => .error (.unsupported (.noConstructor d.name arity))

/-- A field of a type by its name. -/
def field (r : Registry) (t : TypeId) (name : String) : Except ClauseError Field :=
  match r.typeDecl t with
  | .error e => .error e
  | .ok d =>
    match d.fieldIndex? name with
    | some i => .ok ⟨i, name⟩
    | none => .error (.unknownField d.name name)

/-- The field that an argument of a constructor initialises, the constructor given by
its arity. -/
def argField (r : Registry) (t : TypeId) (arity index : Nat) : Except ClauseError Field :=
  match r.typeDecl t, r.constructor t arity with
  | .error e, _ => .error e
  | _, .error e => .error e
  | .ok d, .ok c =>
    match c.params[index]? with
    | none => .error (.unsupported (.argumentOutOfRange d.name arity index))
    | some ⟨param, none⟩ => .error (.missingMapping d.name index param)
    | some ⟨_, some name⟩ => r.field t name

end Registry
end Destructure
