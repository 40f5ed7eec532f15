/-
Registries built by registering types.

Types are registered one after another, and a refused one is passed over.  Every
registry that a program can hold comes about so from the empty one.
-/
import Destructure.Registry

namespace Destructure
namespace Registry

/-- The registry after registering types in order, refused ones left out. -/
def registerAll (r : Registry) : List TypeDecl → Registry
  | [] => r
  | d :: ds =>
    match r.register d with
    | .ok (_, r) => r.registerAll ds
    | .error _ => r.registerAll ds

/-- What each of the registrations answers. -/
def answers (r : Registry) : List TypeDecl → List (Except RegistryError TypeId)
  | [] => []
  | d :: ds =>
    match r.register d with
    | .ok (t, r) => .ok t :: r.answers ds
    | .error e => .error e :: r.answers ds

/-- The registry comes from the empty one by registering types. -/
def Reachable (r : Registry) : Prop := ∃ ds, r = empty.registerAll ds

/-- The second registry comes from the first by registering further types. -/
def GrowsTo (r r' : Registry) : Prop := ∃ ds, r' = r.registerAll ds

end Registry
end Destructure
