/-
Values that agree with a registry.

An instance says which type it is of, but the registry that made it need not be
the one at hand, which may declare another number of fields for that type or not
know it at all.  A value conforms to a registry when no instance inside it
disagrees on the number of fields; instances of unknown types cannot.
-/
import Destructure.Registry

namespace Destructure
namespace Registry

/-- Whether an instance of the type may have so many fields. -/
def allowsCount (r : Registry) (t : TypeId) (count : Nat) : Bool :=
  match r.get? t with
  | none => true
  | some d => count == d.fields.length

mutual

/-- Whether every instance inside the value has as many fields as its type
declares, where the registry knows the type. -/
def conforms (r : Registry) : Value → Bool
  | .array items => r.conformsItems items
  | .list items => r.conformsItems items
  | .map entries => r.conformsEntries entries
  | .object t _ fields => r.allowsCount t fields.length && r.conformsItems fields
  | _ => true
termination_by structural v => v

def conformsItems (r : Registry) : List Value → Bool
  | [] => true
  | v :: vs => r.conforms v && r.conformsItems vs
termination_by structural vs => vs

def conformsEntries (r : Registry) : List (String × Value) → Bool
  | [] => true
  | (_, v) :: vs => r.conforms v && r.conformsEntries vs
termination_by structural vs => vs

end

end Registry
end Destructure
