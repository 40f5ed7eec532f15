/-
Errors of clauses.

All of them are found while a clause is compiled, before any value is matched.
-/
import Destructure.Tag

namespace Destructure

/-- What makes a shape, or a declared parameter type, one that cannot be compiled. -/
inductive ShapeFault where
  | noConstructor (typeName : String) (arity : Nat)
  | argumentOutOfRange (typeName : String) (arity index : Nat)
  | repeatedField (name : String)
  | repeatedKey (key : String)
  /-- A sequence has more elements than there are indices. -/
  | sequenceTooLong
  /-- The declared type of a parameter and the one its body takes have no value in
  common. -/
  | tagClash (param : String) (declared body : Tag)
deriving DecidableEq, Repr

def ShapeFault.message : ShapeFault → String
  | noConstructor typeName arity =>
    s!"type `{typeName}` has no constructor taking {arity} arguments"
  | argumentOutOfRange typeName arity index =>
    s!"argument {index} is out of range for `{typeName}`'s {arity}-argument constructor"
  | repeatedField name => s!"field `{name}` appears twice"
  | repeatedKey key => s!"key `{key}` appears twice"
  | sequenceTooLong => "sequence shape is too long"
  | tagClash param declared body =>
    s!"parameter `{param}` is declared as {declared.text} but the body takes {body.text}"

inductive ClauseError where
  | unsupported (fault : ShapeFault)
  | tooDeep (limit : Nat)
  | missingMapping (typeName : String) (index : Nat) (param : String)
  | unknownField (typeName field : String)
  | unknownType (type : TypeId)
  | unboundParam (name : String)
  | undeclaredVariable (name : String)
  | repeatedParam (name : String)
  | arityMismatch (declared body : Nat)
deriving DecidableEq, Repr

def ClauseError.message : ClauseError → String
  | unsupported fault => "unsupported shape: " ++ fault.message
  | tooDeep limit => s!"shape nesting exceeds the limit of {limit}"
  | missingMapping typeName index param =>
    s!"parameter {index} (`{param}`) of `{typeName}`'s constructor carries no field mapping"
  | unknownField typeName field => s!"type `{typeName}` has no readable field `{field}`"
  | unknownType type => s!"type {type.text} is not registered"
  | unboundParam name => s!"clause parameter `{name}` is never bound by its shape"
  | undeclaredVariable name => s!"variable `{name}` is not a declared clause parameter"
  | repeatedParam name => s!"clause declares parameter `{name}` twice"
  | arityMismatch declared body =>
    s!"clause declares {declared} parameters but its body takes {body}"

end Destructure
