/-
What can be wrong with a clause.

An error names one thing that is wrong, with the names and numbers that belong to it.
Here each of them is said of the clause itself, so that it can be checked without
compiling: the error is true of the clause, or of some node of its shape.  Nothing is
said of an argument out of range, which no clause can have, because a constructor is
chosen by the number of its arguments.
-/
import Destructure.Clause.Error
import Destructure.Clause.WellFormed

namespace Destructure

namespace Shape

/-- The node constructs an instance of the type from these positional arguments. -/
inductive Builds (t : TypeId) (args : List Shape) : Shape → Prop
  | construct : Builds t args (.construct t args)
  | constructWith (fields : List (String × Shape)) : Builds t args (.constructWith t args fields)

/-- The node has an argument at position `i`, not a discarded one, for this parameter of a
constructor of the type. -/
def Passes (r : Registry) (node : Shape) (d : TypeDecl) (i : Nat) (param : Param) : Prop :=
  ∃ t args ctor s, node.Builds t args ∧ r.get? t = some d ∧ ctor ∈ d.constructors ∧
    ctor.arity = args.length ∧ ctor.params[i]? = some param ∧ args[i]? = some s ∧ s ≠ .discard

/-- The error is true of the node. -/
inductive Faulty (r : Registry) (declared : List String) : ClauseError → Shape → Prop
  | undeclaredVariable {x} (undeclared : x ∉ declared) :
      Faulty r declared (.undeclaredVariable x) (.var x)
  | sequenceTooLong {kind items} (long : Step.itemLimit < items.length) :
      Faulty r declared (.unsupported .sequenceTooLong) (.sequence kind items)
  | repeatedKey {entries key} (twice : 1 < (entries.map (·.1)).count key) :
      Faulty r declared (.unsupported (.repeatedKey key)) (.map entries)
  | repeatedField {t args fields name} (twice : 1 < (fields.map (·.1)).count name) :
      Faulty r declared (.unsupported (.repeatedField name)) (.constructWith t args fields)
  | unknownType {node t args} (built : Builds t args node) (unregistered : r.get? t = none) :
      Faulty r declared (.unknownType t) node
  | noConstructor {node t args d} (built : Builds t args node) (registered : r.get? t = some d)
      (other : ∀ ctor ∈ d.constructors, ctor.arity ≠ args.length) :
      Faulty r declared (.unsupported (.noConstructor d.name args.length)) node
  | missingMapping {node d i name} (passed : Passes r node d i ⟨name, none⟩) :
      Faulty r declared (.missingMapping d.name i name) node
  | unknownArgument {node d i param name} (passed : Passes r node d i ⟨param, some name⟩)
      (undeclared : name ∉ d.fields) : Faulty r declared (.unknownField d.name name) node
  | unknownField {t args fields d name} (registered : r.get? t = some d)
      (named : name ∈ fields.map (·.1)) (undeclared : name ∉ d.fields) :
      Faulty r declared (.unknownField d.name name) (.constructWith t args fields)

end Shape

/-- The error is true of the clause, for a body that takes the given tags. -/
inductive Clause.Faulty (c : Clause) (r : Registry) (limit : Nat) (tags : List Tag) :
    ClauseError → Prop
  | repeatedParam {x} (twice : 1 < c.params.count x) : Faulty c r limit tags (.repeatedParam x)
  | arityMismatch (other : c.params.length ≠ tags.length) :
      Faulty c r limit tags (.arityMismatch c.params.length tags.length)
  | undeclaredType {x} (typed : x ∈ c.types.map (·.1)) (undeclared : x ∉ c.params) :
      Faulty c r limit tags (.undeclaredVariable x)
  | tagClash {x declared body} (given : (x, body) ∈ c.params.zip tags)
      (typed : c.type? x = some declared) (apart : declared.narrow body = none) :
      Faulty c r limit tags (.unsupported (.tagClash x declared body))
  | tooDeep (deep : limit < c.shape.depth) : Faulty c r limit tags (.tooDeep limit)
  | unboundParam {x} (listed : x ∈ c.params) (unmentioned : x ∉ c.shape.mentions) :
      Faulty c r limit tags (.unboundParam x)
  | node {e} {s : Shape} (inside : s.Inside c.shape) (faulty : s.Faulty r c.params e) :
      Faulty c r limit tags e

end Destructure
