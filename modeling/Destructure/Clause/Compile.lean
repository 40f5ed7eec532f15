/-
Compiling a clause.

The parameters are checked first, then the depth of the shape against the limit,
and last the shape is turned into demands and the demands are settled.  Settling
binds every variable at its first occurrence, where its tag is checked, and turns
every further occurrence into a comparison with the first.
-/
import Destructure.Arm
import Destructure.Clause.Bindings
import Destructure.Clause.Demand
import Destructure.Clause.Params

namespace Destructure

/-- The nesting depth that shapes may have unless another limit is set. -/
def defaultDepthLimit : Nat := 64

/-! ## Settling demands -/

/-- The check on the first occurrence of a variable.  A tag that admits everything
needs none. -/
def tagGuards (tag : Tag) (p : Path) : List Guard :=
  if tag = .any then [] else [.typeIs p tag]

/-- The guards of a list of demands and the bindings after it, from the bindings
before it. -/
def settle (tags : List (String × Tag)) : Bindings → List Demand → List Guard × Bindings
  | b, [] => ([], b)
  | b, .guard g :: ds =>
    let rest := settle tags b ds
    (g :: rest.1, rest.2)
  | b, .occurs x p :: ds =>
    match b.bind x p with
    | (.fresh, b') =>
      let rest := settle tags b' ds
      (tagGuards ((tags.lookup x).getD .any) p ++ rest.1, rest.2)
    | (.repeated first, b') =>
      let rest := settle tags b' ds
      (.sameValue first p :: rest.1, rest.2)

/-- The path of each parameter, in order. -/
def Bindings.forParams (b : Bindings) : List String → Except ClauseError (List (String × Path))
  | [] => .ok []
  | name :: rest =>
    match b.find? name with
    | none => .error (.unboundParam name)
    | some p => (b.forParams rest).map ((name, p) :: ·)

namespace Clause

/-- The plan of a clause whose parameters have the given tags. -/
def plan (c : Clause) (r : Registry) (tags : List (String × Tag)) : Except ClauseError Plan :=
  match c.shape.demands r c.params Path.root with
  | .error e => .error e
  | .ok ds =>
    let settled := settle tags Bindings.empty ds
    (settled.2.forParams c.params).map fun bindings => ⟨settled.1, bindings⟩

/-- Compile a clause for a body that takes the given tags, against the types of a
registry and under a limit on the depth of shapes. -/
def compilePlan (c : Clause) (r : Registry) (limit : Nat) (tags : List Tag) :
    Except ClauseError Plan :=
  match c.checkParams tags with
  | .error e => .error e
  | .ok tags => if limit < c.shape.depth then .error (.tooDeep limit) else c.plan r tags

/-- Compile a clause with its body.  Of the body only the tags of its parameters
matter. -/
def compile {α : Type} (c : Clause) (r : Registry) (limit : Nat) (body : Body α) :
    Except ClauseError (Arm α) :=
  (c.compilePlan r limit body.tags).map fun plan => ⟨plan, body⟩

end Clause
end Destructure
