/-
Positions that guards make sure of.

A guard below a position is only of use once earlier guards have made sure that
the position exists.  A step is secured when the guards say that the value before
it is of the right kind and has what the step reads; a path is secured when all
its steps are.
-/
import Destructure.Guard
import Destructure.Registry

namespace Destructure

/-- The guards make sure that the step can be taken from the position `q`, on values
that conform to the registry. -/
def Step.Secured (r : Registry) (guards : List Guard) (q : Path) : Step → Prop
  | .field i _ =>
    ∃ t d, Guard.typeIs q (.object t) ∈ guards ∧ r.get? t = some d ∧ i < d.fields.length
  | .item i =>
    (Guard.typeIs q .array ∈ guards ∨ Guard.typeIs q .list ∈ guards) ∧
      ∃ n, Guard.countIs q n ∈ guards ∧ i < n
  | .key k => Guard.typeIs q .map ∈ guards ∧ Guard.hasKey q k ∈ guards

/-- Every step of the path is secured at the position before it. -/
def Path.Secured (r : Registry) (guards : List Guard) (p : Path) : Prop :=
  ∀ q s rest, p = q ++ s :: rest → Step.Secured r guards q s

/-- The paths that a guard reads. -/
def Guard.paths : Guard → List Path
  | typeIs p _ => [p]
  | countIs p _ => [p]
  | hasKey p _ => [p]
  | eqLiteral p _ => [p]
  | sameValue p q => [p, q]

/-- The guards before this one make sure of its paths, and of the kind of value it
counts or looks a key up in. -/
def Guard.SecuredBy (r : Registry) (before : List Guard) (g : Guard) : Prop :=
  (∀ p ∈ g.paths, p.Secured r before) ∧
    match g with
    | countIs p _ => Guard.typeIs p .array ∈ before ∨ Guard.typeIs p .list ∈ before
    | hasKey p _ => Guard.typeIs p .map ∈ before
    | _ => True

end Destructure
