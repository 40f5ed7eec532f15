/-
Plans: what is left of a clause once it is compiled.

A plan has forgotten its shape.  It accepts a value when every guard holds, and it
reads the parameters of the clause along their paths.  The two are independent of
each other: reading asks nothing of the guards.
-/
import Destructure.Guard

namespace Destructure

structure Plan where
  /-- The conditions, in the order they are checked. -/
  guards : List Guard
  /-- Where each parameter is read, in the order the body takes them. -/
  bindings : List (String × Path)

namespace Plan

/-- Whether the value has the shape of the clause. -/
def accepts (p : Plan) (v : Value) : Bool := p.guards.all (·.test v)

theorem accepts_eq_all_holds (p : Plan) (v : Value) :
    p.accepts v = p.guards.all (·.holds v) := by
  simp [accepts]

/-- The part of the value that a parameter stands for, if there is one. -/
def part? (p : Plan) (name : String) (v : Value) : Option Value :=
  (p.bindings.lookup name).bind (·.resolve v)

/-- The parts of the value that the parameters stand for, or the first bound path that
leads nowhere. -/
def parts (p : Plan) (v : Value) : Except Path (List Value) :=
  Path.resolveAll v (p.bindings.map (·.2))

end Plan
end Destructure
