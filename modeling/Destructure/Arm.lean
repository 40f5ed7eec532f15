/-
Arms: a plan together with the body that it feeds.
-/
import Destructure.Body
import Destructure.Plan

namespace Destructure

structure Arm (α : Type) extends Plan where
  body : Body α

namespace Arm

variable {α : Type}

/-- Run the body on the parts of the value that the parameters stand for.  This is
meant for values that the plan accepts. -/
def extract (a : Arm α) (v : Value) : Except ExtractError (Call α) :=
  match a.parts v with
  | .error p => .error (.noValueAt p)
  | .ok parts => a.body.invoke parts

end Arm
end Destructure
