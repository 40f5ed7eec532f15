/-
The parameters of a clause against those of a body.

The parameters must be distinct and as many as the body takes, and types may be
declared for parameters only.  The tag of a parameter is the one that the body
takes at its position, narrowed by the declared type when there is one.
-/
import Destructure.Clause
import Destructure.Clause.Error
import Destructure.Repeats

namespace Destructure
namespace Clause

/-- The tag that values of a parameter must have, when the body takes it with the
given one. -/
def paramTag (c : Clause) (name : String) (body : Tag) : Except ClauseError Tag :=
  match c.type? name with
  | none => .ok body
  | some declared =>
    match declared.narrow body with
    | some tag => .ok tag
    | none => .error (.unsupported (.tagClash name declared body))

/-- The tags of parameters that are each given with the tag at their position in the
body. -/
def paramTags (c : Clause) : List (String × Tag) → Except ClauseError (List (String × Tag))
  | [] => .ok []
  | (name, body) :: rest =>
    match c.paramTag name body with
    | .error e => .error e
    | .ok tag => (c.paramTags rest).map ((name, tag) :: ·)

/-- Check the parameters against the tags of a body and give each its tag. -/
def checkParams (c : Clause) (tags : List Tag) : Except ClauseError (List (String × Tag)) :=
  match firstRepeated c.params with
  | some name => .error (.repeatedParam name)
  | none =>
    if tags.length ≠ c.params.length then
      .error (.arityMismatch c.params.length tags.length)
    else
      match c.types.find? (·.1 ∉ c.params) with
      | some (name, _) => .error (.undeclaredVariable name)
      | none => c.paramTags (c.params.zip tags)

end Clause
end Destructure
