/-
Equality of shapes.

Shapes are the same when they are built alike from the same parts.  Literals are
compared as values, so a shape holding a NaN literal is not the same as itself.
-/
import Destructure.Shape
import Destructure.Value.Equality

namespace Destructure
namespace Shape

mutual

def same : Shape → Shape → Bool
  | discard, discard => true
  | literal v, literal w => v.same w
  | var x, var y => x == y
  | sequence k a, sequence l b => k == l && sameItems a b
  | map a, map b => sameEntries a b
  | construct t a, construct u b => t == u && sameItems a b
  | constructWith t a f, constructWith u b g => t == u && sameItems a b && sameEntries f g
  | _, _ => false
termination_by structural s => s

def sameItems : List Shape → List Shape → Bool
  | [], [] => true
  | s :: ss, t :: ts => same s t && sameItems ss ts
  | _, _ => false
termination_by structural ss => ss

/-- Equal names and the same shapes, position by position. -/
def sameEntries : List (String × Shape) → List (String × Shape) → Bool
  | [], [] => true
  | (k, s) :: ss, (l, t) :: ts => k == l && same s t && sameEntries ss ts
  | _, _ => false
termination_by structural ss => ss

end

end Shape
end Destructure
