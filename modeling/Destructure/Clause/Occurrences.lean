/-
Where the variables of a shape occur.

The wildcards are listed in order of traversal, each with the path to the position
it stands for.  Constructor arguments stand for the fields they initialise, so the
paths depend on the registry; where it has no such field there is no position, and
the wildcards below are left out.
-/
import Destructure.Clause
import Destructure.Guard
import Destructure.Registry.Lookup

namespace Destructure
namespace Shape

mutual

/-- The occurrences of variables in a shape that stands at the path. -/
def occurrences (r : Registry) (p : Path) : Shape → List (String × Path)
  | var x => [(x, p)]
  | sequence _ items => occurrencesItems r p 0 items
  | map entries => occurrencesEntries r p entries
  | construct t args => occurrencesArgs r p t args.length 0 args
  | constructWith t args fields =>
    occurrencesArgs r p t args.length 0 args ++ occurrencesFields r p t fields
  | _ => []
termination_by structural s => s

def occurrencesItems (r : Registry) (p : Path) (i : Nat) : List Shape → List (String × Path)
  | [] => []
  | s :: ss => occurrences r (p.child (.item i)) s ++ occurrencesItems r p (i + 1) ss
termination_by structural ss => ss

def occurrencesEntries (r : Registry) (p : Path) : List (String × Shape) → List (String × Path)
  | [] => []
  | (key, s) :: ss => occurrences r (p.child (.key key)) s ++ occurrencesEntries r p ss
termination_by structural ss => ss

def occurrencesArgs (r : Registry) (p : Path) (t : TypeId) (arity i : Nat) :
    List Shape → List (String × Path)
  | [] => []
  | s :: ss =>
    (match r.argField t arity i with
      | .error _ => []
      | .ok f => occurrences r (p.child f.step) s) ++ occurrencesArgs r p t arity (i + 1) ss
termination_by structural ss => ss

def occurrencesFields (r : Registry) (p : Path) (t : TypeId) :
    List (String × Shape) → List (String × Path)
  | [] => []
  | (name, s) :: ss =>
    (match r.field t name with
      | .error _ => []
      | .ok f => occurrences r (p.child f.step) s) ++ occurrencesFields r p t ss
termination_by structural ss => ss

end

end Shape

/-- The occurrences of the variables of a clause, from the whole value. -/
def Clause.occurrences (c : Clause) (r : Registry) : List (String × Path) :=
  c.shape.occurrences r Path.root

/-- An occurrence of a variable that occurred before, with the path where that was first. -/
structure Repetition where
  name : String
  first : Path
  path : Path
deriving DecidableEq, Repr

/-- The two paths that a guard compares, the first occurrence of a variable in front. -/
def Guard.comparison? : Guard → Option (Path × Path)
  | sameValue first second => some (first, second)
  | _ => none

/-- Of the occurrences those whose variable is among the ones in front, in order. -/
def repetitions (occurrences : List (String × Path)) : List Repetition :=
  occurrences.zipIdx.filterMap fun (e, i) =>
    ((occurrences.take i).lookup e.1).map fun first => ⟨e.1, first, e.2⟩

end Destructure
