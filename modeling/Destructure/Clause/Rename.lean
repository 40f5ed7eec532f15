/-
Renaming the variables of a clause.

A variable is named among the parameters, in the declared types and at the wildcards of the
shape, and nowhere else.  What a clause compiles to, or is rejected with, names variables
only in its bindings and in some of the errors, and these are renamed along with it.
-/
import Destructure.Clause
import Destructure.Clause.Error
import Destructure.Plan

namespace Destructure

/-- The entries under new names. -/
def renameKeys {β : Type} (σ : String → String) (entries : List (String × β)) :
    List (String × β) :=
  entries.map fun e => (σ e.1, e.2)

namespace Shape

mutual

def rename (σ : String → String) : Shape → Shape
  | discard => discard
  | literal v => literal v
  | var x => var (σ x)
  | sequence kind items => sequence kind (renameItems σ items)
  | map entries => map (renameEntries σ entries)
  | construct t args => construct t (renameItems σ args)
  | constructWith t args fields => constructWith t (renameItems σ args) (renameEntries σ fields)
termination_by structural s => s

def renameItems (σ : String → String) : List Shape → List Shape
  | [] => []
  | s :: ss => rename σ s :: renameItems σ ss
termination_by structural ss => ss

/-- The keys of a map and the names of fields are no variables and stay. -/
def renameEntries (σ : String → String) : List (String × Shape) → List (String × Shape)
  | [] => []
  | (key, s) :: ss => (key, rename σ s) :: renameEntries σ ss
termination_by structural ss => ss

end

end Shape

namespace Clause

def rename (σ : String → String) (c : Clause) : Clause :=
  ⟨c.params.map σ, renameKeys σ c.types, c.shape.rename σ⟩

/-- The names of variables that the clause mentions. -/
def names (c : Clause) : List String := c.params ++ c.types.map (·.1) ++ c.shape.mentions

end Clause

def Plan.rename (σ : String → String) (p : Plan) : Plan :=
  ⟨p.guards, renameKeys σ p.bindings⟩

def ShapeFault.rename (σ : String → String) : ShapeFault → ShapeFault
  | tagClash param declared body => tagClash (σ param) declared body
  | fault => fault

def ClauseError.rename (σ : String → String) : ClauseError → ClauseError
  | unsupported fault => unsupported (fault.rename σ)
  | unboundParam x => unboundParam (σ x)
  | undeclaredVariable x => undeclaredVariable (σ x)
  | repeatedParam x => repeatedParam (σ x)
  | e => e

end Destructure
