import Destructure.Chain.History
import Destructure.Clause.Occurrences
import Destructure.Clause.Semantics
import Destructure.Clause.WellFormed
import Destructure.Clause.Rename
import Destructure.Plan.Secured
import Destructure.Registry.Conforms
import Destructure.Registry.History
import Destructure.Registry.Index
import Destructure.Shape.Equality
import Destructure.Proofs.Registry.Lookup
import Destructure.Proofs.Tag.Intersection
import Destructure.Proofs.Registry.Conforming
import Destructure.Proofs.Body.Arguments
import Destructure.Proofs.Body.Invocation
import Destructure.Proofs.Clause.Parts
import Destructure.Proofs.Clause.Compiled
import Destructure.Proofs.Clause.Agreement
import Destructure.Proofs.Clause.Secured
import Destructure.Proofs.Clause.Extraction
import Destructure.Proofs.Chain.Effect
import Destructure.Proofs.Chain.Evaluation
import Destructure.Proofs.Chain.Modes
import Destructure.Proofs.Chain.Poison
import Destructure.Proofs.Chain.Complete
import Destructure.Proofs.Chain.FirstMatch
import Destructure.Proofs.Value.Same
import Destructure.Proofs.Chain.Congruence
import Destructure.Clause.Fault
import Destructure.Proofs.Registry.Registered
import Destructure.Proofs.Registry.Fields
import Destructure.Proofs.Clause.WellFormed
import Destructure.Proofs.Clause.Faults
import Destructure.Proofs.Chain.Frozen
import Destructure.Proofs.Clause.GuardOrder
import Destructure.Proofs.Clause.Occurrences
import Destructure.Proofs.Registry.Index
import Destructure.Proofs.Binary64.Units
import Destructure.Proofs.Value.PartialEquivalence
import Destructure.Proofs.Clause.Layout
import Destructure.Proofs.Clause.Size
import Destructure.Proofs.Clause.Acceptance
import Destructure.Proofs.Clause.Alike
import Destructure.Proofs.Clause.Widening
import Destructure.Proofs.Clause.Reordering
import Destructure.Proofs.Clause.NamedConstruction
import Destructure.Proofs.Clause.Parallel
import Destructure.Proofs.Clause.Growth
import Destructure.Proofs.Clause.DeclaredTypes
import Destructure.Proofs.Chain.Rearranged
import Destructure.Proofs.Clause.Renaming
import Destructure.Proofs.Clause.Assignment
