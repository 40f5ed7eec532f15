/-
Well-formed clauses.

These are the conditions that a clause has to meet, each said of the clause alone
and not of the way it is compiled: conditions on its parameters, on the names its
shape mentions, and on every construction, named field and key in its shape.

`Addressable` stands beside them.  It is about the representation of paths: a sequence
must not have more elements than there are indices.
-/
import Destructure.Clause
import Destructure.Path
import Destructure.Registry

namespace Destructure

/-- The constructor's parameter at the position initialises a declared field. -/
def TypeDecl.Initialises (d : TypeDecl) (ctor : Constructor) (i : Nat) : Prop :=
  ∃ param name, ctor.params[i]? = some ⟨param, some name⟩ ∧ name ∈ d.fields

namespace Registry

/-- The type is registered, has a constructor for so many arguments, and every argument
that is not discarded initialises a declared field. -/
def Constructs (r : Registry) (t : TypeId) (args : List Shape) : Prop :=
  ∃ d ctor, r.get? t = some d ∧ ctor ∈ d.constructors ∧ ctor.arity = args.length ∧
    ∀ i s, args[i]? = some s → s ≠ .discard → d.Initialises ctor i

/-- The type is registered and declares all these fields. -/
def HasFields (r : Registry) (t : TypeId) (names : List String) : Prop :=
  ∃ d, r.get? t = some d ∧ ∀ name ∈ names, name ∈ d.fields

end Registry

namespace Shape

mutual

/-- Every construction, named field and key in the shape is in order. -/
def Resolvable (r : Registry) : Shape → Prop
  | sequence _ items => ResolvableItems r items
  | map entries => (entries.map (·.1)).Nodup ∧ ResolvableEntries r entries
  | construct t args => r.Constructs t args ∧ ResolvableItems r args
  | constructWith t args fields =>
    r.Constructs t args ∧ ResolvableItems r args ∧
      (fields.map (·.1)).Nodup ∧ r.HasFields t (fields.map (·.1)) ∧ ResolvableEntries r fields
  | _ => True
termination_by structural s => s

def ResolvableItems (r : Registry) : List Shape → Prop
  | [] => True
  | s :: ss => Resolvable r s ∧ ResolvableItems r ss
termination_by structural ss => ss

def ResolvableEntries (r : Registry) : List (String × Shape) → Prop
  | [] => True
  | (_, s) :: ss => Resolvable r s ∧ ResolvableEntries r ss
termination_by structural ss => ss

end

/-- The first shape stands somewhere in the second, at the top or below. -/
inductive Inside (node : Shape) : Shape → Prop
  | here : Inside node node
  | item {kind items s} (mem : s ∈ items) (rest : Inside node s) : Inside node (.sequence kind items)
  | entry {entries e} (mem : e ∈ entries) (rest : Inside node e.2) : Inside node (.map entries)
  | arg {t args s} (mem : s ∈ args) (rest : Inside node s) : Inside node (.construct t args)
  | argWith {t args fields s} (mem : s ∈ args) (rest : Inside node s) :
      Inside node (.constructWith t args fields)
  | field {t args fields e} (mem : e ∈ fields) (rest : Inside node e.2) :
      Inside node (.constructWith t args fields)

theorem Inside.trans {node s whole : Shape} (h : node.Inside s) (hs : s.Inside whole) :
    node.Inside whole := by
  induction hs with
  | here => exact h
  | item mem _ ih => exact .item mem ih
  | entry mem _ ih => exact .entry mem ih
  | arg mem _ ih => exact .arg mem ih
  | argWith mem _ ih => exact .argWith mem ih
  | field mem _ ih => exact .field mem ih

/-- Every element of a sequence in the shape has an index. -/
def Addressable (s : Shape) : Prop :=
  ∀ kind items, (sequence kind items).Inside s → items.length ≤ Step.itemLimit

end Shape

/-- A clause that is in order for a body taking the given tags. -/
structure Clause.WellFormed (c : Clause) (r : Registry) (limit : Nat) (tags : List Tag) : Prop where
  /-- No parameter is listed twice. -/
  distinct : c.params.Nodup
  /-- The body takes as many arguments as there are parameters. -/
  arity : tags.length = c.params.length
  /-- Types are declared for parameters only. -/
  declared : ∀ d ∈ c.types, d.1 ∈ c.params
  /-- The declared type of a parameter and the one its body takes nest. -/
  compatible : ∀ p ∈ c.params.zip tags, ∀ tag, c.type? p.1 = some tag → (tag.narrow p.2).isSome
  /-- The shape is no deeper than the limit. -/
  shallow : c.shape.depth ≤ limit
  /-- The parameters are the names that the shape mentions. -/
  mentioned : ∀ x, x ∈ c.params ↔ x ∈ c.shape.mentions
  /-- Whatever the shape names is there, and nothing is named twice. -/
  resolvable : c.shape.Resolvable r

end Destructure
