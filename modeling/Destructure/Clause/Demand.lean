/-
What a shape demands of a value.

Laying a shape over the positions of a value yields a flat list of demands, each
about positions given by their paths: a guard that has to hold, or an occurrence
of a variable.  Demands come in order of traversal, those on a position before
those on the positions below it.  Occurrences are not yet resolved to bindings
here, so the list of a composite shape is the concatenation of the lists of its
parts.
-/
import Destructure.Guard
import Destructure.Registry.Lookup
import Destructure.Shape

namespace Destructure

def SequenceKind.tag : SequenceKind → Tag
  | array => .array
  | list => .list

inductive Demand where
  | guard (g : Guard)
  /-- The variable occurs at the path. -/
  | occurs (name : String) (path : Path)

namespace Shape

/-- The demands of the first shape followed by those of the rest. -/
def andThen (first rest : Except ClauseError (List Demand)) : Except ClauseError (List Demand) :=
  match first with
  | .error e => .error e
  | .ok ds =>
    match rest with
    | .error e => .error e
    | .ok es => .ok (ds ++ es)

/-- The demands on a position itself, before those on what is below it. -/
def onPosition (guards : List Guard) (below : Except ClauseError (List Demand)) :
    Except ClauseError (List Demand) :=
  andThen (.ok (guards.map .guard)) below

mutual

/-- The demands of a shape on the value at a path.  A wildcard has to name one of
the declared variables.  An argument that is discarded is not looked up, while a
named field is looked up even when its value is discarded. -/
def demands (r : Registry) (declared : List String) (p : Path) :
    Shape → Except ClauseError (List Demand)
  | discard => .ok []
  | literal v => .ok [.guard (.eqLiteral p v)]
  | var x => if x ∈ declared then .ok [.occurs x p] else .error (.undeclaredVariable x)
  | sequence kind items =>
    onPosition [.typeIs p kind.tag, .countIs p items.length] (demandsItems r declared p 0 items)
  | map entries =>
    match firstRepeated (entries.map (·.1)) with
    | some key => .error (.unsupported (.repeatedKey key))
    | none =>
      onPosition (.typeIs p .map :: entries.map fun e => .hasKey p e.1)
        (demandsEntries r declared p entries)
  | construct t args =>
    match r.constructor t args.length with
    | .error e => .error e
    | .ok _ => onPosition [.typeIs p (.object t)] (demandsArgs r declared p t args.length 0 args)
  | constructWith t args fields =>
    match r.constructor t args.length with
    | .error e => .error e
    | .ok _ =>
      onPosition [.typeIs p (.object t)]
        (andThen (demandsArgs r declared p t args.length 0 args)
          (match firstRepeated (fields.map (·.1)) with
          | some name => .error (.unsupported (.repeatedField name))
          | none => demandsFields r declared p t fields))
termination_by structural s => s

/-- The elements of a sequence, the first of them at index `i`.  An index that no step can
have is an error, found only after the elements before it. -/
def demandsItems (r : Registry) (declared : List String) (p : Path) (i : Nat) :
    List Shape → Except ClauseError (List Demand)
  | [] => .ok []
  | s :: ss =>
    if i < Step.itemLimit then
      andThen (demands r declared (p.child (.item i)) s) (demandsItems r declared p (i + 1) ss)
    else
      .error (.unsupported .sequenceTooLong)
termination_by structural ss => ss

/-- The entries of a map, each under its key. -/
def demandsEntries (r : Registry) (declared : List String) (p : Path) :
    List (String × Shape) → Except ClauseError (List Demand)
  | [] => .ok []
  | (key, s) :: ss =>
    andThen (demands r declared (p.child (.key key)) s) (demandsEntries r declared p ss)
termination_by structural ss => ss

/-- The arguments of a constructor of the given arity, the first of them at position
`i`, each at the field it initialises. -/
def demandsArgs (r : Registry) (declared : List String) (p : Path) (t : TypeId) (arity i : Nat) :
    List Shape → Except ClauseError (List Demand)
  | [] => .ok []
  | discard :: ss => demandsArgs r declared p t arity (i + 1) ss
  | s :: ss =>
    match r.argField t arity i with
    | .error e => .error e
    | .ok f =>
      andThen (demands r declared (p.child f.step) s)
        (demandsArgs r declared p t arity (i + 1) ss)
termination_by structural ss => ss

/-- The named fields of an instance. -/
def demandsFields (r : Registry) (declared : List String) (p : Path) (t : TypeId) :
    List (String × Shape) → Except ClauseError (List Demand)
  | [] => .ok []
  | (name, s) :: ss =>
    match r.field t name with
    | .error e => .error e
    | .ok f =>
      andThen (demands r declared (p.child f.step) s) (demandsFields r declared p t ss)
termination_by structural ss => ss

end

end Shape
end Destructure
