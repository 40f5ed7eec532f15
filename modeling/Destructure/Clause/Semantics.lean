/-
What a clause means, without compiling it.

A shape is laid over a value directly, from left to right, with an environment of
the variables met so far.  The first occurrence of a variable takes the value it
meets, if the variable's tag admits it; a further occurrence asks for the same
value again.  This is the reading that a compiled clause has to agree with on
values that conform to the registry.
-/
import Destructure.Clause
import Destructure.Registry.Lookup
import Destructure.Value.Equality

namespace Destructure

/-- The value of each variable met so far, the latest first. -/
abbrev Env := List (String × Value)

/-- The elements of a sequence of this kind. -/
def SequenceKind.items? : SequenceKind → Value → Option (List Value)
  | array, .array items => some items
  | list, .list items => some items
  | _, _ => none

namespace Shape

mutual

/-- The environment after laying a shape over a value, when the value has the
shape. -/
def matching (r : Registry) (tagOf : String → Tag) : Shape → Value → Env → Option Env
  | discard, _, env => some env
  | literal w, v, env => if v.same w then some env else none
  | var x, v, env =>
    match env.lookup x with
    | some w => if w.same v then some env else none
    | none => if (tagOf x).admits v then some ((x, v) :: env) else none
  | sequence kind items, v, env =>
    match kind.items? v with
    | none => none
    | some vs => matchingItems r tagOf items vs env
  | map entries, v, env =>
    match v.entries? with
    | none => none
    | some es => matchingEntries r tagOf entries es env
  | construct t args, v, env =>
    match v.instance? with
    | none => none
    | some o => if o.type = t then matchingArgs r tagOf t args.length 0 args o.fields env else none
  | constructWith t args fields, v, env =>
    match v.instance? with
    | none => none
    | some o =>
      if o.type = t then
        match matchingArgs r tagOf t args.length 0 args o.fields env with
        | none => none
        | some env => matchingFields r tagOf t fields o.fields env
      else none
termination_by structural s => s

/-- Equally many shapes and elements, matched in order. -/
def matchingItems (r : Registry) (tagOf : String → Tag) :
    List Shape → List Value → Env → Option Env
  | [], [], env => some env
  | s :: ss, v :: vs, env =>
    match matching r tagOf s v env with
    | none => none
    | some env => matchingItems r tagOf ss vs env
  | _, _, _ => none
termination_by structural ss => ss

/-- Every key is there, and what is under it matches. -/
def matchingEntries (r : Registry) (tagOf : String → Tag) :
    List (String × Shape) → List (String × Value) → Env → Option Env
  | [], _, env => some env
  | (key, s) :: ss, es, env =>
    match es.lookup key with
    | none => none
    | some v =>
      match matching r tagOf s v env with
      | none => none
      | some env => matchingEntries r tagOf ss es env
termination_by structural ss => ss

/-- The fields that the arguments of a constructor initialise match the arguments, the
first of which is at position `i`.  Nothing is read for a discarded argument. -/
def matchingArgs (r : Registry) (tagOf : String → Tag) (t : TypeId) (arity i : Nat) :
    List Shape → List Value → Env → Option Env
  | [], _, env => some env
  | discard :: ss, vs, env => matchingArgs r tagOf t arity (i + 1) ss vs env
  | s :: ss, vs, env =>
    match r.argField t arity i with
    | .error _ => none
    | .ok f =>
      match vs[f.index]? with
      | none => none
      | some v =>
        match matching r tagOf s v env with
        | none => none
        | some env => matchingArgs r tagOf t arity (i + 1) ss vs env
termination_by structural ss => ss

/-- The named fields match. -/
def matchingFields (r : Registry) (tagOf : String → Tag) (t : TypeId) :
    List (String × Shape) → List Value → Env → Option Env
  | [], _, env => some env
  | (name, s) :: ss, vs, env =>
    match r.field t name with
    | .error _ => none
    | .ok f =>
      match vs[f.index]? with
      | none => none
      | some v =>
        match matching r tagOf s v env with
        | none => none
        | some env => matchingFields r tagOf t ss vs env
termination_by structural ss => ss

end

end Shape

namespace Clause

/-- The tag of a variable: the one the body takes at the parameter's position, narrowed
by the declared type. -/
def tagFor (c : Clause) (tags : List Tag) (x : String) : Tag :=
  match (c.params.zip tags).lookup x, c.type? x with
  | none, _ => .any
  | some body, none => body
  | some body, some declared => (declared.narrow body).getD .any

/-- Whether a value has the shape of the clause, for a body that takes the given
tags. -/
def fits (c : Clause) (r : Registry) (tags : List Tag) (v : Value) : Bool :=
  (c.shape.matching r (c.tagFor tags) v []).isSome

end Clause
end Destructure
