/-
Shapes: the form a value must have.

A shape is plain data.  It is built from wildcards, literals, sequences, maps and
constructions of registered types; a construction names sub-shapes by the
position of a constructor argument and, optionally, further ones by field.
Positional arguments come before named fields wherever an order matters.
-/
import Destructure.Value

namespace Destructure

/-- Which of the two kinds of sequence a shape asks for. -/
inductive SequenceKind where
  | array
  | list
deriving DecidableEq, Repr

inductive Shape where
  /-- Any value. -/
  | discard
  /-- Exactly this value. -/
  | literal (value : Value)
  /-- Any value, which the variable then stands for.  Every further occurrence of
  the variable asks for the same value. -/
  | var (name : String)
  /-- A sequence of exactly this length, element by element. -/
  | sequence (kind : SequenceKind) (items : List Shape)
  /-- A map with at least these keys. -/
  | map (entries : List (String × Shape))
  /-- An instance, by the fields its constructor's arguments initialise. -/
  | construct (type : TypeId) (args : List Shape)
  /-- An instance, by its constructor's arguments and by further named fields. -/
  | constructWith (type : TypeId) (args : List Shape) (fields : List (String × Shape))
deriving Inhabited

namespace Shape

/-! ## Depth and size -/

mutual

/-- Nesting depth; a shape without sub-shapes has depth one. -/
def depth : Shape → Nat
  | sequence _ items => depthItems items + 1
  | map entries => depthEntries entries + 1
  | construct _ args => depthItems args + 1
  | constructWith _ args fields => max (depthItems args) (depthEntries fields) + 1
  | _ => 1
termination_by structural s => s

/-- The depth of the deepest, zero when there is none. -/
def depthItems : List Shape → Nat
  | [] => 0
  | s :: ss => max (depth s) (depthItems ss)
termination_by structural ss => ss

def depthEntries : List (String × Shape) → Nat
  | [] => 0
  | (_, s) :: ss => max (depth s) (depthEntries ss)
termination_by structural ss => ss

end

mutual

/-- The number of nodes. -/
def size : Shape → Nat
  | sequence _ items => sizeItems items + 1
  | map entries => sizeEntries entries + 1
  | construct _ args => sizeItems args + 1
  | constructWith _ args fields => sizeItems args + sizeEntries fields + 1
  | _ => 1
termination_by structural s => s

def sizeItems : List Shape → Nat
  | [] => 0
  | s :: ss => size s + sizeItems ss
termination_by structural ss => ss

def sizeEntries : List (String × Shape) → Nat
  | [] => 0
  | (_, s) :: ss => size s + sizeEntries ss
termination_by structural ss => ss

end

/-! ## Variables -/

mutual

/-- The variable of every wildcard, in order of traversal, repetitions included. -/
def mentions : Shape → List String
  | var x => [x]
  | sequence _ items => mentionsItems items
  | map entries => mentionsEntries entries
  | construct _ args => mentionsItems args
  | constructWith _ args fields => mentionsItems args ++ mentionsEntries fields
  | _ => []
termination_by structural s => s

def mentionsItems : List Shape → List String
  | [] => []
  | s :: ss => mentions s ++ mentionsItems ss
termination_by structural ss => ss

def mentionsEntries : List (String × Shape) → List String
  | [] => []
  | (_, s) :: ss => mentions s ++ mentionsEntries ss
termination_by structural ss => ss

end

/-- The variables of the shape in order of their first occurrence, each once. -/
def variableNames (s : Shape) : List String := s.mentions.eraseDups

end Shape
end Destructure
