/-
Clauses: a shape and the parameters that a body takes from it.

The parameters are listed in the order the body takes them.  A parameter may
also be declared to have a type of its own, which narrows what the body's
parameter type already asks for.
-/
import Destructure.Shape.Text
import Destructure.Tag

namespace Destructure

structure Clause where
  params : List String
  /-- The declared parameter types, each name at most once, latest declaration last. -/
  types : List (String × Tag)
  shape : Shape

namespace Clause

def ofParams (params : List String) (shape : Shape) : Clause := ⟨params, [], shape⟩

/-- A clause whose body takes no parameters. -/
def bare (shape : Shape) : Clause := ofParams [] shape

/-- Declare the type of a parameter.  An earlier declaration for the same name is
dropped. -/
def declare (c : Clause) (name : String) (tag : Tag) : Clause :=
  { c with types := c.types.filter (·.1 != name) ++ [(name, tag)] }

/-- Declare the types of parameters, one after another. -/
def declareAll (c : Clause) (declarations : List (String × Tag)) : Clause :=
  declarations.foldl (fun c d => c.declare d.1 d.2) c

/-- The declared type of a parameter. -/
def type? (c : Clause) (name : String) : Option Tag := c.types.lookup name

def paramText (c : Clause) (name : String) : String :=
  match c.type? name with
  | some tag => name ++ ": " ++ tag.text
  | none => name

def text (c : Clause) : String :=
  "(" ++ commaSeparated (c.params.map c.paramText) ++ ") => " ++ c.shape.text

end Clause
end Destructure
