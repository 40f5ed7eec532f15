/-
The text of a shape.

Sequences and maps are written like the values they match.  A construction is
written `new#N(..)`, followed by its named fields in braces when it has a list
of them, which may be empty.
-/
import Destructure.Shape
import Destructure.Value.Text

namespace Destructure
namespace Shape

mutual

def text : Shape → String
  | discard => "_"
  | literal v => v.text
  | var x => x
  | sequence .array items => "#[" ++ commaSeparated (textItems items) ++ "]"
  | sequence .list items => "[" ++ commaSeparated (textItems items) ++ "]"
  | map entries => "\x7b" ++ commaSeparated (textEntries entries) ++ "\x7d"
  | construct t args => "new" ++ t.text ++ "(" ++ commaSeparated (textItems args) ++ ")"
  | constructWith t args fields =>
    "new" ++ t.text ++ "(" ++ commaSeparated (textItems args) ++ ") \x7b " ++
      commaSeparated (textFields fields) ++ " \x7d"
termination_by structural s => s

def textItems : List Shape → List String
  | [] => []
  | s :: ss => text s :: textItems ss
termination_by structural ss => ss

def textEntries : List (String × Shape) → List String
  | [] => []
  | (k, s) :: ss => (quoted k ++ ": " ++ text s) :: textEntries ss
termination_by structural ss => ss

def textFields : List (String × Shape) → List String
  | [] => []
  | (f, s) :: ss => (f ++ " = " ++ text s) :: textFields ss
termination_by structural ss => ss

end

end Shape
end Destructure
