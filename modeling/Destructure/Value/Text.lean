/-
The text of a value.

Arrays are written `#[..]`, lists `[..]`, maps with their keys in quotes and
instances like a call of their type.  Characters, strings and keys stand raw
between their quotes, so the text is for reading and not for reading back.
-/
import Destructure.Value
import Destructure.Decimal.Notation

namespace Destructure

/-- Items separated by a comma and a blank. -/
def commaSeparated (items : List String) : String := String.intercalate ", " items

def quoted (s : String) : String := "\"" ++ s ++ "\""

namespace Value

mutual

def text : Value → String
  | unit => "()"
  | bool b => if b then "true" else "false"
  | int n => toString n.toInt
  | float x => x.text
  | char c => "'" ++ c.toString ++ "'"
  | str s => quoted s
  | array items => "#[" ++ commaSeparated (textItems items) ++ "]"
  | list items => "[" ++ commaSeparated (textItems items) ++ "]"
  | map entries => "\x7b" ++ commaSeparated (textEntries entries) ++ "\x7d"
  | object _ name fields => name ++ "(" ++ commaSeparated (textItems fields) ++ ")"
termination_by structural v => v

def textItems : List Value → List String
  | [] => []
  | v :: vs => text v :: textItems vs
termination_by structural vs => vs

def textEntries : List (String × Value) → List String
  | [] => []
  | (k, v) :: vs => (quoted k ++ ": " ++ text v) :: textEntries vs
termination_by structural vs => vs

end

end Value
end Destructure
