/-
Runtime type tags.

A tag names a set of values.  Three of them are unions: `any` holds every value,
`sequence` holds arrays and lists, `anyObject` holds the instances of all types.
Any two tags are either nested or disjoint, which is why the intersection of two
is again a tag or is empty.
-/
import Destructure.Value

namespace Destructure

inductive Tag where
  | any
  | unit
  | bool
  | int
  | float
  | char
  | str
  | array
  | list
  /-- Arrays and lists. -/
  | sequence
  | map
  /-- Instances of every type. -/
  | anyObject
  /-- Instances of exactly this type. -/
  | object (type : TypeId)
deriving DecidableEq, Repr

namespace Tag

/-- Whether the value is one of those the tag names. -/
def admits : Tag → Value → Bool
  | any, _ => true
  | unit, .unit => true
  | bool, .bool _ => true
  | int, .int _ => true
  | float, .float _ => true
  | char, .char _ => true
  | str, .str _ => true
  | array, .array _ => true
  | list, .list _ => true
  | sequence, .array _ => true
  | sequence, .list _ => true
  | map, .map _ => true
  | anyObject, .object _ _ _ => true
  | object t, .object u _ _ => t == u
  | _, _ => false

/-- Whether the first tag names a subset of what the second names. -/
def within : Tag → Tag → Bool
  | _, any => true
  | array, sequence => true
  | list, sequence => true
  | object _, anyObject => true
  | s, t => s == t

/-- The stricter of two tags when one lies within the other; tags that do not nest
have no value in common. -/
def narrow (s t : Tag) : Option Tag :=
  if s.within t then some s
  else if t.within s then some t
  else none

def text : Tag → String
  | any => "any"
  | unit => "unit"
  | bool => "bool"
  | int => "int"
  | float => "float"
  | char => "char"
  | str => "str"
  | array => "array"
  | list => "list"
  | sequence => "sequence"
  | map => "map"
  | anyObject => "object"
  | object t => "object" ++ t.text

end Tag
end Destructure
