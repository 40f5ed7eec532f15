/-
The values that clauses take apart.

A value is a scalar, a sequence, a map from string keys or an instance of a
registered type.  An instance holds its fields in the order its type declares
them, so a field is read by position and its name is needed only for display.
-/
import Destructure.Binary64

namespace Destructure

/-- The number of a registered type, in order of registration. -/
structure TypeId where
  index : Nat
deriving DecidableEq, Repr, Inhabited

def TypeId.text (t : TypeId) : String := "#" ++ toString t.index

/-- A runtime value.  The entries of a map are in ascending order of their keys,
each key once; `Value.ofEntries` puts them so. -/
inductive Value where
  | unit
  | bool (b : Bool)
  | int (n : Int64)
  | float (x : Binary64)
  | char (c : Char)
  | str (s : String)
  /-- A sequence of fixed size. -/
  | array (items : List Value)
  /-- A growable sequence. -/
  | list (items : List Value)
  | map (entries : List (String × Value))
  /-- An instance of a type, with the name the type was registered under. -/
  | object (type : TypeId) (typeName : String) (fields : List Value)
deriving Inhabited

/-- An instance of a registered type, apart from other values. -/
structure Instance where
  type : TypeId
  typeName : String
  fields : List Value
deriving Inhabited

namespace Value

def ofInstance (o : Instance) : Value := object o.type o.typeName o.fields

/-- A thirty-two bit integer is the integer of the same number. -/
def ofInt32 (n : Int32) : Value := int n.toInt64

/-! ## Maps -/

/-- Put a value under a key, replacing the value that was there and otherwise
keeping the order of keys. -/
def insertEntry (key : String) (value : Value) : List (String × Value) → List (String × Value)
  | [] => [(key, value)]
  | (k, v) :: rest =>
    if key = k then (key, value) :: rest
    else if key < k then (key, value) :: (k, v) :: rest
    else (k, v) :: insertEntry key value rest

/-- The map holding the given pairs; of two pairs with one key the later counts. -/
def ofEntries (pairs : List (String × Value)) : Value :=
  map (pairs.foldl (fun entries p => insertEntry p.1 p.2 entries) [])

/-! ## Views -/

/-- The name of the value's runtime type; an instance goes by the name of its own
type. -/
def typeName : Value → String
  | unit => "unit"
  | bool _ => "bool"
  | int _ => "int"
  | float _ => "float"
  | char _ => "char"
  | str _ => "str"
  | array _ => "array"
  | list _ => "list"
  | map _ => "map"
  | object _ name _ => name

def int? : Value → Option Int64
  | int n => some n
  | _ => none

def float? : Value → Option Binary64
  | float x => some x
  | _ => none

def bool? : Value → Option Bool
  | bool b => some b
  | _ => none

def char? : Value → Option Char
  | char c => some c
  | _ => none

def str? : Value → Option String
  | str s => some s
  | _ => none

/-- The elements of either kind of sequence. -/
def items? : Value → Option (List Value)
  | array items => some items
  | list items => some items
  | _ => none

def entries? : Value → Option (List (String × Value))
  | map entries => some entries
  | _ => none

def instance? : Value → Option Instance
  | object type name fields => some ⟨type, name, fields⟩
  | _ => none

/-- The number of elements of a sequence or of entries of a map. -/
def count? : Value → Option Nat
  | array items => some items.length
  | list items => some items.length
  | map entries => some entries.length
  | _ => none

end Value
end Destructure
