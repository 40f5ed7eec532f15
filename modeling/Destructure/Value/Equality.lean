/-
Equality of values.

Two values are the same when they are built alike and their parts are the same.
Nothing is converted: an int is never the same as a float, nor an array the same
as a list.  Instances are told apart by their type and fields and not by the
name they carry.  Floats are compared as numbers, so a value that holds a NaN at
any depth is not the same as itself.
-/
import Destructure.Value

namespace Destructure
namespace Value

mutual

def same : Value → Value → Bool
  | unit, unit => true
  | bool a, bool b => a == b
  | int a, int b => a == b
  | float a, float b => a.same b
  | char a, char b => a == b
  | str a, str b => a == b
  | array a, array b => sameItems a b
  | list a, list b => sameItems a b
  | map a, map b => sameEntries a b
  | object t _ a, object u _ b => t == u && sameItems a b
  | _, _ => false
termination_by structural v => v

/-- Equal length and the same elements, position by position. -/
def sameItems : List Value → List Value → Bool
  | [], [] => true
  | v :: vs, w :: ws => same v w && sameItems vs ws
  | _, _ => false
termination_by structural vs => vs

/-- Equal keys and the same values, position by position.  The entries of a map are
in key order, so this compares maps as maps. -/
def sameEntries : List (String × Value) → List (String × Value) → Bool
  | [], [] => true
  | (k, v) :: vs, (l, w) :: ws => k == l && same v w && sameEntries vs ws
  | _, _ => false
termination_by structural vs => vs

end

/-! ## Where a NaN occurs -/

mutual

/-- Whether a NaN occurs in the value, at any depth. -/
def hasNaN : Value → Bool
  | float x => x.isNaN
  | array items => hasNaNItems items
  | list items => hasNaNItems items
  | map entries => hasNaNEntries entries
  | object _ _ fields => hasNaNItems fields
  | _ => false
termination_by structural v => v

def hasNaNItems : List Value → Bool
  | [] => false
  | v :: vs => hasNaN v || hasNaNItems vs
termination_by structural vs => vs

def hasNaNEntries : List (String × Value) → Bool
  | [] => false
  | (_, v) :: vs => hasNaN v || hasNaNEntries vs
termination_by structural vs => vs

end

end Value
end Destructure
