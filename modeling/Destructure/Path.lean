/-
Paths from a value to one of its parts.

A path is the list of steps to take, outermost first; the empty path leads to
the whole value.  A step leads nowhere when the value it meets is of another
kind, is too short or lacks the key.
-/
import Destructure.Value
import Destructure.Value.Text

namespace Destructure

/-- One step into a value.  A field is read by its position; its name is kept for
display, and steps to fields of different names are different steps. -/
inductive Step where
  | field (index : Nat) (name : String)
  | item (index : Nat)
  | key (key : String)
deriving DecidableEq, Repr

namespace Step

/-- The index of an element has to fit into 32 bits. -/
def itemLimit : Nat := UInt32.size

def follow : Step → Value → Option Value
  | field i _, .object _ _ fields => fields[i]?
  | item i, .array items => items[i]?
  | item i, .list items => items[i]?
  | key k, .map entries => entries.lookup k
  | _, _ => none

def text : Step → String
  | field _ name => "." ++ name
  | item i => "[" ++ toString i ++ "]"
  | key k => "[" ++ quoted k ++ "]"

end Step

abbrev Path := List Step

namespace Path

/-- The path to the whole value. -/
def root : Path := []

/-- The path that goes one step further. -/
def child (p : Path) (s : Step) : Path := p ++ [s]

/-- The part of the value that the path leads to. -/
def resolve : Path → Value → Option Value
  | [], v => some v
  | s :: p, v => (s.follow v).bind (resolve p)

/-- The parts that the paths lead to, or the first path that leads nowhere. -/
def resolveAll (v : Value) : List Path → Except Path (List Value)
  | [] => .ok []
  | p :: ps =>
    match resolve p v with
    | none => .error p
    | some w => (resolveAll v ps).map (w :: ·)

def text (p : Path) : String := "$" ++ String.join (p.map Step.text)

@[simp] theorem resolve_nil (v : Value) : resolve [] v = some v := rfl

@[simp] theorem resolve_cons (s : Step) (p : Path) (v : Value) :
    resolve (s :: p) v = (s.follow v).bind (resolve p) := rfl

theorem resolve_append (p q : Path) (v : Value) :
    resolve (p ++ q) v = (resolve p v).bind (resolve q) := by
  induction p generalizing v with
  | nil => rfl
  | cons s p ih =>
    rw [List.cons_append, resolve_cons, resolve_cons]
    cases s.follow v with
    | none => rfl
    | some w => exact ih w

theorem resolve_child (p : Path) (s : Step) (v : Value) :
    resolve (child p s) v = (resolve p v).bind s.follow := by
  rw [child, resolve_append]
  cases resolve p v with
  | none => rfl
  | some w =>
    show (s.follow w).bind some = s.follow w
    cases s.follow w <;> rfl

end Path
end Destructure
