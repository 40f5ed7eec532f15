/-
Where the variables of a clause are bound.

A variable is bound by its first occurrence.  A later occurrence changes nothing
and is answered with the path of the first, to which it has to be compared.
-/
import Destructure.Path

namespace Destructure

/-- Each bound variable with the path of its first occurrence, in order of first
occurrence. -/
structure Bindings where
  entries : List (String × Path)
deriving DecidableEq, Repr

/-- What an occurrence of a variable turns out to be. -/
inductive Occurrence where
  | fresh
  /-- The variable is bound already, at this path. -/
  | repeated (first : Path)
deriving DecidableEq, Repr

namespace Bindings

def empty : Bindings := ⟨[]⟩

def find? (b : Bindings) (name : String) : Option Path := b.entries.lookup name

def size (b : Bindings) : Nat := b.entries.length

def isEmpty (b : Bindings) : Bool := b.entries.isEmpty

/-- Bind a variable at a path unless it is bound already. -/
def bind (b : Bindings) (name : String) (path : Path) : Occurrence × Bindings :=
  match b.find? name with
  | some first => (.repeated first, b)
  | none => (.fresh, ⟨b.entries ++ [(name, path)]⟩)

@[simp] theorem find?_empty (name : String) : empty.find? name = none := rfl

theorem bind_of_find? {b : Bindings} {name : String} {first : Path}
    (h : b.find? name = some first) (path : Path) :
    b.bind name path = (.repeated first, b) := by
  simp [bind, h]

theorem bind_of_not_bound {b : Bindings} {name : String} (h : b.find? name = none)
    (path : Path) : b.bind name path = (.fresh, ⟨b.entries ++ [(name, path)]⟩) := by
  simp [bind, h]

/-- After an occurrence its variable is bound, at the path it had before or else at
the path of the occurrence, and other variables are as they were. -/
theorem find?_bind (b : Bindings) (name : String) (path : Path) (x : String) :
    (b.bind name path).2.find? x =
      (b.find? x).or (if x = name then some path else none) := by
  cases h : b.find? name with
  | some first =>
    rw [bind_of_find? h]
    by_cases hx : x = name
    · rw [hx, h]; rfl
    · simp [hx]
  | none =>
    rw [bind_of_not_bound h]
    simp only [find?, List.lookup_append, List.lookup_cons, List.lookup_nil]
    by_cases hx : x = name
    · simp [hx]
    · simp [beq_false_of_ne hx, hx]

end Bindings
end Destructure
