/-
Guards: the conditions a compiled clause checks.

Each guard reads one or two positions of the whole value by their paths.  A
guard whose path leads nowhere does not hold.
-/
import Destructure.Path
import Destructure.Tag
import Destructure.Value.Equality

namespace Destructure

inductive Guard where
  /-- The value at the path is one of those the tag names. -/
  | typeIs (path : Path) (tag : Tag)
  /-- The sequence or map at the path has this many elements or entries. -/
  | countIs (path : Path) (count : Nat)
  /-- The map at the path has the key. -/
  | hasKey (path : Path) (key : String)
  | eqLiteral (path : Path) (literal : Value)
  /-- The values at both paths are the same. -/
  | sameValue (first second : Path)
deriving Inhabited

namespace Guard

def holds : Guard → Value → Bool
  | typeIs p tag, v => (p.resolve v).any tag.admits
  | countIs p n, v => (p.resolve v).bind Value.count? == some n
  | hasKey p key, v =>
    ((p.resolve v).bind Value.entries?).any fun entries => (entries.lookup key).isSome
  | eqLiteral p literal, v => (p.resolve v).any (·.same literal)
  | sameValue p q, v => (p.resolve v).any fun a => (q.resolve v).any a.same

/-- The guard as a test to run on values.  On the whole value it follows no path. -/
def test : Guard → Value → Bool
  | typeIs [] tag, v => tag.admits v
  | countIs [] n, v => v.count? == some n
  | eqLiteral [] literal, v => v.same literal
  | g, v => g.holds v

/-- The test finds what the guard says. -/
@[simp] theorem test_eq_holds (g : Guard) (v : Value) : g.test v = g.holds v := by
  unfold test
  split <;> simp [holds]

/-- Built alike from equal paths, tags, counts and keys, and the same literals. -/
def same : Guard → Guard → Bool
  | typeIs p s, typeIs q t => p == q && s == t
  | countIs p m, countIs q n => p == q && m == n
  | hasKey p k, hasKey q l => p == q && k == l
  | eqLiteral p v, eqLiteral q w => p == q && v.same w
  | sameValue p q, sameValue p' q' => p == p' && q == q'
  | _, _ => false

def text : Guard → String
  | typeIs p tag => s!"typeof({p.text}) == {tag.text}"
  | countIs p n => s!"len({p.text}) == {n}"
  | hasKey p key => p.text ++ " has " ++ quoted key
  | eqLiteral p literal => p.text ++ " == " ++ literal.text
  | sameValue p q => p.text ++ " == " ++ q.text

end Guard
end Destructure
