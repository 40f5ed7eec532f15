/-
A clause with its named parts in another order.

The entries of a map and the named fields of an instance say where they belong, so their
order should not matter.  It does matter to the plan: another occurrence of a variable may
come first, and then it is the one that has its tag checked, is read, and is compared with
the others.  What the shape demands is the same in either order, though, and a plan accepts
by what is demanded.
-/
import Destructure.Proofs.Clause.Widening

namespace Destructure
namespace Clause

variable {c : Clause} {s : Shape} {r : Registry} {limit : Nat} {α : Type} {body : Body α}

/-- A shape that demands no more mentions no more. -/
theorem mentions_subset_of_covers {declared : List String} {s s' : Shape} {p : Path}
    {ds : List Demand} (hcovers : Shape.Covers (s.demands r declared p) (s'.demands r declared p))
    (h : s.demands r declared p = .ok ds) : s'.mentions ⊆ s.mentions := by
  obtain ⟨es, hes, hsub⟩ := hcovers ds h
  have hoccurrences : Demand.occurrences es ⊆ Demand.occurrences ds :=
    (Demand.occurrences_subperm hsub).subset
  rw [← Shape.demands_mentioned h, ← Shape.demands_mentioned hes]
  exact List.map_subset _ hoccurrences

theorem exists_compile_reordered (hs : c.shape.Reordered s) {arm : Arm α}
    (h : c.compile r limit body = .ok arm) :
    ∃ arm, (c.withShape s).compile r limit body = .ok arm := by
  obtain ⟨hplan, rfl⟩ := compile_eq_ok h
  obtain ⟨assigned, ds, -, -, hds, -, -⟩ := compilePlan_eq_ok hplan
  obtain ⟨es, hes, -⟩ := hs.covers Path.root ds hds
  have hmentions : c.shape.mentions ⊆ s.mentions :=
    mentions_subset_of_covers (hs.symm.covers Path.root) hes
  refine (exists_compile_withShape_iff (hs.covers Path.root) hs.depth_le h).mpr fun x hx => ?_
  exact hmentions (((wellFormed_of_compilePlan hplan).mentioned x).mp hx)

/-- The order of named parts is of no account.  With the entries of maps and the named
fields of instances in another order a clause compiles as before and accepts the same
values, of which the body gets the same. -/
theorem reordered_alike (hs : c.shape.Reordered s) (r : Registry) (limit : Nat)
    (body : Body α) :
    let other := c.withShape s
    ((∃ arm, c.compile r limit body = .ok arm) ↔
        ∃ arm, other.compile r limit body = .ok arm) ∧
      ∀ plan plan', c.compile r limit body = .ok ⟨plan, body⟩ →
        other.compile r limit body = .ok ⟨plan', body⟩ → ∀ v,
          plan.accepts v = plan'.accepts v ∧
            (plan.accepts v = true → body.FedAlike plan plan' v) := by
  intro other
  have hback : other.shape.Reordered c.shape := hs.symm
  refine ⟨⟨?there, ?back⟩, fun plan plan' h h' v => ⟨?accepts, ?fed⟩⟩
  case there =>
    rintro ⟨arm, harm⟩
    exact exists_compile_reordered hs harm
  case back =>
    rintro ⟨arm, harm⟩
    exact exists_compile_reordered (c := other) hback harm
  case accepts =>
    rw [Bool.eq_iff_iff]
    exact ⟨fun hv => (accepts_withShape (hs.covers Path.root) h h' hv).1,
      fun hv => (accepts_withShape (hback.covers Path.root) h' h hv).1⟩
  case fed => exact fun hv => (accepts_withShape (hs.covers Path.root) h h' hv).2

/-- A point under one key, and its first coordinate again under another. -/
def pointClause : Clause :=
  .ofParams ["a", "b"] (.map [
    ("p", .constructWith ⟨0⟩ [.discard, .discard] [("x", .var "a"), ("y", .var "b")]),
    ("q", .var "a")])

/-- The same the other way round. -/
def pointShape : Shape :=
  .map [("q", .var "a"),
    ("p", .constructWith ⟨0⟩ [.discard, .discard] [("y", .var "b"), ("x", .var "a")])]

theorem reordered_pointShape : pointClause.shape.Reordered pointShape :=
  .trans (.inside (.entry [] "p" .hole [("q", .var "a")]) (.fields (.swap _ _ _)))
    (.entries (.swap _ _ _))

def afterInt : Body Value := ⟨"after", [.int, .value], fun | .cons _ (.cons v _) => v⟩

def coordinateFirst : Plan where
  guards := [.typeIs [] .map, .hasKey [] "p", .hasKey [] "q", .typeIs [.key "p"] (.object ⟨0⟩),
    .typeIs [.key "p", .field 0 "x"] .int, .sameValue [.key "p", .field 0 "x"] [.key "q"]]
  bindings := [("a", [.key "p", .field 0 "x"]), ("b", [.key "p", .field 1 "y"])]

def coordinateLast : Plan where
  guards := [.typeIs [] .map, .hasKey [] "q", .hasKey [] "p", .typeIs [.key "q"] .int,
    .typeIs [.key "p"] (.object ⟨0⟩), .sameValue [.key "q"] [.key "p", .field 0 "x"]]
  bindings := [("a", [.key "q"]), ("b", [.key "p", .field 1 "y"])]

theorem reordered_alike_point :
    let other := pointClause.withShape pointShape
    let v := Value.map [("p", .object ⟨0⟩ "Point" [.int 3, .float .nan]), ("q", .int 3)]
    pointClause.shape.Reordered other.shape ∧
      pointClause.compile points 3 afterInt = .ok ⟨coordinateFirst, afterInt⟩ ∧
      (∃ arm, other.compile points 3 afterInt = .ok arm) ∧ coordinateFirst.accepts v = true ∧
      coordinateLast.accepts v = true ∧ afterInt.FedAlike coordinateFirst coordinateLast v := by
  intro other v
  have h : pointClause.compile points 3 afterInt = .ok ⟨coordinateFirst, afterInt⟩ := rfl
  have hother : other.compile points 3 afterInt = .ok ⟨coordinateLast, afterInt⟩ := rfl
  have hv : coordinateFirst.accepts v = true := by decide
  obtain ⟨hcompiles, halike⟩ := reordered_alike reordered_pointShape points 3 afterInt
  obtain ⟨haccepts, hfed⟩ := halike _ _ h hother v
  exact ⟨reordered_pointShape, h, hcompiles.mp ⟨_, h⟩, hv, haccepts.symm.trans hv, hfed hv⟩

/-- A parameter under one key, and anything under another. -/
def keyClause : Clause := .ofParams ["a"] (.map [("a", .var "a"), ("b", .discard)])

/-- With the keys the other way round the parameter is read as before, but if it is a NaN the
two arguments are not equal. -/
theorem reordered_not_same_nan :
    let other := keyClause.withShape (.map [("b", .discard), ("a", .var "a")])
    let v := Value.map [("a", .float .nan), ("b", .unit)]
    keyClause.shape.Reordered other.shape ∧
      ∃ plan plan', keyClause.compile .empty 2 echo = .ok ⟨plan, echo⟩ ∧
        other.compile .empty 2 echo = .ok ⟨plan', echo⟩ ∧ plan.accepts v = true ∧
        ¬ ((∃ p, Arm.extract ⟨plan, echo⟩ v = .error (.noValueAt p) ∧
              Arm.extract ⟨plan', echo⟩ v = .error (.noValueAt p)) ∨
            ∃ xs ys, Arm.RunsOn ⟨plan, echo⟩ v xs ∧ Arm.RunsOn ⟨plan', echo⟩ v ys ∧
              xs.Same ys) := by
  intro other v
  refine ⟨.entries (.swap _ _ _), _, _, rfl, rfl, by decide, ?_⟩
  rintro (⟨p, hp, -⟩ | ⟨xs, ys, ⟨vs, hvs, hxs, -⟩, ⟨ws, hws, hys, -⟩, hsame⟩)
  · cases hp
  · -- Both bodies are run on the NaN, which is not the same as itself.
    cases hvs
    cases hws
    obtain rfl : Args.cons (Value.float .nan) .nil = xs := Except.ok.inj hxs.ofValues_eq_ok
    obtain rfl : Args.cons (Value.float .nan) .nil = ys := Except.ok.inj hys.ofValues_eq_ok
    cases hsame with
    | cons head _ => exact absurd head (by decide)

end Clause
end Destructure
