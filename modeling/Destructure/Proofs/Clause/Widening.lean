/-
A clause with a part of its shape discarded.

Discarding a node leaves out its guards and its occurrences of variables, and nothing else
of what the shape demands.  The guards of the plan change beyond that: a variable whose first
occurrence is gone has its tag checked at a later one, is read there, and is compared from
there.  The value at the two places is the same whenever the clause accepts, so the clause
with less in its shape accepts too and feeds its body alike.

It may leave a parameter without a place to be read from.  That is the only way for it not
to compile.
-/
import Mathlib.Data.List.Forall2
import Destructure.Proofs.Clause.Alike
import Destructure.Proofs.Clause.Faults
import Destructure.Proofs.Clause.Layout

namespace Destructure

/-! ## Bound parameters -/

namespace Bindings

variable {b b' : Bindings} {params : List String}

theorem exists_forParams (h : ∀ x ∈ params, ∃ p, b.find? x = some p) :
    ∃ bindings, b.forParams params = .ok bindings := by
  cases hparams : b.forParams params with
  | ok bindings => exact ⟨bindings, rfl⟩
  | error e =>
    obtain ⟨x, hx, hnone, -⟩ := Clause.forParams_eq_error hparams
    obtain ⟨p, hp⟩ := h x hx
    simp [hnone] at hp

/-- What relates the paths of each variable in two tables relates those of the parameters,
one by one. -/
theorem forall₂_forParams {R : Path → Path → Prop}
    (hR : ∀ x p q, b.find? x = some p → b'.find? x = some q → R p q)
    {bindings bindings' : List (String × Path)} (h : b.forParams params = .ok bindings)
    (h' : b'.forParams params = .ok bindings') :
    List.Forall₂ R (bindings.map (·.2)) (bindings'.map (·.2)) := by
  induction params generalizing bindings bindings' with
  | nil =>
    cases h
    cases h'
    exact .nil
  | cons x params ih =>
    rw [forParams] at h h'
    cases hx : b.find? x with
    | none => simp [hx] at h
    | some p =>
      cases hx' : b'.find? x with
      | none => simp [hx'] at h'
      | some q =>
        simp only [hx] at h
        simp only [hx'] at h'
        obtain ⟨rest, hrest, rfl⟩ := map_eq_ok h
        obtain ⟨rest', hrest', rfl⟩ := map_eq_ok h'
        exact .cons (hR x p q hx hx') (ih hrest hrest')

end Bindings

namespace Clause

variable {c : Clause} {s : Shape} {r : Registry} {limit : Nat} {tags : List Tag}

/-- Once the shape is laid out, all that can go wrong is that it lacks a parameter. -/
theorem exists_compilePlan {assigned : List (String × Tag)} {ds : List Demand}
    (hcheck : c.checkParams tags = .ok assigned) (hdepth : c.shape.depth ≤ limit)
    (hds : c.shape.demands r c.params Path.root = .ok ds)
    (hmentioned : ∀ x ∈ c.params, x ∈ c.shape.mentions) :
    ∃ plan, c.compilePlan r limit tags = .ok plan := by
  have hbound : ∀ x ∈ c.params, ∃ p, (settle assigned Bindings.empty ds).2.find? x = some p := by
    intro x hx
    have hoccurs : x ∈ (Demand.occurrences ds).map (·.1) := by
      rw [Shape.demands_mentioned hds]
      exact hmentioned x hx
    rw [find?_settle]
    exact Demand.exists_lookup hoccurs
  obtain ⟨bindings, hbindings⟩ := Bindings.exists_forParams hbound
  refine ⟨⟨(settle assigned Bindings.empty ds).1, bindings⟩, ?_⟩
  simp only [compilePlan, plan, hcheck, if_neg (Nat.not_lt.mpr hdepth), hds, hbindings]
  rfl

/-! ## Fewer demands -/

section Covered

variable {α : Type} {body : Body α} {plan plan' : Plan}

/-- A shape that demands no more can replace that of a clause unless it lacks a parameter. -/
theorem exists_compile_withShape_iff
    (hcovers : Shape.Covers (c.shape.demands r c.params Path.root) (s.demands r c.params Path.root))
    (hdepth : s.depth ≤ c.shape.depth) (h : c.compile r limit body = .ok ⟨plan, body⟩) :
    (∃ arm, (c.withShape s).compile r limit body = .ok arm) ↔ ∀ x ∈ c.params, x ∈ s.mentions := by
  constructor
  · rintro ⟨arm, harm⟩ x hx
    obtain ⟨hplan, -⟩ := compile_eq_ok harm
    exact ((wellFormed_of_compilePlan hplan).mentioned x).mp hx
  · intro hmentioned
    obtain ⟨hplan, -⟩ := compile_eq_ok h
    obtain ⟨assigned, ds, hcheck, hlimit, hds, -, -⟩ := compilePlan_eq_ok hplan
    obtain ⟨es, hes, -⟩ := hcovers ds hds
    obtain ⟨plan', hplan'⟩ : ∃ plan', (c.withShape s).compilePlan r limit body.tags = .ok plan' :=
      exists_compilePlan (checkParams_withShape.trans hcheck) (Nat.le_trans hdepth hlimit) hes
        hmentioned
    exact ⟨⟨plan', body⟩, by rw [compile, hplan']; rfl⟩

/-- What the clause accepts, it accepts with a shape that demands no more, and then the body
gets the same. -/
theorem accepts_withShape
    (hcovers : Shape.Covers (c.shape.demands r c.params Path.root) (s.demands r c.params Path.root))
    (h : c.compile r limit body = .ok ⟨plan, body⟩)
    (h' : (c.withShape s).compile r limit body = .ok ⟨plan', body⟩) {v : Value}
    (hv : plan.accepts v = true) : plan'.accepts v = true ∧ body.FedAlike plan plan' v := by
  obtain ⟨hplan, -⟩ := compile_eq_ok h
  obtain ⟨hplan', -⟩ := compile_eq_ok h'
  obtain ⟨assigned, ds, hcheck, -, hds, hguards, hbindings⟩ := compilePlan_eq_ok hplan
  obtain ⟨assigned', es, hcheck', -, hes, hguards', hbindings'⟩ := compilePlan_eq_ok hplan'
  obtain rfl : assigned = assigned' :=
    Except.ok.inj (hcheck.symm.trans (checkParams_withShape.symm.trans hcheck'))
  obtain ⟨es', hes', hsub⟩ := hcovers ds hds
  obtain rfl : es' = es := Except.ok.inj (hes'.symm.trans hes)
  obtain ⟨hholds, hconsistent⟩ := (accepts_iff_of_settle hguards).mp hv
  have hoccurrences : (Demand.occurrences es').Subperm (Demand.occurrences ds) :=
    Demand.occurrences_subperm hsub
  have hholds' : ∀ g ∈ Demand.guards es', g.holds v = true := fun g hg =>
    hholds g (Demand.mem_guards_iff.mpr (hsub.subset (Demand.mem_guards_iff.mp hg)))
  have hv' : plan'.accepts v = true :=
    (accepts_iff_of_settle hguards').mpr ⟨hholds', hconsistent.of_subperm hoccurrences⟩
  refine ⟨hv', fedAlike h h' hv hv' ?_⟩
  -- Both places are occurrences in the fuller shape, where all occurrences of one variable agree.
  refine Bindings.forall₂_forParams (fun x p q hp hq => ?_) hbindings hbindings'
  rw [find?_settle, Bindings.find?_empty, Option.none_or] at hp hq
  have hp : (x, p) ∈ Demand.occurrences ds := mem_of_lookup hp
  have hq : (x, q) ∈ Demand.occurrences ds := hoccurrences.subset (mem_of_lookup hq)
  by_cases hpq : p = q
  · exact .inl hpq
  · exact .inr (hconsistent.sameValue hp hq hpq)

end Covered

/-! ## Discarding a node -/

/-- A clause that compiles still does so with any node of its shape discarded, as long as
each parameter is left a wildcard.  It then accepts what it accepted before, and the body
gets the same. -/
theorem discard_widens {α : Type} {body : Body α} {plan : Plan} {ctx : Shape.Context}
    {node : Shape} (hshape : c.shape = ctx.fill node)
    (h : c.compile r limit body = .ok ⟨plan, body⟩) :
    let wider := c.withShape (ctx.fill .discard)
    ((∃ arm, wider.compile r limit body = .ok arm) ↔
        ∀ x ∈ wider.params, x ∈ wider.shape.mentions) ∧
      ∀ plan', wider.compile r limit body = .ok ⟨plan', body⟩ → ∀ v, plan.accepts v = true →
        plan'.accepts v = true ∧ body.FedAlike plan plan' v := by
  intro wider
  have hdepth : wider.shape.depth ≤ c.shape.depth := by
    rw [hshape]
    exact ctx.depth_fill_le node.depth_discard_le
  have hcovers : Shape.Covers (c.shape.demands r c.params Path.root)
      (wider.shape.demands r c.params Path.root) := by
    rw [hshape]
    exact Shape.related_fill Shape.Covers.compatible (fun _ => .ok_nil _)
      (fun _ _ _ _ => .ok_nil _) ctx Path.root
  exact ⟨exists_compile_withShape_iff hcovers hdepth h,
    fun plan' h' v hv => accepts_withShape hcovers h h' hv⟩

/-- An int, the same again as a coordinate, and the same again. -/
def thriceClause : Clause :=
  .ofParams ["a"] (.sequence .list [.var "a", .construct ⟨0⟩ [.var "a", .discard], .var "a"])

def echoInt : Body Int64 := ⟨"echo", [.int], fun | .cons n _ => n⟩

def thricePlan : Plan where
  guards := [.typeIs [] .list, .countIs [] 3, .typeIs [.item 0] .int,
    .typeIs [.item 1] (.object ⟨0⟩), .sameValue [.item 0] [.item 1, .field 0 "x"],
    .sameValue [.item 0] [.item 2]]
  bindings := [("a", [.item 0])]

/-- What is left once the first int is discarded: the coordinate is now the first. -/
def twicePlan : Plan where
  guards := [.typeIs [] .list, .countIs [] 3, .typeIs [.item 1] (.object ⟨0⟩),
    .typeIs [.item 1, .field 0 "x"] .int, .sameValue [.item 1, .field 0 "x"] [.item 2]]
  bindings := [("a", [.item 1, .field 0 "x"])]

theorem discard_widens_thrice :
    let ctx : Shape.Context :=
      .item .list [] .hole [.construct ⟨0⟩ [.var "a", .discard], .var "a"]
    let wider := thriceClause.withShape (ctx.fill .discard)
    let v := Value.list [.int 3, .object ⟨0⟩ "Point" [.int 3, .float .nan], .int 3]
    thriceClause.shape = ctx.fill (.var "a") ∧
      thriceClause.compile points 3 echoInt = .ok ⟨thricePlan, echoInt⟩ ∧
      wider.compile points 3 echoInt = .ok ⟨twicePlan, echoInt⟩ ∧
      (∀ x ∈ wider.params, x ∈ wider.shape.mentions) ∧ thricePlan.accepts v = true ∧
      twicePlan.accepts v = true ∧ echoInt.FedAlike thricePlan twicePlan v := by
  intro ctx wider v
  have hshape : thriceClause.shape = ctx.fill (.var "a") := rfl
  have h : thriceClause.compile points 3 echoInt = .ok ⟨thricePlan, echoInt⟩ := rfl
  have hwider : wider.compile points 3 echoInt = .ok ⟨twicePlan, echoInt⟩ := rfl
  have hv : thricePlan.accepts v = true := by decide
  obtain ⟨hcompiles, haccepts⟩ := discard_widens hshape h
  obtain ⟨hv', halike⟩ := haccepts twicePlan hwider v hv
  exact ⟨hshape, h, hwider, hcompiles.mp ⟨_, hwider⟩, hv, hv', halike⟩

/-- A parameter in front of a one. -/
def beforeOne : Clause := .ofParams ["a"] (.sequence .list [.var "a", .literal (.int 1)])

/-- With the one discarded the parameter is read as before, but if it is a NaN the two
arguments are not equal. -/
theorem discard_not_same_nan :
    let ctx : Shape.Context := .item .list [.var "a"] .hole []
    let wider := beforeOne.withShape (ctx.fill .discard)
    let v := Value.list [.float .nan, .int 1]
    beforeOne.shape = ctx.fill (.literal (.int 1)) ∧
      ∃ plan plan', beforeOne.compile .empty 2 echo = .ok ⟨plan, echo⟩ ∧
        wider.compile .empty 2 echo = .ok ⟨plan', echo⟩ ∧ plan.accepts v = true ∧
        ∃ xs ys, Arm.RunsOn ⟨plan, echo⟩ v xs ∧ Arm.RunsOn ⟨plan', echo⟩ v ys ∧ ¬ xs.Same ys := by
  intro ctx wider v
  have hrun : ∀ gs : List Guard, Arm.RunsOn ⟨⟨gs, [("a", [.item 0])]⟩, echo⟩ v
      (.cons (Value.float .nan) .nil) :=
    fun gs => ⟨[.float .nan], rfl, .cons rfl .nil, rfl⟩
  refine ⟨rfl, _, _, rfl, rfl, by decide, _, _, hrun _, hrun _, fun hsame => ?_⟩
  cases hsame with
  | cons head _ => exact absurd head (by decide)

end Clause
end Destructure
