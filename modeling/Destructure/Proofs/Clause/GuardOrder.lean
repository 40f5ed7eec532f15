/-
Guards only read what earlier guards have made sure of.

The demands of a shape are secured one after another (`demands_secured`).  Settling puts
guards in the place of the occurrences of variables, and one of these reads a second
position: a comparison refers back to where its variable occurred first, however far away
that is.  What carries over is an invariant on the bindings.  A variable is bound at a
path that the guards emitted so far have secured, and since guards are never taken back it
stays secured until a comparison reads it.
-/
import Destructure.Proofs.Clause.Agreement
import Destructure.Proofs.Clause.Extraction

namespace Destructure

variable {r : Registry} {before more : List Guard} {p q : Path}

/-! ## Settled demands -/

/-- Every variable is bound at a path that the guards secure. -/
def Bindings.Secured (r : Registry) (guards : List Guard) (b : Bindings) : Prop :=
  ∀ x p, b.find? x = some p → p.Secured r guards

theorem Bindings.Secured.mono {b : Bindings} (h : b.Secured r before) (hsub : before ⊆ more) :
    b.Secured r more :=
  fun x p hp => (h x p hp).mono hsub

theorem Bindings.secured_empty : Bindings.empty.Secured r before := by
  intro x p hp
  cases hp

theorem Bindings.Secured.bind {b : Bindings} (h : b.Secured r before) {x : String}
    (hp : p.Secured r before) : (b.bind x p).2.Secured r before :=
  Bindings.forall_find?_bind h hp

theorem Guard.securedBy_typeIs (hp : p.Secured r before) (tag : Tag) :
    (Guard.typeIs p tag).SecuredBy r before :=
  ⟨hp.singleton, trivial⟩

theorem Guard.securedBy_sameValue (hp : p.Secured r before) (hq : q.Secured r before) :
    (Guard.sameValue p q).SecuredBy r before :=
  ⟨List.forall_mem_cons.mpr ⟨hp, hq.singleton⟩, trivial⟩

/-- Settling keeps demands secured, whatever further guards stand in front of them. -/
theorem securedAll_settle {tags : List (String × Tag)} {b : Bindings} {ds : List Demand}
    (h : SecuredAll r before ds) (hsub : before ⊆ more) (hb : b.Secured r more) :
    SecuredAll r more ((settle tags b ds).1.map .guard) := by
  induction ds generalizing before more b with
  | nil => trivial
  | cons d ds ih =>
    cases d with
    | guard g =>
      have hstep : before ++ [g] ⊆ more ++ [g] :=
        List.append_subset.mpr ⟨List.subset_append_of_subset_left _ hsub, List.subset_append_right ..⟩
      exact ⟨h.1.mono hsub, ih h.2 hstep (hb.mono (List.subset_append_left ..))⟩
    | occurs x p =>
      have hp : p.Secured r more := h.1.mono hsub
      cases hx : b.find? x with
      | some first =>
        rw [settle_repeated hx]
        have hstep : before ⊆ more ++ [.sameValue first p] :=
          List.subset_append_of_subset_left _ hsub
        exact ⟨Guard.securedBy_sameValue (hb x first hx) hp,
          ih h.2 hstep (hb.mono (List.subset_append_left ..))⟩
      | none =>
        rw [settle_fresh hx, List.map_append]
        have htype : SecuredAll r more ((tagGuards (tagIn tags x) p).map .guard) := by
          refine .of_guards fun g hg => ?_
          unfold tagGuards at hg
          split at hg
          · exact absurd hg List.not_mem_nil
          · rw [List.mem_singleton.mp hg]
            exact Guard.securedBy_typeIs hp _
        refine htype.append ?_
        rw [Demand.guards_map_guard]
        exact ih h.2 (List.subset_append_of_subset_left _ hsub)
          ((hb.bind hp).mono (List.subset_append_left ..))

/-- In a secured list of guards each one is secured by those in front of it. -/
theorem SecuredAll.securedBy {pre post : List Guard} {g : Guard}
    (h : SecuredAll r before ((pre ++ g :: post).map .guard)) : g.SecuredBy r (before ++ pre) := by
  induction pre generalizing before with
  | nil =>
    rw [List.append_nil]
    exact h.1
  | cons g' pre ih =>
    have hrest := ih h.2
    rwa [List.append_assoc] at hrest

/-! ## Plans -/

namespace Clause

variable {c : Clause} {limit : Nat} {tags : List Tag} {plan : Plan}

theorem securedAll_guards (h : c.compilePlan r limit tags = .ok plan) :
    SecuredAll r [] (plan.guards.map .guard) := by
  obtain ⟨assigned, ds, -, -, hds, hguards, -⟩ := compilePlan_eq_ok h
  have hdemands : SecuredAll r [] ds := Shape.demands_secured hds [] Path.secured_root
  rw [hguards]
  exact securedAll_settle hdemands (List.Subset.refl _) Bindings.secured_empty

/-- Each guard of a compiled clause is secured by the guards in front of it, and the paths
of the parameters by all of them.  So on a conforming value that passes the guards in front
of a guard, this guard finds something on every path it reads. -/
theorem guards_in_order {α : Type} {c : Clause} {r : Registry} {limit : Nat} {body : Body α}
    {arm : Arm α} (h : c.compile r limit body = .ok arm) :
    (∀ before g after, arm.guards = before ++ g :: after →
      g.SecuredBy r before ∧
        ∀ v, r.conforms v = true → (∀ earlier ∈ before, earlier.test v = true) →
          ∀ p ∈ g.paths, ∃ w, p.resolve v = some w) ∧
      ∀ x p, (x, p) ∈ arm.bindings → p.Secured r arm.guards := by
  obtain ⟨hplan, -⟩ := compile_eq_ok h
  refine ⟨fun before g after hguards => ?_, fun x p hx => (boundAt hplan hx).secured⟩
  have hall : SecuredAll r [] ((before ++ g :: after).map .guard) :=
    hguards ▸ securedAll_guards hplan
  have hsecured : g.SecuredBy r before := hall.securedBy
  refine ⟨hsecured, fun v hv hbefore p hp => ?_⟩
  have hholds : ∀ earlier ∈ before, earlier.holds v = true := by
    intro earlier hearlier
    rw [← Guard.test_eq_holds]
    exact hbefore earlier hearlier
  exact (hsecured.1 p hp).resolves hholds (.inl hv)

/-- The comparison in the plan for a point and its first coordinate, and what precedes it. -/
def abscissaComparison : Guard := .sameValue [.item 0, .field 0 "x"] [.item 1]

def beforeComparison : List Guard :=
  [.typeIs [] .list, .countIs [] 2, .typeIs [.item 0] (.object ⟨0⟩)]

theorem guards_in_order_abscissa :
    let other := pointAndValue (.int 4)
    abscissaClause.compile points 3 echo = .ok abscissaArm ∧
      abscissaArm.guards = beforeComparison ++ [abscissaComparison] ∧
      abscissaComparison.SecuredBy points beforeComparison ∧
      abscissaComparison.test other = false ∧
      (∀ p ∈ abscissaComparison.paths, ∃ w, p.resolve other = some w) ∧
      Path.Secured points abscissaArm.guards [.item 0, .field 0 "x"] := by
  intro other
  have h : abscissaClause.compile points 3 echo = .ok abscissaArm := rfl
  have hguards : abscissaArm.guards = beforeComparison ++ [abscissaComparison] := rfl
  have hbefore : ∀ earlier ∈ beforeComparison, earlier.test other = true := by decide
  obtain ⟨horder, hbindings⟩ := guards_in_order h
  obtain ⟨hsecured, hresolves⟩ := horder _ _ _ hguards
  exact ⟨h, hguards, hsecured, by decide, hresolves other (by decide) hbefore,
    hbindings "a" _ List.mem_cons_self⟩

end Clause
end Destructure
