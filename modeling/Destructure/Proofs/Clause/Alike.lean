/-
Two ways to read the same arguments from a value.

Two plans for one body may read a parameter at different places, as long as the value is
the same at both.  The arguments are then equal, in the sense in which values are.  Read at
one place twice they are one and the same, but equal only if no NaN is in them: a NaN is
not even equal to itself.  So the arguments of the two runs are called alike when each pair
of them is equal or is one thing with a NaN in it.
-/
import Mathlib.Data.List.Forall2
import Destructure.Proofs.Chain.Congruence
import Destructure.Proofs.Clause.Acceptance
import Destructure.Proofs.Value.PartialEquivalence

namespace Destructure

/-! ## Alike arguments -/

namespace ArgType

/-- Whether a NaN occurs in what a body receives. -/
def hasNaN : (t : ArgType) → t.Carrier → Bool
  | value, v => v.hasNaN
  | float, x => x.isNaN
  | object, o => (Value.ofInstance o).hasNaN
  | items, vs => Value.hasNaNItems vs
  | entries, es => Value.hasNaNEntries es
  | _, _ => false

theorem same_self (t : ArgType) (x : t.Carrier) : t.same x x = !t.hasNaN x := by
  cases t with
  | value => exact Value.same_self x
  | float => exact Binary64.same_self x
  | object => exact (Value.ofInstance x).same_self
  | items => exact Value.sameItems_self fun v _ => v.same_self
  | entries => exact Value.sameEntries_self fun e _ => e.2.same_self
  | _ => simp [same, hasNaN]

/-- Equal arguments, or one argument that a NaN keeps from being equal to itself. -/
def Alike (t : ArgType) (x y : t.Carrier) : Prop :=
  t.same x y = true ∨ x = y ∧ t.hasNaN x = true

theorem Alike.refl (t : ArgType) (x : t.Carrier) : t.Alike x x := by
  cases hnan : t.hasNaN x with
  | false => exact .inl (by rw [same_self, hnan]; rfl)
  | true => exact .inr ⟨rfl, hnan⟩

end ArgType

/-- Equal values, or one value that a NaN keeps from being equal to itself. -/
def Value.Alike (v w : Value) : Prop := v.same w = true ∨ v = w ∧ v.hasNaN = true

theorem Value.Alike.refl (v : Value) : v.Alike v := ArgType.Alike.refl .value v

theorem ArgType.read?_alike (t : ArgType) {v w : Value} (h : v.Alike w) :
    Option.Rel t.Alike (t.read? v) (t.read? w) := by
  rcases h with hsame | ⟨rfl, -⟩
  · have hread : Option.Rel (t.same · · = true) (t.read? v) (t.read? w) := t.read?_same hsame
    generalize t.read? v = x at hread ⊢
    generalize t.read? w = y at hread ⊢
    cases hread with
    | none => exact .none
    | some hxy => exact .some (.inl hxy)
  · cases t.read? v with
    | none => exact .none
    | some x => exact .some (.refl t x)

namespace Args

/-- Arguments that are alike, one by one. -/
inductive Alike : {ts : Signature} → Args ts → Args ts → Prop
  | nil : Alike nil nil
  | cons {t : ArgType} {ts : Signature} {x y : t.Carrier} {xs ys : Args ts}
      (head : t.Alike x y) (tail : Alike xs ys) : Alike (cons x xs) (cons y ys)

theorem TakenFrom.alike {ts : Signature} {xs ys : Args ts} {vs ws : List Value}
    (hxs : xs.TakenFrom vs) (hys : ys.TakenFrom ws) (h : List.Forall₂ Value.Alike vs ws) :
    xs.Alike ys := by
  induction hxs generalizing ws with
  | nil =>
    cases hys
    exact .nil
  | @cons t ts x xs v vs hx _ ih =>
    cases hys with
    | @cons _ _ y ys w ws hy hys =>
      obtain ⟨hhead, htail⟩ := List.forall₂_cons.mp h
      have hread : Option.Rel t.Alike (t.read? v) (t.read? w) := t.read?_alike hhead
      rw [hx, hy] at hread
      cases hread with
      | some hxy => exact .cons hxy (ih hys htail)

end Args

/-! ## Alike paths -/

namespace Path

/-- One path, or two that the value is the same at. -/
def LeadAlike (v : Value) (p q : Path) : Prop :=
  p = q ∨ (Guard.sameValue p q).holds v = true

variable {v : Value}

theorem LeadAlike.leadTo {p q : Path} (h : LeadAlike v p q) : LeadTo Value.Alike v v p q := by
  rcases h with rfl | hsame
  · cases hp : p.resolve v with
    | none => exact .inl ⟨rfl, hp, hp⟩
    | some a => exact .inr ⟨a, a, hp, hp, .refl a⟩
  · obtain ⟨a, b, ha, hb, hab⟩ := Guard.holds_sameValue_iff.mp hsame
    exact .inr ⟨a, b, ha, hb, .inl hab⟩

end Path

/-! ## Alike runs -/

/-- The body gets the same out of the value by both plans: the same path is missed, or it
runs on arguments that are alike. -/
inductive Body.FedAlike {α : Type} (body : Body α) (plan plan' : Plan) (v : Value) : Prop
  | missing (p : Path) (fails : Arm.extract ⟨plan, body⟩ v = .error (.noValueAt p))
      (fails' : Arm.extract ⟨plan', body⟩ v = .error (.noValueAt p))
  | ran (xs ys : Args body.signature) (runs : Arm.RunsOn ⟨plan, body⟩ v xs)
      (runs' : Arm.RunsOn ⟨plan', body⟩ v ys) (alike : xs.Alike ys)

/-- Of a value that both plans accept, the body gets the same if the plans read each
parameter alike. -/
theorem Clause.fedAlike {α : Type} {c c' : Clause} {r : Registry} {limit : Nat} {body : Body α}
    {plan plan' : Plan} (h : c.compile r limit body = .ok ⟨plan, body⟩)
    (h' : c'.compile r limit body = .ok ⟨plan', body⟩) {v : Value} (hv : plan.accepts v = true)
    (hv' : plan'.accepts v = true)
    (hpaths : List.Forall₂ (Path.LeadAlike v) (plan.bindings.map (·.2))
      (plan'.bindings.map (·.2))) :
    body.FedAlike plan plan' v := by
  have hparts : (∃ p, plan.parts v = .error p ∧ plan'.parts v = .error p) ∨
      ∃ vs ws, plan.parts v = .ok vs ∧ plan'.parts v = .ok ws ∧
        List.Forall₂ Value.Alike vs ws :=
    Path.resolveAll_related (hpaths.imp fun _ _ => Path.LeadAlike.leadTo)
  rcases hparts with ⟨p, hp, hp'⟩ | ⟨vs, ws, hvs, hws, halike⟩
  · exact .missing p (Arm.extract_of_parts_eq_error hp) (Arm.extract_of_parts_eq_error hp')
  · obtain ⟨xs, hxs, hruns⟩ := exists_runsOn_of_parts h hv hvs
    obtain ⟨ys, hys, hruns'⟩ := exists_runsOn_of_parts h' hv' hws
    exact .ran xs ys hruns hruns' (hxs.alike hys halike)

end Destructure
