/-
Matching respects equality of values.

Values that are the same may differ as data: two zeros differ in sign, two instances in
the name they carry.  A clause cannot tell them apart.  Its guards read a value through
paths, and a path leads to the same parts in both or nowhere in both; what a guard asks
of a part is a tag, a count, a key or a comparison, and each of these respects equality.
So a chain picks one clause for both values, and that clause fails on both for want of
the same path or runs its body on arguments that are the same.

Equality is not reflexive, because of NaN.  Nothing here needs it to be.
-/
import Destructure.Proofs.Chain.FirstMatch
import Destructure.Proofs.Value.PartialEquivalence

namespace Destructure

/-! ## Guards -/

section Guards

variable {x y : Option Value}

theorem any_congr_of_same (hxy : Option.Rel Value.Same x y) {f g : Value → Bool}
    (hfg : ∀ v w : Value, v.Same w → f v = g w) : x.any f = y.any g := by
  cases hxy with
  | none => rfl
  | some h => exact hfg _ _ h

theorem bind_congr_of_same (hxy : Option.Rel Value.Same x y) {β : Type} {f : Value → Option β}
    (hf : ∀ v w : Value, v.Same w → f v = f w) : x.bind f = y.bind f := by
  cases hxy with
  | none => rfl
  | some h => exact hf _ _ h

end Guards

/-- Whether a value is a map with the key. -/
theorem Value.any_lookup_congr {v w : Value} (h : v.same w = true) (key : String) :
    (v.entries?.any fun entries => (entries.lookup key).isSome) =
      w.entries?.any fun entries => (entries.lookup key).isSome := by
  cases v <;> cases w <;> simp only [same, Bool.false_eq_true] at h <;> try rfl
  case map.map es fs =>
    have hlookup : Option.Rel Same (es.lookup key) (fs.lookup key) := lookup_same h key
    show (es.lookup key).isSome = (fs.lookup key).isSome
    generalize es.lookup key = x at hlookup ⊢
    generalize fs.lookup key = y at hlookup ⊢
    cases hlookup <;> rfl

/-- A guard holds of both values or of neither. -/
theorem Guard.holds_congr (g : Guard) {v w : Value} (h : v.same w = true) :
    g.holds v = g.holds w := by
  have hpath : ∀ p : Path, Option.Rel Value.Same (p.resolve v) (p.resolve w) :=
    fun p => p.resolve_same h
  cases g with
  | typeIs p tag => exact any_congr_of_same (hpath p) fun v w hvw => tag.admits_congr hvw
  | countIs p n =>
    have hcount := bind_congr_of_same (hpath p) fun v w hvw => Value.count?_congr hvw
    rw [holds, holds, hcount]
  | hasKey p key =>
    rw [holds, holds, Option.any_bind, Option.any_bind]
    exact any_congr_of_same (hpath p) fun v w hvw => Value.any_lookup_congr hvw key
  | eqLiteral p literal =>
    exact any_congr_of_same (hpath p) fun v w hvw => Value.same_congr_left hvw literal
  | sameValue p q =>
    -- Both sides of the comparison move at once.
    refine any_congr_of_same (hpath p) fun v w hvw => ?_
    exact any_congr_of_same (hpath q) fun v' w' hvw' => Value.same_congr hvw hvw'

theorem Plan.accepts_congr (p : Plan) {v w : Value} (h : v.same w = true) :
    p.accepts v = p.accepts w := by
  have hholds : ∀ g : Guard, g.holds v = g.holds w := fun g => g.holds_congr h
  simp only [accepts_eq_all_holds, hholds]

/-! ## Parts and arguments -/

namespace Path

/-- A path in one value and a path in another lead to related parts, or they are one path
and it leads nowhere in either. -/
def LeadTo (R : Value → Value → Prop) (v w : Value) (p q : Path) : Prop :=
  (p = q ∧ p.resolve v = none ∧ q.resolve w = none) ∨
    ∃ a b, p.resolve v = some a ∧ q.resolve w = some b ∧ R a b

/-- Paths lead to related parts, position by position, unless one of them leads nowhere; it
then stands in both lists, and is the first there to do so. -/
theorem resolveAll_related {R : Value → Value → Prop} {v w : Value} {ps qs : List Path}
    (h : List.Forall₂ (LeadTo R v w) ps qs) :
    (∃ p, resolveAll v ps = .error p ∧ resolveAll w qs = .error p) ∨
      ∃ vs ws, resolveAll v ps = .ok vs ∧ resolveAll w qs = .ok ws ∧ List.Forall₂ R vs ws := by
  induction h with
  | nil => exact .inr ⟨[], [], rfl, rfl, .nil⟩
  | @cons p q ps qs hpq _ ih =>
    rw [resolveAll, resolveAll]
    rcases hpq with ⟨rfl, hp, hq⟩ | ⟨a, b, hp, hq, hab⟩
    · exact .inl ⟨p, by rw [hp], by rw [hq]⟩
    · rw [hp, hq]
      rcases ih with ⟨s, hv, hw⟩ | ⟨vs, ws, hv, hw, hrest⟩
      · exact .inl ⟨s, by rw [hv]; rfl, by rw [hw]; rfl⟩
      · exact .inr ⟨a :: vs, b :: ws, by rw [hv]; rfl, by rw [hw]; rfl, .cons hab hrest⟩

theorem leadTo_same (p : Path) {v w : Value} (h : v.same w = true) :
    LeadTo Value.Same v w p p := by
  have hpath : Option.Rel Value.Same (p.resolve v) (p.resolve w) := p.resolve_same h
  rw [LeadTo]
  generalize p.resolve v = x at hpath ⊢
  generalize p.resolve w = y at hpath ⊢
  cases hpath with
  | none => exact .inl ⟨rfl, rfl, rfl⟩
  | @some a b hab => exact .inr ⟨a, b, rfl, rfl, hab⟩

/-- The same paths lead to the same parts of values that are the same. -/
theorem resolveAll_same (ps : List Path) {v w : Value} (h : v.same w = true) :
    (∃ p, resolveAll v ps = .error p ∧ resolveAll w ps = .error p) ∨
      ∃ vs ws, resolveAll v ps = .ok vs ∧ resolveAll w ps = .ok ws ∧
        Value.sameItems vs ws = true := by
  simp only [Value.sameItems_iff_forall₂]
  exact resolveAll_related (List.forall₂_same.mpr fun p _ => p.leadTo_same h)

end Path

/-- Equality of what a body receives, which is equality of the values it was taken from.
The name that an instance carries does not count. -/
def ArgType.same : (t : ArgType) → t.Carrier → t.Carrier → Bool
  | value, v, w => v.same w
  | int, m, n => m == n
  | float, x, y => x.same y
  | bool, a, b => a == b
  | char, c, d => c == d
  | str, s, t => s == t
  | object, o, o' => (Value.ofInstance o).same (Value.ofInstance o')
  | items, vs, ws => Value.sameItems vs ws
  | entries, es, fs => Value.sameEntries es fs

theorem ArgType.read?_same (t : ArgType) {v w : Value} (h : v.same w = true) :
    Option.Rel (t.same · · = true) (t.read? v) (t.read? w) := by
  cases t with
  | value => exact .some h
  | _ =>
    cases v <;> cases w <;>
      first
      | exact .none
      | exact .some h
      | cases h

namespace Args

/-- Arguments that are the same, one by one. -/
inductive Same : {ts : Signature} → Args ts → Args ts → Prop
  | nil : Same nil nil
  | cons {t : ArgType} {ts : Signature} {x y : t.Carrier} {xs ys : Args ts}
      (head : t.same x y = true) (tail : Same xs ys) : Same (cons x xs) (cons y ys)

theorem TakenFrom.same {ts : Signature} {xs ys : Args ts} {vs ws : List Value}
    (hxs : xs.TakenFrom vs) (hys : ys.TakenFrom ws) (h : Value.sameItems vs ws = true) :
    xs.Same ys := by
  induction hxs generalizing ws with
  | nil =>
    cases hys
    exact .nil
  | @cons t ts x xs v vs hx _ ih =>
    cases hys with
    | @cons _ _ y ys w ws hy hys =>
      simp only [Value.sameItems, Bool.and_eq_true] at h
      have hread : Option.Rel (t.same · · = true) (t.read? v) (t.read? w) := t.read?_same h.1
      rw [hx, hy] at hread
      cases hread with
      | some hxy => exact .cons hxy (ih hys h.2)

end Args

namespace Arm

variable {α : Type}

/-- The body of the arm runs on these arguments, taken from where the bindings lead. -/
def RunsOn (arm : Arm α) (v : Value) (args : Args arm.body.signature) : Prop :=
  ∃ parts, arm.parts v = .ok parts ∧ args.TakenFrom parts ∧
    arm.extract v = .ok ⟨arm.body.label, arm.body.run args⟩

theorem RunsOn.extract_eq {arm : Arm α} {v : Value} {args : Args arm.body.signature}
    (h : arm.RunsOn v args) : arm.extract v = .ok ⟨arm.body.label, arm.body.run args⟩ := by
  obtain ⟨parts, -, -, hextract⟩ := h
  exact hextract

end Arm

section Compiled

variable {α : Type} {c : Clause} {r : Registry} {limit : Nat} {body : Body α} {arm : Arm α}

/-- If the bound paths lead to parts of an accepted value, the body runs on these. -/
theorem Clause.exists_runsOn_of_parts (h : c.compile r limit body = .ok arm) {v : Value}
    (hv : arm.accepts v = true) {parts : List Value} (hparts : arm.parts v = .ok parts) :
    ∃ args, args.TakenFrom parts ∧ arm.RunsOn v args := by
  rw [Plan.accepts_eq_all_holds, List.all_eq_true] at hv
  obtain ⟨args, hargs⟩ := exists_takenFrom_of_parts h hv hparts
  exact ⟨args, hargs, parts, hparts, hargs, Arm.extract_of_takenFrom hparts hargs⟩

/-- A compiled clause that accepts values that are the same fails to extract from both,
for want of the same path, or runs its body on arguments that are the same. -/
theorem Clause.extract_same (h : c.compile r limit body = .ok arm) {v w : Value}
    (hvw : v.same w = true) (hv : arm.accepts v = true) :
    (∃ p, arm.extract v = .error (.noValueAt p) ∧ arm.extract w = .error (.noValueAt p)) ∨
      ∃ xs ys, arm.RunsOn v xs ∧ arm.RunsOn w ys ∧ xs.Same ys := by
  have hw : arm.accepts w = true := (arm.accepts_congr hvw).symm.trans hv
  have hparts : (∃ p, arm.parts v = .error p ∧ arm.parts w = .error p) ∨
      ∃ vs ws, arm.parts v = .ok vs ∧ arm.parts w = .ok ws ∧ Value.sameItems vs ws = true :=
    Path.resolveAll_same _ hvw
  rcases hparts with ⟨p, hpv, hpw⟩ | ⟨vs, ws, hvs, hws, hsame⟩
  · exact .inl ⟨p, Arm.extract_of_parts_eq_error hpv, Arm.extract_of_parts_eq_error hpw⟩
  · obtain ⟨xs, hxs, hrunv⟩ := exists_runsOn_of_parts h hv hvs
    obtain ⟨ys, hys, hrunw⟩ := exists_runsOn_of_parts h hw hws
    exact .inr ⟨xs, ys, hrunv, hrunw, hxs.same hys hsame⟩

end Compiled

namespace Chain

variable {α : Type} {ch : Chain α} {v w : Value}

/-! ## Chains -/

theorem FirstAccepts.congr {arms : List (Arm α)} {i : Nat} {arm : Arm α}
    (h : FirstAccepts arms v i arm) (hvw : v.same w = true) : FirstAccepts arms w i arm := by
  obtain ⟨harm, haccepts, hbefore⟩ := h
  refine ⟨harm, (arm.accepts_congr hvw).symm.trans haccepts, fun j hj other hother => ?_⟩
  exact (other.accepts_congr hvw).symm.trans (hbefore j hj other hother)

/-- How a chain evaluates two values alike: by its fallback, by one clause that misses the
same path in both, or by one clause that runs on arguments that are the same. -/
inductive EvaluatesAlike (ch : Chain α) (v w : Value) : Prop
  | fallback (f : Call α) (attached : ch.phase = .ready f)
      (none_v : ∀ arm ∈ ch.arms, arm.accepts v = false)
      (none_w : ∀ arm ∈ ch.arms, arm.accepts w = false)
      (answer_v : ch.evaluate v = .ok f) (answer_w : ch.evaluate w = .ok f)
  | missing (i : Nat) (arm : Arm α) (p : Path)
      (first_v : FirstAccepts ch.arms v i arm) (first_w : FirstAccepts ch.arms w i arm)
      (answer_v : ch.evaluate v = .error (.extract (.noValueAt p)))
      (answer_w : ch.evaluate w = .error (.extract (.noValueAt p)))
  | ran (i : Nat) (arm : Arm α) (xs ys : Args arm.body.signature)
      (first_v : FirstAccepts ch.arms v i arm) (first_w : FirstAccepts ch.arms w i arm)
      (runs_v : arm.RunsOn v xs) (runs_w : arm.RunsOn w ys) (same : xs.Same ys)
      (answer_v : ch.evaluate v = .ok ⟨arm.body.label, arm.body.run xs⟩)
      (answer_w : ch.evaluate w = .ok ⟨arm.body.label, arm.body.run ys⟩)

theorem evaluatesAlike_of_firstAccepts (hlazy : ch.mode.kind = .lazy) {f : Call α}
    (hphase : ch.phase = .ready f) (hcompiled : ch.AllCompiled) (hvw : v.same w = true) {i : Nat}
    {arm : Arm α} (hfirst : FirstAccepts ch.arms v i arm) : ch.EvaluatesAlike v w := by
  have hfirst' : FirstAccepts ch.arms w i arm := hfirst.congr hvw
  have hv : ch.evaluate v = (arm.extract v).mapError .extract :=
    (answersFirst hlazy hphase v).first i arm hfirst
  have hw : ch.evaluate w = (arm.extract w).mapError .extract :=
    (answersFirst hlazy hphase w).first i arm hfirst'
  obtain ⟨c, body, hcompile⟩ := hcompiled arm (List.mem_of_getElem? hfirst.1)
  rcases Clause.extract_same hcompile hvw hfirst.2.1 with ⟨p, hpv, hpw⟩ | ⟨xs, ys, hxs, hys, hsame⟩
  · refine .missing i arm p hfirst hfirst' ?_ ?_
    · rw [hv, hpv]; rfl
    · rw [hw, hpw]; rfl
  · refine .ran i arm xs ys hfirst hfirst' hxs hys hsame ?_ ?_
    · rw [hv, hxs.extract_eq]; rfl
    · rw [hw, hys.extract_eq]; rfl

/-- A sealed lazy chain cannot tell apart values that are the same, and neither can any of
its arms, a path or a tag. -/
theorem evaluate_respects_same (r : Registry) (limit : Nat) (ops : List (Operation α))
    (hready : ((unbound r limit : Chain α).after ops).isReady = true)
    (hvw : v.same w = true) :
    let ch : Chain α := (unbound r limit).after ops
    (∀ arm ∈ ch.arms, arm.accepts v = arm.accepts w) ∧
      ch.EvaluatesAlike v w ∧
      (∀ p : Path, Option.Rel Value.Same (p.resolve v) (p.resolve w)) ∧
      ∀ tag : Tag, tag.admits v = tag.admits w := by
  intro ch
  have haccepts : ∀ arm ∈ ch.arms, arm.accepts v = arm.accepts w :=
    fun arm _ => arm.accepts_congr hvw
  refine ⟨haccepts, ?_, fun p => p.resolve_same hvw, fun tag => tag.admits_congr hvw⟩
  have hfresh : (unbound r limit : Chain α).Settled := settled_start r limit none
  obtain ⟨hregistry, hlimit, hkind⟩ := kept_after hfresh ops
  have hcompiled : ch.AllCompiled := by
    rw [AllCompiled, hregistry, hlimit]
    exact allCompiled_after r limit ops
  obtain ⟨f, hphase⟩ := isReady_iff.mp hready
  cases hfind : ch.arms.find? (·.accepts v) with
  | some arm =>
    obtain ⟨i, hfirst⟩ := find?_eq_some_iff.mp hfind
    exact evaluatesAlike_of_firstAccepts hkind hphase hcompiled hvw hfirst
  | none =>
    have hnone_v : ∀ arm ∈ ch.arms, arm.accepts v = false := by
      simpa using List.find?_eq_none.mp hfind
    have hnone_w : ∀ arm ∈ ch.arms, arm.accepts w = false :=
      fun arm harm => (haccepts arm harm).symm.trans (hnone_v arm harm)
    exact .fallback f hphase hnone_v hnone_w ((answersFirst hkind hphase v).fallback hnone_v)
      ((answersFirst hkind hphase w).fallback hnone_w)

/-- A point whose first coordinate is zero, of either sign and under either name. -/
def origin (typeName : String) (sign : UInt64) : Value :=
  .object ⟨0⟩ typeName [.float ⟨sign <<< 63⟩, .unit]

theorem evaluate_respects_same_origin :
    let ch : Chain Value := (unbound Clause.points 3).after abscissaChain
    let v := origin "Point" 0
    let w := origin "Punkt" 1
    ch.isReady = true ∧ v.same w = true ∧ abscissaOnlyArm.accepts v = true ∧
      (∀ arm ∈ ch.arms, arm.accepts v = arm.accepts w) ∧ ch.EvaluatesAlike v w := by
  intro ch v w
  have hready : ch.isReady = true := rfl
  have hvw : v.same w = true := by decide
  obtain ⟨haccepts, halike, -⟩ := evaluate_respects_same Clause.points 3 abscissaChain hready hvw
  exact ⟨hready, hvw, by decide, haccepts, halike⟩

end Chain
end Destructure
