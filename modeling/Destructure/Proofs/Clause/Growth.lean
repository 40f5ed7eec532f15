/-
Clauses against a registry that grows.

A type keeps its number and its declaration when further types are registered, so a lookup
that found something finds it again, and one that failed for anything but an unregistered
type fails again for the same reason.  A clause is laid out by such lookups alone.  It
therefore compiles to the same in the larger registry, and its first error stays the first
unless it was that of a type which may be registered by now.
-/
import Destructure.Proofs.Clause.Faults
import Destructure.Proofs.Clause.NamedConstruction
import Destructure.Proofs.Clause.Parallel

namespace Destructure

/-- The first result is the second as well, or else it is that a type is not registered. -/
def Steady {β : Type} (x x' : Except ClauseError β) : Prop :=
  x = x' ∨ ∃ t, x = .error (.unknownType t)

namespace Steady

variable {β γ : Type} {x x' : Except ClauseError β}

theorem refl (x : Except ClauseError β) : Steady x x := .inl rfl

theorem bind (h : Steady x x') {k k' : β → Except ClauseError γ} (hk : ∀ b, Steady (k b) (k' b)) :
    Steady (x.bind k) (x'.bind k') := by
  rcases h with rfl | ⟨t, rfl⟩
  · cases x with
    | error e => exact refl _
    | ok b => exact hk b
  · exact .inr ⟨t, rfl⟩

theorem map (h : Steady x x') (f : β → γ) : Steady (x.map f) (x'.map f) := by
  rcases h with rfl | ⟨t, rfl⟩
  · exact refl _
  · exact .inr ⟨t, rfl⟩

theorem eq_ok (h : Steady x x') {b : β} (hx : x = .ok b) : x' = .ok b := by
  rcases h with rfl | ⟨t, ht⟩
  · exact hx
  · rw [ht] at hx
    cases hx

theorem eq_error (h : Steady x x') {e : ClauseError} (hx : x = .error e)
    (he : ∀ t, e ≠ .unknownType t) : x' = .error e := by
  rcases h with rfl | ⟨t, ht⟩
  · exact hx
  · rw [ht] at hx
    cases hx
    exact absurd rfl (he t)

end Steady

namespace Registry

variable {r r' : Registry}

/-! ## Lookups -/

theorem GrowsTo.typeDecl (h : r.GrowsTo r') (t : TypeId) :
    Steady (r.typeDecl t) (r'.typeDecl t) := by
  cases hd : r.get? t with
  | none => exact .inr ⟨t, by rw [Registry.typeDecl, hd]⟩
  | some d => exact .inl (by rw [typeDecl_of_get? hd, typeDecl_of_get? (h.get? hd)])

theorem GrowsTo.constructor (h : r.GrowsTo r') (t : TypeId) (arity : Nat) :
    Steady (r.constructor t arity) (r'.constructor t arity) := by
  rw [constructor_eq_bind, constructor_eq_bind]
  exact (h.typeDecl t).bind fun d => .refl _

theorem GrowsTo.field (h : r.GrowsTo r') (t : TypeId) (name : String) :
    Steady (r.field t name) (r'.field t name) := by
  rw [field_eq_bind, field_eq_bind]
  exact (h.typeDecl t).bind fun d => .refl _

theorem GrowsTo.argField (h : r.GrowsTo r') (t : TypeId) (arity i : Nat) :
    Steady (r.argField t arity i) (r'.argField t arity i) := by
  rw [argField_eq_bind, argField_eq_bind]
  refine (h.typeDecl t).bind fun d => (h.constructor t arity).bind fun c => ?_
  cases c.params[i]? with
  | none => exact .refl _
  | some param =>
    obtain ⟨label, field?⟩ := param
    cases field? with
    | none => exact .refl _
    | some name => exact h.field t name

theorem GrowsTo.instantiate (h : r.GrowsTo r') {t : TypeId} {fields : List Value} {v : Value}
    (hv : r.instantiate t fields = .ok v) : r'.instantiate t fields = .ok v := by
  obtain ⟨d, hd, hcount, hv⟩ := instantiate_eq_ok_iff.mp hv
  exact instantiate_eq_ok_iff.mpr ⟨d, h.get? hd, hcount, hv⟩

end Registry

/-! ## Clauses -/

namespace Shape

/-- A shape is laid out in the larger registry as before. -/
theorem steady_demands {r r' : Registry} (h : r.GrowsTo r') (declared : List String) (p : Path)
    (s : Shape) : Steady (demands r declared p s) (demands r' declared p s) := by
  have hparallel : Parallel id s.mentions r r' declared declared Steady :=
    { guards := fun gs => .refl _
      repeatedKey := fun key => .refl _
      tooLong := .refl _
      repeatedField := fun name => .refl _
      andThen := fun hx hy => by
        rw [andThen_eq_bind, andThen_eq_bind]
        exact hx.bind fun ds => hy.bind fun es => .refl _
      constructor := fun t arity k k' hk => (h.constructor t arity).bind hk
      argField := fun t arity i k k' hk => (h.argField t arity i).bind hk
      field := fun t name k k' hk => (h.field t name).bind hk
      var := fun x _ p => .refl _ }
  have hs := hparallel.demands_rename (List.Subset.refl s.mentions) p
  rwa [rename_id] at hs

end Shape

namespace Clause

variable {r r' : Registry} {c : Clause}

theorem steady_compilePlan (h : r.GrowsTo r') (c : Clause) (limit : Nat) (tags : List Tag) :
    Steady (c.compilePlan r limit tags) (c.compilePlan r' limit tags) := by
  rw [compilePlan_eq_bind, compilePlan_eq_bind]
  refine (Steady.refl _).bind fun assigned => ?_
  by_cases hdeep : limit < c.shape.depth
  · rw [if_pos hdeep, if_pos hdeep]
    exact .refl _
  · rw [if_neg hdeep, if_neg hdeep, plan_eq_bind, plan_eq_bind]
    exact (Shape.steady_demands h c.params Path.root c.shape).bind fun ds => .refl _

theorem steady_compile {α : Type} (h : r.GrowsTo r') (c : Clause) (limit : Nat) (body : Body α) :
    Steady (c.compile r limit body) (c.compile r' limit body) := by
  rw [compile, compile]
  exact (steady_compilePlan h c limit body.tags).map _

/-- Registering further types changes nothing for what is there.  A clause that compiles
compiles to the same guards and bindings, one that is rejected is rejected with the same
error unless a type was not registered, and an instance that can be made is made the same. -/
theorem growth_keeps {α : Type} (h : r.GrowsTo r') (c : Clause) (limit : Nat) (body : Body α) :
    (∀ arm, c.compile r limit body = .ok arm → c.compile r' limit body = .ok arm) ∧
      (∀ e, c.compile r limit body = .error e → (∀ t, e ≠ .unknownType t) →
        c.compile r' limit body = .error e) ∧
      ∀ t fields v, r.instantiate t fields = .ok v → r'.instantiate t fields = .ok v := by
  have hsteady : Steady (c.compile r limit body) (c.compile r' limit body) :=
    steady_compile h c limit body
  exact ⟨fun arm harm => hsteady.eq_ok harm, fun e he hknown => hsteady.eq_error he hknown,
    fun t fields v hv => h.instantiate hv⟩

/-- Only the clause on a type that was not there yet fares otherwise once it is: it was
rejected for this and is now rejected for its next error. -/
theorem growth_keeps_points :
    let grown := points.registerAll [pair]
    let unknown := Clause.ofParams ["a"] (.sequence .list [.construct ⟨1⟩ [], .var "b"])
    let p := Value.object ⟨0⟩ "Point" [.int 3, .float .nan]
    points.GrowsTo grown ∧ abscissaClause.compile points 3 echo = .ok abscissaArm ∧
      abscissaClause.compile grown 3 echo = .ok abscissaArm ∧
      halfPoint.compile grown 3 echo = .error (.unsupported (.noConstructor "Point" 1)) ∧
      unknown.compile points 3 echo = .error (.unknownType ⟨1⟩) ∧
      unknown.compile grown 3 echo = .error (.undeclaredVariable "b") ∧
      grown.instantiate ⟨0⟩ [.int 3, .float .nan] = .ok p := by
  intro grown unknown p
  have h : points.GrowsTo grown := ⟨[pair], rfl⟩
  obtain ⟨hcompiled, -, hmade⟩ := growth_keeps h abscissaClause 3 echo
  obtain ⟨-, hrejected, -⟩ := growth_keeps h halfPoint 3 echo
  exact ⟨h, rfl, hcompiled abscissaArm rfl, hrejected _ rfl nofun, rfl, rfl, hmade _ _ p rfl⟩

end Clause
end Destructure
