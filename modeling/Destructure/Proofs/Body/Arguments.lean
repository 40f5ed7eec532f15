/-
Taking values as typed arguments.

Whether a value can be taken in a type is decided by the tag of the type, and by
nothing else.  So values that carry the tags of a signature, one for each argument,
can all be taken, and the body runs.  A declared type only narrows the tag of an
argument, hence never spoils this.
-/
import Destructure.Body
import Destructure.Proofs.Tag.Intersection

namespace Destructure

theorem Clause.admits_of_paramTag {c : Clause} {name : String} {body tag : Tag} {v : Value}
    (h : c.paramTag name body = .ok tag) (hv : tag.admits v = true) : body.admits v = true := by
  unfold paramTag at h
  split at h
  · cases h
    exact hv
  · split at h
    · cases h
      exact ((Tag.admits_of_narrow_eq_some ‹_› v).mp hv).2
    · cases h

theorem ArgType.isSome_read? (t : ArgType) (v : Value) : (t.read? v).isSome = t.tag.admits v := by
  cases t <;> cases v <;> rfl

namespace Args

/-- The arguments are these values, each taken in the type of its place. -/
inductive TakenFrom : {ts : Signature} → Args ts → List Value → Prop
  | nil : TakenFrom nil []
  | cons {t : ArgType} {ts : Signature} {x : t.Carrier} {xs : Args ts} {v : Value}
      {vs : List Value} (head : t.read? v = some x) (tail : TakenFrom xs vs) :
      TakenFrom (cons x xs) (v :: vs)

theorem TakenFrom.ofValues_eq_ok {ts : Signature} {args : Args ts} {vs : List Value}
    (h : args.TakenFrom vs) : ofValues ts vs = .ok args := by
  induction h with
  | nil => rfl
  | cons head _ ih =>
    rw [ofValues, head]
    simp only [ih, Except.map]

/-- Values with the tags of the signature can be taken as its arguments. -/
theorem exists_takenFrom {ts : List ArgType} {vs : List Value} (hlen : vs.length = ts.length)
    (h : ∀ (i : Nat) t v, ts[i]? = some t → vs[i]? = some v → t.tag.admits v = true) :
    ∃ args : Args ts, args.TakenFrom vs := by
  induction ts generalizing vs with
  | nil =>
    rw [List.length_nil, List.length_eq_zero_iff] at hlen
    subst hlen
    exact ⟨.nil, .nil⟩
  | cons t ts ih =>
    cases vs with
    | nil => simp at hlen
    | cons v vs =>
      rw [List.length_cons, List.length_cons] at hlen
      have hread : (t.read? v).isSome = true := by
        rw [ArgType.isSome_read?]
        exact h 0 t v rfl rfl
      obtain ⟨x, hx⟩ := Option.isSome_iff_exists.mp hread
      obtain ⟨xs, hxs⟩ := ih (by omega) fun i t v ht hv => h (i + 1) t v ht hv
      exact ⟨.cons x xs, .cons hx hxs⟩

end Args
end Destructure
