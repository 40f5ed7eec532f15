/-
What a lookup finds, and why it fails.

A lookup in a registry goes from the type to its constructor or field, and through the
parameter in between when it starts from an argument.  For each of them there is one
lemma on what it found and one on the error it ends with, so that nothing else has to
follow its steps.
-/
import Destructure.Registry.Lookup

namespace Destructure
namespace Registry

variable {r : Registry} {t : TypeId} {d : TypeDecl} {ctor : Constructor} {arity i : Nat}
  {name : String} {f : Field} {e : ClauseError}

/-! ## Step by step -/

theorem constructor_eq_bind (r : Registry) (t : TypeId) (arity : Nat) :
    r.constructor t arity = (r.typeDecl t).bind fun d =>
      match d.constructor? arity with
      | some c => .ok c
      | none => .error (.unsupported (.noConstructor d.name arity)) := by
  rw [constructor]
  cases r.typeDecl t <;> rfl

theorem field_eq_bind (r : Registry) (t : TypeId) (name : String) :
    r.field t name = (r.typeDecl t).bind fun d =>
      match d.fieldIndex? name with
      | some i => .ok ⟨i, name⟩
      | none => .error (.unknownField d.name name) := by
  rw [field]
  cases r.typeDecl t <;> rfl

theorem argField_eq_bind (r : Registry) (t : TypeId) (arity i : Nat) :
    r.argField t arity i = (r.typeDecl t).bind fun d => (r.constructor t arity).bind fun c =>
      match c.params[i]? with
      | none => .error (.unsupported (.argumentOutOfRange d.name arity i))
      | some ⟨param, none⟩ => .error (.missingMapping d.name i param)
      | some ⟨_, some name⟩ => r.field t name := by
  rw [argField]
  cases r.typeDecl t with
  | error e => rfl
  | ok d => cases r.constructor t arity <;> rfl

/-! ## Found -/

theorem typeDecl_of_get? (h : r.get? t = some d) : r.typeDecl t = .ok d := by
  rw [typeDecl, h]

theorem typeDecl_eq_ok (h : r.typeDecl t = .ok d) : r.get? t = some d := by
  unfold typeDecl at h
  cases hd : r.get? t with
  | none => simp [hd] at h
  | some d' => simpa [hd] using h

theorem constructor_eq_ok (h : r.constructor t arity = .ok ctor) :
    ∃ d, r.get? t = some d ∧ ctor ∈ d.constructors ∧ ctor.arity = arity := by
  unfold constructor at h
  cases ht : r.typeDecl t with
  | error e => simp [ht] at h
  | ok d =>
    cases hctor : d.constructor? arity with
    | none => simp [ht, hctor] at h
    | some found =>
      simp only [ht, hctor, Except.ok.injEq] at h
      subst h
      have harity : found.arity = arity := by simpa using List.find?_some hctor
      exact ⟨d, typeDecl_eq_ok ht, List.mem_of_find?_eq_some hctor, harity⟩

/-- A field that is found stands at its position in the declaration of the type. -/
theorem field_eq_ok (h : r.field t name = .ok f) :
    ∃ d, r.get? t = some d ∧ d.fields[f.index]? = some f.name ∧ f.name = name := by
  unfold field at h
  cases ht : r.typeDecl t with
  | error e => simp [ht] at h
  | ok d =>
    cases hi : d.fieldIndex? name with
    | none => simp [ht, hi] at h
    | some i =>
      simp only [ht, hi, Except.ok.injEq] at h
      subst h
      obtain ⟨hlt, hname, -⟩ := List.idxOf?_eq_some_iff.mp hi
      exact ⟨d, typeDecl_eq_ok ht, List.getElem?_eq_some_iff.mpr ⟨hlt, hname⟩, rfl⟩

theorem mem_fields_of_field_eq_ok (hd : r.get? t = some d) (h : r.field t name = .ok f) :
    name ∈ d.fields := by
  obtain ⟨d', hd', hindex, rfl⟩ := field_eq_ok h
  rw [hd, Option.some.injEq] at hd'
  rw [hd']
  exact List.mem_of_getElem? hindex

/-- The field of an argument is a field of the type, found by the name that the
constructor's parameter gives. -/
theorem argField_eq_ok (h : r.argField t arity i = .ok f) : ∃ name, r.field t name = .ok f := by
  unfold argField at h
  split at h
  · cases h
  · cases h
  · split at h
    · cases h
    · cases h
    · exact ⟨_, h⟩

/-! ## Not found -/

theorem typeDecl_eq_error (h : r.typeDecl t = .error e) :
    r.get? t = none ∧ e = .unknownType t := by
  unfold typeDecl at h
  cases ht : r.get? t with
  | none => simpa [ht, eq_comm] using h
  | some d => simp [ht] at h

theorem constructor_eq_error (h : r.constructor t arity = .error e) :
    (r.get? t = none ∧ e = .unknownType t) ∨
      ∃ d, r.get? t = some d ∧ (∀ ctor ∈ d.constructors, ctor.arity ≠ arity) ∧
        e = .unsupported (.noConstructor d.name arity) := by
  unfold constructor at h
  cases ht : r.typeDecl t with
  | error e' =>
    simp only [ht, Except.error.injEq] at h
    exact .inl (h ▸ typeDecl_eq_error ht)
  | ok d =>
    cases hctor : d.constructor? arity with
    | some ctor => simp [ht, hctor] at h
    | none =>
      simp only [ht, hctor, Except.error.injEq] at h
      have hother : ∀ ctor ∈ d.constructors, ctor.arity ≠ arity := by
        simpa using List.find?_eq_none.mp hctor
      exact .inr ⟨d, typeDecl_eq_ok ht, hother, h.symm⟩

theorem field_eq_error (hd : r.get? t = some d) (h : r.field t name = .error e) :
    name ∉ d.fields ∧ e = .unknownField d.name name := by
  rw [field, typeDecl_of_get? hd] at h
  cases hindex : d.fieldIndex? name with
  | some i => simp [hindex] at h
  | none =>
    simp only [hindex, Except.error.injEq] at h
    exact ⟨List.idxOf?_eq_none_iff.mp hindex, h.symm⟩

end Registry
end Destructure
