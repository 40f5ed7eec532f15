/-
Reading the fields of an instance.

An instance holds its values in the order in which its type declares the fields.  No field
of a registered type is declared twice, so the names and the positions of its fields
determine each other (`field_eq_ok_iff`), and the step of a field reads the value that the
instance was made with under that name.  An argument of a constructor is read as the field
that the parameter at its position names (`argField_eq_ok_iff`).  What a lookup ends with
otherwise is the first thing that is missing on the way: the type, the constructor, the
parameter, the name that the parameter gives, the field.
-/
import Destructure.Clause.WellFormed
import Destructure.Proofs.Registry.Lookup
import Destructure.Proofs.Registry.Registered

namespace Destructure
namespace Registry

/-- The type is registered, and this is its constructor for so many arguments. -/
structure ConstructedBy (r : Registry) (t : TypeId) (arity : Nat) (d : TypeDecl)
    (ctor : Constructor) : Prop where
  registered : r.get? t = some d
  listed : ctor ∈ d.constructors
  arity : ctor.arity = arity

/-- Why the type has no field of this name. -/
inductive FieldFault (r : Registry) (t : TypeId) (name : String) : ClauseError → Prop
  | unknownType (unregistered : r.get? t = none) : FieldFault r t name (.unknownType t)
  | unknownField {d} (registered : r.get? t = some d) (undeclared : name ∉ d.fields) :
      FieldFault r t name (.unknownField d.name name)

/-- Why the argument at position `i` of the constructor for so many arguments is no field of
the type. -/
inductive ArgFault (r : Registry) (t : TypeId) (arity i : Nat) : ClauseError → Prop
  | unknownType (unregistered : r.get? t = none) : ArgFault r t arity i (.unknownType t)
  | noConstructor {d} (registered : r.get? t = some d)
      (other : ∀ ctor ∈ d.constructors, ctor.arity ≠ arity) :
      ArgFault r t arity i (.unsupported (.noConstructor d.name arity))
  | argumentOutOfRange {d ctor} (constructed : r.ConstructedBy t arity d ctor)
      (out : arity ≤ i) : ArgFault r t arity i (.unsupported (.argumentOutOfRange d.name arity i))
  | missingMapping {d ctor param} (constructed : r.ConstructedBy t arity d ctor)
      (unmapped : ctor.params[i]? = some ⟨param, none⟩) :
      ArgFault r t arity i (.missingMapping d.name i param)
  | unknownField {d ctor param name} (constructed : r.ConstructedBy t arity d ctor)
      (mapped : ctor.params[i]? = some ⟨param, some name⟩) (undeclared : name ∉ d.fields) :
      ArgFault r t arity i (.unknownField d.name name)

variable {r : Registry} {t : TypeId} {d : TypeDecl} {ctor : Constructor} {arity i : Nat}
  {name : String} {f : Field} {e : ClauseError} {vs : List Value} {o : Value}

/-! ## Fields by name -/

theorem exists_field_of_mem (hd : r.get? t = some d) (h : name ∈ d.fields) :
    ∃ f, r.field t name = .ok f := by
  cases hfield : r.field t name with
  | ok f => exact ⟨f, rfl⟩
  | error e => exact absurd h (field_eq_error hd hfield).1

theorem exists_field_iff :
    (∃ f, r.field t name = .ok f) ↔ ∃ d, r.get? t = some d ∧ name ∈ d.fields := by
  constructor
  · rintro ⟨f, h⟩
    obtain ⟨d, hd, -⟩ := field_eq_ok h
    exact ⟨d, hd, mem_fields_of_field_eq_ok hd h⟩
  · rintro ⟨d, hd, hname⟩
    exact exists_field_of_mem hd hname

/-- A name leads to the one position at which it is declared. -/
theorem field_eq_ok_iff (hr : r.Reachable) (hd : r.get? t = some d) :
    r.field t name = .ok f ↔ d.fields[f.index]? = some name ∧ f.name = name := by
  constructor
  · intro h
    obtain ⟨d', hd', hindex, rfl⟩ := field_eq_ok h
    rw [hd, Option.some.injEq] at hd'
    exact ⟨hd' ▸ hindex, rfl⟩
  · rintro ⟨hposition, rfl⟩
    have hindex : d.fieldIndex? f.name = some f.index :=
      (hr.distinct_of_get? hd).fieldIndex?_eq_some_iff.mpr hposition
    rw [field, typeDecl_of_get? hd]
    simp only [hindex]

theorem field_eq_error_iff : r.field t name = .error e ↔ FieldFault r t name e := by
  constructor
  · intro h
    cases hd : r.get? t with
    | none =>
      rw [field, typeDecl, hd] at h
      cases h
      exact .unknownType hd
    | some d =>
      obtain ⟨hname, rfl⟩ := field_eq_error hd h
      exact .unknownField hd hname
  · intro h
    cases h with
    | unknownType unregistered => rw [field, typeDecl, unregistered]
    | @unknownField d registered undeclared =>
      have hnone : d.fieldIndex? name = none := List.idxOf?_eq_none_iff.mpr undeclared
      rw [field, typeDecl_of_get? registered]
      simp only [hnone]

/-! ## Fields of arguments -/

theorem constructor_of_mem (hr : r.Reachable) (hd : r.get? t = some d)
    (hctor : ctor ∈ d.constructors) : r.constructor t ctor.arity = .ok ctor := by
  have hfound : d.constructor? ctor.arity = some ctor :=
    (hr.distinct_of_get? hd).constructor?_eq_some_iff.mpr ⟨hctor, rfl⟩
  rw [constructor, typeDecl_of_get? hd]
  simp only [hfound]

theorem constructor_eq_ok_iff (hr : r.Reachable) :
    r.constructor t arity = .ok ctor ↔ ∃ d, r.ConstructedBy t arity d ctor := by
  constructor
  · intro h
    obtain ⟨d, hd, hmem, harity⟩ := constructor_eq_ok h
    exact ⟨d, hd, hmem, harity⟩
  · rintro ⟨d, hd, hmem, rfl⟩
    exact constructor_of_mem hr hd hmem

/-- The field of an argument is settled by the parameter at its position. -/
theorem ConstructedBy.argField_eq (hr : r.Reachable) (h : r.ConstructedBy t arity d ctor)
    (i : Nat) :
    r.argField t arity i =
      match ctor.params[i]? with
      | none => .error (.unsupported (.argumentOutOfRange d.name arity i))
      | some ⟨param, none⟩ => .error (.missingMapping d.name i param)
      | some ⟨_, some name⟩ => r.field t name := by
  have hbind := argField_eq_bind r t arity i
  rw [typeDecl_of_get? h.registered, (constructor_eq_ok_iff hr).mpr ⟨d, h⟩] at hbind
  exact hbind

/-- The field of an argument is the one that its parameter names. -/
theorem argField_eq_field (hr : r.Reachable) (hd : r.get? t = some d)
    (hctor : ctor ∈ d.constructors)
    (hparam : (ctor.params.map Param.field?)[i]? = some (some name)) :
    r.argField t ctor.arity i = r.field t name := by
  have h : r.ConstructedBy t ctor.arity d ctor := ⟨hd, hctor, rfl⟩
  rw [List.getElem?_map] at hparam
  obtain ⟨⟨label, field?⟩, hi, rfl⟩ := Option.map_eq_some_iff.mp hparam
  rw [h.argField_eq hr, hi]

theorem argField_eq_ok_iff (hr : r.Reachable) :
    r.argField t arity i = .ok f ↔ ∃ d ctor param name, r.ConstructedBy t arity d ctor ∧
      ctor.params[i]? = some ⟨param, some name⟩ ∧ r.field t name = .ok f := by
  constructor
  · intro h
    cases hctor : r.constructor t arity with
    | error e =>
      rw [argField_eq_bind, hctor] at h
      cases hdecl : r.typeDecl t <;> rw [hdecl] at h <;> cases h
    | ok ctor =>
      obtain ⟨d, hd⟩ := (constructor_eq_ok_iff hr).mp hctor
      rw [hd.argField_eq hr] at h
      split at h
      · cases h
      · cases h
      next name hparam => exact ⟨d, ctor, _, name, hd, hparam, h⟩
  · rintro ⟨d, ctor, param, name, hd, hparam, hfield⟩
    rw [hd.argField_eq hr, hparam]
    exact hfield

theorem argField_eq_error_iff (hr : r.Reachable) :
    r.argField t arity i = .error e ↔ ArgFault r t arity i e := by
  constructor
  · intro h
    cases hctor : r.constructor t arity with
    | error e' =>
      rcases constructor_eq_error hctor with ⟨hnone, rfl⟩ | ⟨d, hd, hother, rfl⟩
      · rw [argField_eq_bind, typeDecl, hnone] at h
        cases h
        exact .unknownType hnone
      · rw [argField_eq_bind, typeDecl_of_get? hd, hctor] at h
        cases h
        exact .noConstructor hd hother
    | ok ctor =>
      obtain ⟨d, hd⟩ := (constructor_eq_ok_iff hr).mp hctor
      rw [hd.argField_eq hr] at h
      split at h
      next hparam =>
        cases h
        exact .argumentOutOfRange hd (hd.arity ▸ List.getElem?_eq_none_iff.mp hparam)
      next param hparam =>
        cases h
        exact .missingMapping hd hparam
      next param name hparam =>
        obtain ⟨hname, rfl⟩ := field_eq_error hd.registered h
        exact .unknownField hd hparam hname
  · intro h
    cases h with
    | unknownType unregistered =>
      rw [argField_eq_bind, typeDecl, unregistered]
      rfl
    | @noConstructor d registered other =>
      have hnone : d.constructor? arity = none := List.find?_eq_none.mpr (by simpa using other)
      rw [argField_eq_bind, constructor, typeDecl_of_get? registered]
      simp only [hnone]
      rfl
    | @argumentOutOfRange d ctor constructed out =>
      have hnone : ctor.params[i]? = none :=
        List.getElem?_eq_none_iff.mpr (Nat.le_trans (Nat.le_of_eq constructed.arity) out)
      rw [constructed.argField_eq hr, hnone]
    | missingMapping constructed unmapped => rw [constructed.argField_eq hr, unmapped]
    | unknownField constructed mapped undeclared =>
      rw [constructed.argField_eq hr, mapped]
      exact field_eq_error_iff.mpr (.unknownField constructed.registered undeclared)

theorem exists_argField_iff (hr : r.Reachable) :
    (∃ f, r.argField t arity i = .ok f) ↔
      ∃ d ctor, r.ConstructedBy t arity d ctor ∧ i < arity ∧ d.Initialises ctor i := by
  constructor
  · rintro ⟨f, h⟩
    obtain ⟨d, ctor, param, name, hd, hparam, hfield⟩ := (argField_eq_ok_iff hr).mp h
    have hlt : i < ctor.arity := (List.getElem?_eq_some_iff.mp hparam).1
    exact ⟨d, ctor, hd, hd.arity ▸ hlt, param, name, hparam,
      mem_fields_of_field_eq_ok hd.registered hfield⟩
  · rintro ⟨d, ctor, hd, -, param, name, hparam, hname⟩
    obtain ⟨f, hf⟩ := exists_field_of_mem hd.registered hname
    exact ⟨f, (argField_eq_ok_iff hr).mpr ⟨d, ctor, param, name, hd, hparam, hf⟩⟩

/-! ## Instances -/

/-- Every position is that of one name. -/
theorem existsUnique_name (hr : r.Reachable) (hd : r.get? t = some d) (hi : i < d.fields.length) :
    ∃! name, ∃ f, r.field t name = .ok f ∧ f.index = i := by
  have hname : d.fields[i]? = some d.fields[i] := List.getElem?_eq_getElem hi
  refine ⟨d.fields[i], ⟨⟨i, d.fields[i]⟩, (field_eq_ok_iff hr hd).mpr ⟨hname, rfl⟩, rfl⟩, ?_⟩
  rintro name ⟨f, hf, rfl⟩
  have hother : d.fields[f.index]? = some name := ((field_eq_ok_iff hr hd).mp hf).1
  exact Option.some.inj (hother.symm.trans hname)

/-- The step of a field reads what the instance was made with at its position. -/
theorem follow_of_instantiate (ho : r.instantiate t vs = .ok o) (hf : r.field t name = .ok f) :
    ∃ v, vs[f.index]? = some v ∧ f.step.follow o = some v := by
  obtain ⟨d, hd, hcount, rfl⟩ := instantiate_eq_ok_iff.mp ho
  obtain ⟨d', hd', hindex, -⟩ := field_eq_ok hf
  rw [hd, Option.some.injEq] at hd'
  have hlt : f.index < vs.length := by
    rw [hcount, hd']
    exact (List.getElem?_eq_some_iff.mp hindex).1
  exact ⟨vs[f.index], List.getElem?_eq_getElem hlt, List.getElem?_eq_getElem hlt⟩

/-- Fields read what instances are made with.  A name is a field exactly when the type
declares it, the position of the field is the only one where the name is declared, and the
step of the field reads the value at this position.  So distinct names read distinct
positions, and every position is read by one name.  An argument is a field exactly when its
parameter gives the name of a field, and then it is this field.  Every other lookup ends with
the first fault on its way. -/
theorem fields_read_stored (hr : r.Reachable) (t : TypeId) :
    (∀ name, (∃ f, r.field t name = .ok f) ↔ ∃ d, r.get? t = some d ∧ name ∈ d.fields) ∧
      (∀ d name f, r.get? t = some d → r.field t name = .ok f →
        f.name = name ∧ ∀ i, d.fields[i]? = some name ↔ i = f.index) ∧
      (∀ name e, r.field t name = .error e ↔ FieldFault r t name e) ∧
      (∀ vs o name f, r.instantiate t vs = .ok o → r.field t name = .ok f →
        ∃ v, vs[f.index]? = some v ∧ f.step.follow o = some v) ∧
      (∀ name name' f f', r.field t name = .ok f → r.field t name' = .ok f' → name ≠ name' →
        f.index ≠ f'.index) ∧
      (∀ d, r.get? t = some d → ∀ i < d.fields.length,
        ∃! name, ∃ f, r.field t name = .ok f ∧ f.index = i) ∧
      (∀ arity i, (∃ f, r.argField t arity i = .ok f) ↔
        ∃ d ctor, r.ConstructedBy t arity d ctor ∧ i < arity ∧ d.Initialises ctor i) ∧
      (∀ arity i d ctor param name, r.ConstructedBy t arity d ctor →
        ctor.params[i]? = some ⟨param, some name⟩ → r.argField t arity i = r.field t name) ∧
      ∀ arity i e, r.argField t arity i = .error e ↔ ArgFault r t arity i e := by
  refine ⟨fun name => exists_field_iff, ?position, fun name e => field_eq_error_iff,
    fun vs o name f => follow_of_instantiate, ?injective, fun d hd i => existsUnique_name hr hd,
    fun arity i => exists_argField_iff hr, ?named, fun arity i e => argField_eq_error_iff hr⟩
  case position =>
    intro d name f hd hf
    obtain ⟨hindex, hname⟩ := (field_eq_ok_iff hr hd).mp hf
    refine ⟨hname, fun i => ⟨fun hi => ?_, fun hi => hi ▸ hindex⟩⟩
    have hother : r.field t name = .ok ⟨i, name⟩ := (field_eq_ok_iff hr hd).mpr ⟨hi, rfl⟩
    rw [hf, Except.ok.injEq] at hother
    rw [hother]
  case injective =>
    intro name name' f f' hf hf' hne heq
    obtain ⟨d, hd, hindex, rfl⟩ := field_eq_ok hf
    have hindex' : d.fields[f'.index]? = some name' := ((field_eq_ok_iff hr hd).mp hf').1
    rw [heq, hindex'] at hindex
    exact hne (Option.some.inj hindex).symm
  case named =>
    intro arity i d ctor param name hd hparam
    rw [hd.argField_eq hr, hparam]

/-- A type whose constructor takes the end first, something that is not kept, and something
that is no field. -/
def segment : TypeDecl :=
  ⟨"Segment", ["start", "stop"],
    [⟨[.mappedAs "end" "stop", .unmapped "weight", .mapped "middle"]⟩]⟩

theorem fields_read_stored_segment :
    let r : Registry := ⟨[segment]⟩
    let o := Value.object ⟨0⟩ "Segment" [.int 1, .int 2]
    r.Reachable ∧ r.instantiate ⟨0⟩ [.int 1, .int 2] = .ok o ∧
      r.argField ⟨0⟩ 3 0 = r.field ⟨0⟩ "stop" ∧ r.field ⟨0⟩ "stop" = .ok ⟨1, "stop"⟩ ∧
      (∃ v, [Value.int 1, .int 2][1]? = some v ∧ (Field.mk 1 "stop").step.follow o = some v) ∧
      r.field ⟨0⟩ "middle" = .error (.unknownField "Segment" "middle") ∧
      r.argField ⟨0⟩ 3 1 = .error (.missingMapping "Segment" 1 "weight") ∧
      r.argField ⟨0⟩ 3 2 = .error (.unknownField "Segment" "middle") ∧
      r.argField ⟨0⟩ 3 3 = .error (.unsupported (.argumentOutOfRange "Segment" 3 3)) ∧
      r.argField ⟨0⟩ 2 0 = .error (.unsupported (.noConstructor "Segment" 2)) ∧
      r.argField ⟨1⟩ 3 0 = .error (.unknownType ⟨1⟩) := by
  intro r o
  have hr : r.Reachable := ⟨[segment], by decide⟩
  have hd : r.get? ⟨0⟩ = some segment := rfl
  have hctor : r.ConstructedBy ⟨0⟩ 3 segment _ := ⟨hd, List.mem_cons_self, rfl⟩
  have hmade : r.instantiate ⟨0⟩ [.int 1, .int 2] = .ok o := rfl
  have hstop : r.field ⟨0⟩ "stop" = .ok ⟨1, "stop"⟩ := rfl
  obtain ⟨-, -, hfault, hread, -, -, -, hnamed, hargFault⟩ := fields_read_stored hr ⟨0⟩
  obtain ⟨-, -, -, -, -, -, -, -, hunregistered⟩ := fields_read_stored hr ⟨1⟩
  have hmiddle : "middle" ∉ segment.fields := by decide
  exact ⟨hr, hmade, hnamed 3 0 segment _ _ _ hctor rfl, hstop, hread _ o _ _ hmade hstop,
    (hfault _ _).mpr (.unknownField hd hmiddle), (hargFault 3 1 _).mpr (.missingMapping hctor rfl),
    (hargFault 3 2 _).mpr (.unknownField hctor rfl hmiddle),
    (hargFault 3 3 _).mpr (.argumentOutOfRange hctor (Nat.le_refl 3)),
    (hargFault 2 0 _).mpr (.noConstructor hd (by decide)),
    (hunregistered 3 0 _).mpr (.unknownType rfl)⟩

end Registry
end Destructure
