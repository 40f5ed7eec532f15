/-
The numbers of the names stay in step with the types.

`IndexedRegistry` keeps what `Registry` keeps and the number of each name beside it.  The
invariant is `InStep`: a name is found in the numbers exactly where a search through the
types finds it.  It makes a registration in the one a registration in the other
(`run_register_of_inStep`), as long as numbers are left, so what is known of reachable
registries holds of the types and of the numbers alike.

The theorem this file exists for is `registrations_in_step`, on the state and the answers
after any sequence of registrations and on what a further one does.
-/
import Destructure.Registry.Index
import Destructure.Proofs.Registry.Registered

namespace Destructure
namespace IndexedRegistry

variable {x x' : IndexedRegistry} {d : TypeDecl} {t : TypeId} {e : RegisterError}

/-! ## One registration -/

theorem run_nextNumber (x : IndexedRegistry) :
    nextNumber.run x =
      if x.size < TypeId.capacity then .ok ⟨x.size⟩ x else .error .tooManyTypes x := by
  simp only [nextNumber, EStateM.run_bind, EStateM.run_get]
  split
  · rfl
  · rfl

/-- Everything that can fail stands before the first change. -/
theorem run_register (x : IndexedRegistry) (d : TypeDecl) :
    (register d).run x =
      if (x.find? d.name).isSome then
        .error (.refused (.duplicateType d.name)) x
      else
        match d.validate with
        | .error e => .error (.refused e) x
        | .ok () =>
          if x.size < TypeId.capacity then
            .ok ⟨x.size⟩ ⟨⟨x.types ++ [d]⟩, (d.name, ⟨x.size⟩) :: x.numbers⟩
          else
            .error .tooManyTypes x := by
  simp only [register, EStateM.run_bind, EStateM.run_get]
  split
  · rfl
  · cases d.validate with
    | error e => rfl
    | ok valid =>
      by_cases hleft : x.size < TypeId.capacity
      · simp only [EStateM.run_bind, run_nextNumber, if_pos hleft]
        rfl
      · simp only [EStateM.run_bind, run_nextNumber, if_neg hleft]

/-- A registration that fails changes nothing. -/
theorem eq_of_run_register_error (h : (register d).run x = .error e x') : x' = x := by
  rw [run_register] at h
  split at h
  · cases h
    rfl
  · split at h
    · cases h
      rfl
    · split at h
      · cases h
      · cases h
        rfl

/-- A name is found in the numbers where it stands among the types. -/
def InStep (x : IndexedRegistry) : Prop := ∀ name, x.find? name = x.toRegistry.find? name

theorem InStep.isSome_find?_iff (h : x.InStep) {name : String} :
    (x.find? name).isSome = true ↔ name ∈ x.names := by
  rw [h name]
  simp [Registry.find?, Registry.names]

/-- A registration is one in the registry of the types, as long as a number is left. -/
theorem run_register_of_inStep (h : x.InStep) (d : TypeDecl) :
    (register d).run x =
      match x.toRegistry.register d with
      | .error e => .error (.refused e) x
      | .ok (t, r) =>
        if x.size < TypeId.capacity then
          .ok t ⟨r, (d.name, t) :: x.numbers⟩
        else
          .error .tooManyTypes x := by
  rw [run_register, Registry.register]
  by_cases htaken : d.name ∈ x.names
  · rw [if_pos (h.isSome_find?_iff.mpr htaken), if_pos (Registry.any_name_iff.mpr htaken)]
  · rw [if_neg (mt h.isSome_find?_iff.mp htaken), if_neg (mt Registry.any_name_iff.mp htaken)]
    cases d.validate with
    | error e => rfl
    | ok valid => rfl

theorem register_of_run_register (h : x.InStep) (hrun : (register d).run x = .ok t x') :
    ∃ r, x.toRegistry.register d = .ok (t, r) ∧ x' = ⟨r, (d.name, t) :: x.numbers⟩ := by
  rw [run_register_of_inStep h] at hrun
  split at hrun
  · cases hrun
  · split at hrun
    · cases hrun
      exact ⟨_, ‹_›, rfl⟩
    · cases hrun

theorem InStep.of_run_register (h : x.InStep) (hrun : (register d).run x = .ok t x') :
    x'.InStep := by
  obtain ⟨r, hregister, rfl⟩ := register_of_run_register h hrun
  obtain ⟨rfl, rfl, -, hfree⟩ := Registry.register_eq_ok hregister
  have hnew : x.find? d.name = none := by
    have hout : d.name ∉ x.names := Registry.not_mem_names_iff.mpr hfree
    exact Option.not_isSome_iff_eq_none.mp (mt h.isSome_find?_iff.mp hout)
  intro name
  show ((d.name, (⟨x.size⟩ : TypeId)) :: x.numbers).lookup name =
    (⟨x.types ++ [d]⟩ : Registry).find? name
  have hold : (x.types.findIdx? (·.name == name)).map TypeId.mk = x.find? name := (h name).symm
  rw [Registry.find?, List.findIdx?_append, Option.map_or, hold]
  by_cases hname : d.name = name
  · -- No type before has the name, so the search ends at the new one.
    subst hname
    simp [hnew, Registry.size]
  · have hother : (name == d.name) = false := beq_eq_false_iff_ne.mpr (Ne.symm hname)
    simp [List.lookup_cons, hother, hname, find?]

/-- While a number is left, a registration fails for what the declaration is refused for. -/
theorem run_register_eq_error_iff (h : x.InStep) (hleft : x.size < TypeId.capacity) :
    (∃ x', (register d).run x = .error e x') ↔
      ∃ refusal, e = .refused refusal ∧ x.toRegistry.Refuses d refusal := by
  rw [run_register_of_inStep h]
  cases hregister : x.toRegistry.register d with
  | error refusal =>
    constructor
    · rintro ⟨x', hrun⟩
      cases hrun
      exact ⟨refusal, rfl, Registry.register_eq_error_iff.mp hregister⟩
    · rintro ⟨refusal', rfl, hrefuses⟩
      have hsame := Registry.register_eq_error_iff.mpr hrefuses
      rw [hregister, Except.error.injEq] at hsame
      exact ⟨x, by rw [hsame]⟩
  | ok added =>
    simp only [if_pos hleft]
    constructor
    · rintro ⟨x', hrun⟩
      cases hrun
    · rintro ⟨refusal, -, hrefuses⟩
      rw [Registry.register_eq_error_iff.mpr hrefuses] at hregister
      cases hregister

theorem run_register_eq_ok_iff (h : x.InStep) (hleft : x.size < TypeId.capacity) :
    (∃ t x', (register d).run x = .ok t x') ↔ d.name ∉ x.names ∧ d.Distinct := by
  constructor
  · rintro ⟨t, x', hrun⟩
    obtain ⟨r, hregister, -⟩ := register_of_run_register h hrun
    obtain ⟨-, -, hd, hfree⟩ := Registry.register_eq_ok hregister
    exact ⟨Registry.not_mem_names_iff.mpr hfree, hd⟩
  · rintro ⟨hfree, hd⟩
    rw [run_register_of_inStep h, Registry.register_of_free hfree hd]
    simp only [if_pos hleft]
    exact ⟨_, _, rfl⟩

/-! ## Any number of registrations -/

theorem inStep_empty : empty.InStep := fun _ => rfl

theorem inStep_registerAll (h : x.InStep) (ds : List TypeDecl) : (x.registerAll ds).InStep := by
  induction ds generalizing x with
  | nil => exact h
  | cons d ds ih =>
    rw [registerAll]
    cases hrun : (register d).run x with
    | ok t x' => exact ih (h.of_run_register hrun)
    | error e x' =>
      obtain rfl := eq_of_run_register_error hrun
      exact ih h

theorem growsTo_registerAll (h : x.InStep) (ds : List TypeDecl) :
    x.toRegistry.GrowsTo (x.registerAll ds).toRegistry := by
  induction ds generalizing x with
  | nil => exact ⟨[], rfl⟩
  | cons d ds ih =>
    rw [registerAll]
    cases hrun : (register d).run x with
    | ok t x' =>
      obtain ⟨ds', hds'⟩ := ih (h.of_run_register hrun)
      obtain ⟨r, hregister, rfl⟩ := register_of_run_register h hrun
      exact ⟨d :: ds', by rw [Registry.registerAll, hregister, hds']⟩
    | error e x' =>
      obtain rfl := eq_of_run_register_error hrun
      exact ih h

/-- As long as numbers are left, the registry of the types goes through the same
registrations, with the same answers. -/
theorem toRegistry_registerAll (h : x.InStep) (ds : List TypeDecl)
    (hleft : (x.registerAll ds).size < TypeId.capacity) :
    (x.registerAll ds).toRegistry = x.toRegistry.registerAll ds ∧
      x.answers ds = (x.toRegistry.answers ds).map (Except.mapError .refused) := by
  induction ds generalizing x with
  | nil => exact ⟨rfl, rfl⟩
  | cons d ds ih =>
    have hsize : x.size ≤ (x.registerAll (d :: ds)).size := (growsTo_registerAll h (d :: ds)).size_le
    have hrun := run_register_of_inStep h d
    cases hregister : x.toRegistry.register d with
    | error e =>
      simp only [hregister] at hrun
      simp only [registerAll, hrun] at hleft
      obtain ⟨hsame, hanswers⟩ := ih h hleft
      simp only [registerAll, answers, Registry.registerAll, Registry.answers, hrun, hregister]
      exact ⟨hsame, by rw [hanswers]; rfl⟩
    | ok added =>
      -- Types are never removed, so the numbers cannot have been used up already.
      have hnow : x.size < TypeId.capacity := Nat.lt_of_le_of_lt hsize hleft
      simp only [hregister, if_pos hnow] at hrun
      simp only [registerAll, hrun] at hleft
      obtain ⟨hsame, hanswers⟩ := ih (h.of_run_register hrun) hleft
      simp only [registerAll, answers, Registry.registerAll, Registry.answers, hrun, hregister]
      exact ⟨hsame, by rw [hanswers]; rfl⟩

theorem mapError_eq_ok_iff {answer : Except RegistryError TypeId} :
    answer.mapError RegisterError.refused = .ok t ↔ answer = .ok t := by
  cases answer with
  | ok t' => simp [Except.mapError]
  | error e => simp [Except.mapError]

theorem toOption_mapError (answer : Except RegistryError TypeId) :
    (answer.mapError RegisterError.refused).toOption = answer.toOption := by
  cases answer with
  | ok t => rfl
  | error e => rfl

/-- After any registrations, of which any may have failed, the types that were registered
have the numbers from zero on, the numbers and the types are inverse to each other, and
what is registered is in order and stays as it is.  A further registration succeeds exactly
for a free name and a declaration in order.  Otherwise it reports the first of the reasons
and changes nothing. -/
theorem registrations_in_step {ds : List TypeDecl} (hx : empty.registerAll ds = x)
    (hleft : x.size < TypeId.capacity) :
    ((empty.answers ds).filterMap Except.toOption = (List.range x.size).map TypeId.mk ∧
      ∀ (i : Nat) (t : TypeId), (empty.answers ds)[i]? = some (.ok t) →
        ∃ d, ds[i]? = some d ∧ x.get? t = some d) ∧
    (x.names.Nodup ∧
      ∀ name t, x.find? name = some t ↔ ∃ d, x.get? t = some d ∧ d.name = name) ∧
    (∀ t d, x.get? t = some d →
      (∀ ds', (x.registerAll ds').get? t = some d) ∧ d.Distinct ∧
        ∀ arity ctor, d.constructor? arity = some ctor ↔
          ctor ∈ d.constructors ∧ ctor.arity = arity) ∧
    ∀ d,
      ((∃ t x', (register d).run x = .ok t x') ↔ d.name ∉ x.names ∧ d.Distinct) ∧
      (∀ e, (∃ x', (register d).run x = .error e x') ↔
        ∃ refusal, e = .refused refusal ∧ x.toRegistry.Refuses d refusal) ∧
      ∀ e x', (register d).run x = .error e x' → x' = x := by
  subst hx
  have hstep : (empty.registerAll ds).InStep := inStep_registerAll inStep_empty ds
  obtain ⟨hsame, hanswers⟩ := toRegistry_registerAll inStep_empty ds hleft
  have hreachable : (empty.registerAll ds).toRegistry.Reachable := ⟨ds, hsame⟩
  refine ⟨⟨?numbered, ?stored⟩, ⟨hreachable.names_nodup, ?inverse⟩, ?kept, ?further⟩
  case numbered =>
    have hnumbers := Registry.map_range_append_answers Registry.empty ds
    have hzero : Registry.empty.size = 0 := rfl
    rw [hzero, List.range_zero, List.map_nil, List.nil_append] at hnumbers
    have htoOption : Except.toOption ∘ Except.mapError RegisterError.refused =
        (Except.toOption : Except RegistryError TypeId → Option TypeId) :=
      funext toOption_mapError
    rw [hanswers, List.filterMap_map, htoOption]
    exact hnumbers.trans (by rw [hsame]; rfl)
  case stored =>
    intro i t hi
    rw [hanswers, List.getElem?_map] at hi
    obtain ⟨answer, hi, hok⟩ := Option.map_eq_some_iff.mp hi
    rw [mapError_eq_ok_iff.mp hok] at hi
    rw [hsame]
    exact Registry.get?_of_answers hi
  case inverse =>
    intro name t
    rw [hstep name]
    exact hreachable.find?_eq_some_iff
  case kept =>
    intro t d hd
    have hdistinct : d.Distinct := hreachable.distinct_of_get? hd
    exact ⟨fun ds' => (growsTo_registerAll hstep ds').get? hd, hdistinct,
      fun _ _ => hdistinct.constructor?_eq_some_iff⟩
  case further =>
    intro d
    exact ⟨run_register_eq_ok_iff hstep hleft, fun e => run_register_eq_error_iff hstep hleft,
      fun e x' => eq_of_run_register_error⟩

def pointDecl : TypeDecl :=
  ⟨"Point", ["x", "y"], [⟨[.mapped "x", .mapped "y"]⟩, ⟨[]⟩]⟩

/-- Between two types that are registered, one whose name is taken, one that repeats a field
and one that repeats a number of arguments. -/
def attempts : List TypeDecl :=
  [pointDecl, ⟨"Point", [], []⟩, ⟨"Pair", ["a", "b", "b", "a"], []⟩,
    ⟨"Either", ["a"], [⟨[.mapped "a"]⟩, ⟨[.unmapped "b"]⟩]⟩, ⟨"Nothing", [], []⟩]

theorem registrations_in_step_attempts :
    let x := empty.registerAll attempts
    x.size < TypeId.capacity ∧
      empty.answers attempts =
        [.ok ⟨0⟩, .error (.refused (.duplicateType "Point")),
          .error (.refused (.duplicateField "Pair" "b")),
          .error (.refused (.duplicateConstructor "Either" 1)), .ok ⟨1⟩] ∧
      (empty.answers attempts).filterMap Except.toOption = (List.range x.size).map TypeId.mk ∧
      x.find? "Point" = some ⟨0⟩ ∧ x.find? "Nothing" = some ⟨1⟩ ∧
      (x.registerAll attempts).get? ⟨0⟩ = some pointDecl ∧ pointDecl.Distinct ∧
      ∃ x', (register pointDecl).run x = .error (.refused (.duplicateType "Point")) x' ∧ x' = x := by
  intro x
  have hleft : x.size < TypeId.capacity := by decide
  obtain ⟨⟨hnumbered, hstored⟩, ⟨-, hinverse⟩, hkept, hfurther⟩ := registrations_in_step rfl hleft
  have hanswers : empty.answers attempts =
      [.ok ⟨0⟩, .error (.refused (.duplicateType "Point")),
        .error (.refused (.duplicateField "Pair" "b")),
        .error (.refused (.duplicateConstructor "Either" 1)), .ok ⟨1⟩] := rfl
  obtain ⟨d, hd, hpoint⟩ := hstored 0 ⟨0⟩ (by rw [hanswers]; rfl)
  obtain rfl : pointDecl = d := Option.some.inj hd
  obtain ⟨hstays, hdistinct, -⟩ := hkept _ _ hpoint
  obtain ⟨-, hrefused, hunchanged⟩ := hfurther pointDecl
  have htaken : pointDecl.name ∈ x.names := by decide
  obtain ⟨x', hrun⟩ := (hrefused _).mpr ⟨_, rfl, .name htaken⟩
  exact ⟨hleft, hanswers, hnumbered, (hinverse _ _).mpr ⟨pointDecl, hpoint, rfl⟩,
    (hinverse _ _).mpr ⟨⟨"Nothing", [], []⟩, rfl, rfl⟩, hstays attempts, hdistinct,
    x', hrun, hunchanged _ _ hrun⟩

end IndexedRegistry
end Destructure
