/-
Declarations in a registry.

A type is added under the next number and never changes, and its declaration has passed
the checks of `register`: no field repeats, and no two constructors take equally many
arguments.  In a registry built by registering types, the number of arguments therefore
decides which constructor is meant.  No two of its types have the same name either, so a
name and a number that belong together determine each other.
-/
import Mathlib.Data.List.Nodup
import Destructure.Registry.History

namespace Destructure

/-- No field repeats, and no two constructors take equally many arguments. -/
structure TypeDecl.Distinct (d : TypeDecl) : Prop where
  fields : d.fields.Nodup
  arities : (d.constructors.map Constructor.arity).Nodup

theorem TypeDecl.Distinct.constructor_unique {d : TypeDecl} (h : d.Distinct)
    {ctor other : Constructor} (hctor : ctor ∈ d.constructors) (hother : other ∈ d.constructors)
    (harity : ctor.arity = other.arity) : ctor = other :=
  List.inj_on_of_nodup_map h.arities hctor hother harity

theorem TypeDecl.Distinct.constructor?_eq_some_iff {d : TypeDecl} (h : d.Distinct) {arity : Nat}
    {ctor : Constructor} :
    d.constructor? arity = some ctor ↔ ctor ∈ d.constructors ∧ ctor.arity = arity := by
  constructor
  · intro hfound
    exact ⟨List.mem_of_find?_eq_some hfound, by simpa using List.find?_some hfound⟩
  · rintro ⟨hctor, rfl⟩
    cases hfound : d.constructor? ctor.arity with
    | none => exact absurd (List.find?_eq_none.mp hfound ctor hctor) (by simp)
    | some found =>
      have hmem : found ∈ d.constructors := List.mem_of_find?_eq_some hfound
      have harity : found.arity = ctor.arity := by simpa using List.find?_some hfound
      rw [h.constructor_unique hmem hctor harity]

theorem TypeDecl.Distinct.fieldIndex?_eq_some_iff {d : TypeDecl} (h : d.Distinct) {field : String}
    {i : Nat} : d.fieldIndex? field = some i ↔ d.fields[i]? = some field := by
  constructor
  · intro hfound
    obtain ⟨hlt, hname, -⟩ := List.idxOf?_eq_some_iff.mp hfound
    exact List.getElem?_eq_some_iff.mpr ⟨hlt, hname⟩
  · intro hposition
    obtain ⟨hlt, rfl⟩ := List.getElem?_eq_some_iff.mp hposition
    refine List.idxOf?_eq_some_iff.mpr ⟨hlt, rfl, fun j hj hsame => ?_⟩
    have hindex : j = i := h.fields.getElem_inj_iff.mp hsame
    omega

/-- A declaration passes its own check exactly when it is in order. -/
theorem TypeDecl.validate_eq_ok_iff {d : TypeDecl} : d.validate = .ok () ↔ d.Distinct := by
  constructor
  · intro h
    unfold validate at h
    split at h
    · cases h
    · cases h
    · exact ⟨firstRepeated_eq_none_iff.mp ‹_›, firstRepeated_eq_none_iff.mp ‹_›⟩
  · intro hd
    rw [validate, firstRepeated_eq_none_iff.mpr hd.fields, firstRepeated_eq_none_iff.mpr hd.arities]

namespace Registry

variable {r r' : Registry} {d : TypeDecl} {t : TypeId} {name : String} {e : RegistryError}
  {ds : List TypeDecl}

def names (r : Registry) : List String := r.types.map TypeDecl.name

theorem any_name_iff : r.types.any (·.name == name) = true ↔ name ∈ r.names := by
  simp [names]

theorem not_mem_names_iff : name ∉ r.names ↔ ∀ e ∈ r.types, e.name ≠ name := by
  simp [names]

/-! ## One registration -/

/-- What a type is refused for.  Of several reasons the first in this order is given: the
name, the first field that repeats, the first number of arguments that repeats. -/
inductive Refuses (r : Registry) (d : TypeDecl) : RegistryError → Prop
  | name (taken : d.name ∈ r.names) : r.Refuses d (.duplicateType d.name)
  | field {field : String} (free : d.name ∉ r.names) (repeats : RepeatsFirst d.fields field) :
      r.Refuses d (.duplicateField d.name field)
  | constructor {arity : Nat} (free : d.name ∉ r.names) (fields : d.fields.Nodup)
      (repeats : RepeatsFirst (d.constructors.map Constructor.arity) arity) :
      r.Refuses d (.duplicateConstructor d.name arity)

/-- Under a free name the declaration's own check finds what the type is refused for. -/
theorem validate_eq_error_iff (hfree : d.name ∉ r.names) :
    d.validate = .error e ↔ r.Refuses d e := by
  constructor
  · intro h
    unfold TypeDecl.validate at h
    split at h
    next hfield =>
      cases h
      exact .field hfree (firstRepeated_eq_some_iff.mp hfield)
    next hfield harity =>
      cases h
      exact .constructor hfree (firstRepeated_eq_none_iff.mp hfield)
        (firstRepeated_eq_some_iff.mp harity)
    next => cases h
  · intro h
    unfold TypeDecl.validate
    cases h with
    | name taken => exact absurd taken hfree
    | field _ repeats => rw [firstRepeated_eq_some_iff.mpr repeats]
    | constructor _ fields repeats =>
      rw [firstRepeated_eq_none_iff.mpr fields, firstRepeated_eq_some_iff.mpr repeats]

/-- A type is registered under the next number, once its declaration is in order. -/
theorem register_eq_ok (h : r.register d = .ok (t, r')) :
    t = ⟨r.size⟩ ∧ r' = ⟨r.types ++ [d]⟩ ∧ d.Distinct ∧ ∀ e ∈ r.types, e.name ≠ d.name := by
  unfold register at h
  split at h
  · cases h
  · have hfree : ∀ e ∈ r.types, e.name ≠ d.name := by simp_all
    split at h
    · cases h
    · cases h
      exact ⟨rfl, rfl, TypeDecl.validate_eq_ok_iff.mp ‹_›, hfree⟩

theorem register_of_free (hfree : d.name ∉ r.names) (hd : d.Distinct) :
    r.register d = .ok (⟨r.size⟩, ⟨r.types ++ [d]⟩) := by
  rw [register, if_neg (mt any_name_iff.mp hfree), TypeDecl.validate_eq_ok_iff.mpr hd]

/-- A type is refused for the reasons that `Refuses` lists, and for no other. -/
theorem register_eq_error_iff : r.register d = .error e ↔ r.Refuses d e := by
  by_cases htaken : d.name ∈ r.names
  · rw [register, if_pos (any_name_iff.mpr htaken), Except.error.injEq]
    constructor
    · rintro rfl
      exact .name htaken
    · intro h
      cases h with
      | name _ => rfl
      | field free _ | constructor free _ _ => exact absurd htaken free
  · rw [register, if_neg (mt any_name_iff.mp htaken), ← validate_eq_error_iff htaken]
    cases d.validate with
    | error e' => simp only [Except.error.injEq]
    | ok valid => exact ⟨nofun, nofun⟩

/-! ## Any number of registrations -/

/-- What every registration preserves holds after any number of them. -/
theorem registerAll_induction {P : Registry → Prop}
    (step : ∀ r d t r', P r → r.register d = .ok (t, r') → P r') {r : Registry} (h : P r)
    (ds : List TypeDecl) : P (r.registerAll ds) := by
  induction ds generalizing r with
  | nil => exact h
  | cons d ds ih =>
    rw [registerAll]
    cases hregister : r.register d with
    | error e => exact ih h
    | ok added => exact ih (step r d added.1 added.2 h hregister)

theorem GrowsTo.types_prefix (h : r.GrowsTo r') : r.types <+: r'.types := by
  obtain ⟨ds, rfl⟩ := h
  refine registerAll_induction (P := fun r' => r.types <+: r'.types) ?step List.prefix_rfl ds
  intro r' d t r'' hr hregister
  obtain ⟨-, rfl, -, -⟩ := register_eq_ok hregister
  exact hr.trans (List.prefix_append r'.types [d])

theorem GrowsTo.size_le (h : r.GrowsTo r') : r.size ≤ r'.size := h.types_prefix.length_le

/-- A type that is registered stays what it is. -/
theorem GrowsTo.get? (h : r.GrowsTo r') (hd : r.get? t = some d) : r'.get? t = some d := by
  obtain ⟨added, hadded⟩ := h.types_prefix
  have hlt : t.index < r.types.length := (List.getElem?_eq_some_iff.mp hd).1
  have hsame : r'.get? t = r.get? t := by
    rw [Registry.get?, ← hadded]
    exact List.getElem?_append_left hlt
  rw [hsame, hd]

/-- The registrations that succeed answer the numbers from the first free one on, without
a gap. -/
theorem map_range_append_answers (r : Registry) (ds : List TypeDecl) :
    (List.range r.size).map TypeId.mk ++ (r.answers ds).filterMap Except.toOption =
      (List.range (r.registerAll ds).size).map TypeId.mk := by
  induction ds generalizing r with
  | nil => simp [answers, registerAll]
  | cons d ds ih =>
    cases hregister : r.register d with
    | error e =>
      have hnone : (Except.error e : Except RegistryError TypeId).toOption = none := rfl
      simpa [answers, registerAll, hregister, List.filterMap_cons_none hnone] using ih r
    | ok added =>
      obtain ⟨t, r'⟩ := added
      obtain ⟨rfl, rfl, -⟩ := register_eq_ok hregister
      have hrest := ih ⟨r.types ++ [d]⟩
      have hsize : (⟨r.types ++ [d]⟩ : Registry).size = r.size + 1 := List.length_append
      rw [hsize, List.range_succ, List.map_append, List.append_assoc] at hrest
      have hsome : (Except.ok ⟨r.size⟩ : Except RegistryError TypeId).toOption = some ⟨r.size⟩ := rfl
      simpa [answers, registerAll, hregister, List.filterMap_cons_some hsome] using hrest

/-- Under the number that a registration answers stands what was registered. -/
theorem get?_of_answers {i : Nat} (h : (r.answers ds)[i]? = some (.ok t)) :
    ∃ d, ds[i]? = some d ∧ (r.registerAll ds).get? t = some d := by
  induction ds generalizing r i with
  | nil => simp [answers] at h
  | cons d ds ih =>
    cases hregister : r.register d with
    | error e =>
      simp only [answers, hregister] at h
      simp only [registerAll, hregister]
      cases i with
      | zero => simp at h
      | succ i => exact ih h
    | ok added =>
      obtain ⟨t', r'⟩ := added
      simp only [answers, hregister] at h
      simp only [registerAll, hregister]
      cases i with
      | zero =>
        simp only [List.getElem?_cons_zero, Option.some.injEq, Except.ok.injEq] at h
        subst h
        obtain ⟨rfl, rfl, -⟩ := register_eq_ok hregister
        have hstored : (⟨r.types ++ [d]⟩ : Registry).get? ⟨r.size⟩ = some d :=
          List.getElem?_concat_length
        exact ⟨d, rfl, GrowsTo.get? ⟨ds, rfl⟩ hstored⟩
      | succ i => exact ih h

theorem Reachable.names_nodup (h : r.Reachable) : r.names.Nodup := by
  obtain ⟨ds, rfl⟩ := h
  have hempty : empty.names.Nodup := List.nodup_nil
  refine registerAll_induction (P := fun r => r.names.Nodup) ?step hempty ds
  intro r d t r' hr hregister
  obtain ⟨-, rfl, -, hfree⟩ := register_eq_ok hregister
  have hnew : d.name ∉ r.names := not_mem_names_iff.mpr hfree
  have hnames : (⟨r.types ++ [d]⟩ : Registry).names = r.names ++ [d.name] := List.map_append
  rw [hnames, ← List.concat_eq_append]
  exact (List.nodup_concat r.names d.name).mpr ⟨hnew, hr⟩

/-- A name leads to a number exactly when under that number stands a type of that name. -/
theorem Reachable.find?_eq_some_iff (h : r.Reachable) :
    r.find? name = some t ↔ ∃ d, r.get? t = some d ∧ d.name = name := by
  constructor
  · intro hfind
    obtain ⟨i, hi, rfl⟩ := Option.map_eq_some_iff.mp hfind
    obtain ⟨hlt, hname, -⟩ := List.findIdx?_eq_some_iff_getElem.mp hi
    exact ⟨r.types[i], List.getElem?_eq_getElem hlt, by simpa using hname⟩
  · rintro ⟨d, hd, rfl⟩
    obtain ⟨hlt, rfl⟩ := List.getElem?_eq_some_iff.mp hd
    refine Option.map_eq_some_iff.mpr ⟨t.index, ?_, rfl⟩
    refine List.findIdx?_eq_some_iff_getElem.mpr ⟨hlt, by simp, ?_⟩
    intro j hj hsame
    have hlength : r.names.length = r.types.length := List.length_map TypeDecl.name
    have hname : r.names[j] = r.names[t.index] := by simpa [names] using hsame
    have hindex : j = t.index := h.names_nodup.getElem_inj_iff.mp hname
    omega

theorem Reachable.distinct (h : r.Reachable) : ∀ d ∈ r.types, d.Distinct := by
  obtain ⟨ds, rfl⟩ := h
  have hempty : ∀ d ∈ empty.types, d.Distinct := fun d hd => absurd hd List.not_mem_nil
  refine registerAll_induction (P := fun r => ∀ d ∈ r.types, d.Distinct) ?step hempty ds
  intro r d t r' hr hregister
  obtain ⟨-, rfl, hd, -⟩ := register_eq_ok hregister
  exact List.forall_mem_append.mpr ⟨hr, List.forall_mem_singleton.mpr hd⟩

theorem Reachable.distinct_of_get? (h : r.Reachable) (hd : r.get? t = some d) : d.Distinct :=
  h.distinct d (List.mem_of_getElem? hd)

end Registry
end Destructure
