/-
Parts of conforming values.

Conforming is handed down: a value that agrees with a registry has only parts that
agree with it, whichever path leads to them.  What the registry says about an
instance then decides which of its fields can be read.
-/
import Destructure.Path
import Destructure.Registry.Conforms
import Destructure.Registry.Lookup

namespace Destructure
namespace Registry

theorem conformsItems_iff {r : Registry} {vs : List Value} :
    r.conformsItems vs = true ↔ ∀ v ∈ vs, r.conforms v = true := by
  induction vs with
  | nil => simp [conformsItems]
  | cons v vs ih => simp [conformsItems, ih]

theorem conformsEntries_iff {r : Registry} {es : List (String × Value)} :
    r.conformsEntries es = true ↔ ∀ e ∈ es, r.conforms e.2 = true := by
  induction es with
  | nil => simp [conformsEntries]
  | cons e es ih => simp [conformsEntries, ih]

theorem conforms_of_follow {r : Registry} {step : Step} {v w : Value}
    (hv : r.conforms v = true) (h : step.follow v = some w) : r.conforms w = true := by
  cases step with
  | field i name =>
    cases v <;> simp only [Step.follow, reduceCtorEq] at h
    simp only [conforms, Bool.and_eq_true] at hv
    exact conformsItems_iff.mp hv.2 w (List.mem_of_getElem? h)
  | item i =>
    cases v <;> simp only [Step.follow, reduceCtorEq] at h
    · exact conformsItems_iff.mp hv w (List.mem_of_getElem? h)
    · exact conformsItems_iff.mp hv w (List.mem_of_getElem? h)
  | key k =>
    cases v <;> simp only [Step.follow, reduceCtorEq] at h
    obtain ⟨before, after, rfl, -⟩ := List.lookup_eq_some_iff.mp h
    exact conformsEntries_iff.mp hv (k, w) (List.mem_append_right _ List.mem_cons_self)

/-- Every part of a conforming value conforms. -/
theorem conforms_of_resolve {r : Registry} {p : Path} {v w : Value}
    (hv : r.conforms v = true) (h : p.resolve v = some w) : r.conforms w = true := by
  induction p generalizing v with
  | nil =>
    cases h
    exact hv
  | cons step p ih =>
    rw [Path.resolve_cons, Option.bind_eq_some_iff] at h
    obtain ⟨u, hu, h⟩ := h
    exact ih (conforms_of_follow hv hu) h

/-- An instance that conforms has a value at every position its type declares. -/
theorem exists_field_of_conforms {r : Registry} {t : TypeId} {d : TypeDecl} {name : String}
    {fields : List Value} (hv : r.conforms (.object t name fields) = true)
    (hd : r.get? t = some d) {i : Nat} (hi : i < d.fields.length) :
    ∃ w, fields[i]? = some w := by
  simp only [conforms, allowsCount, hd, Bool.and_eq_true, beq_iff_eq] at hv
  exact ⟨fields[i], List.getElem?_eq_getElem (by omega)⟩

end Registry
end Destructure
