/-
Equality of values is a partial equivalence.

It is symmetric and transitive, and a value is the same as itself unless a NaN occurs
somewhere inside it: there is no shortcut for one value compared with itself.  Values that
are the same are of one kind at every position that a path can lead to, and nothing is
converted on the way.  Sequences, maps and instances are compared part by part, an instance
by its type and not by the name it carries, and floats as the numbers they stand for.
-/
import Mathlib.Data.List.Forall2
import Destructure.Proofs.Binary64.Units
import Destructure.Proofs.Value.Same

namespace Destructure
namespace Value

/-! ## Part by part -/

section Lists

variable {vs ws : List Value} {es : List (String × Value)}

theorem sameItems_iff_forall₂ : sameItems vs ws = true ↔ List.Forall₂ Same vs ws := by
  induction vs generalizing ws with
  | nil => cases ws <;> simp [sameItems]
  | cons v vs ih => cases ws <;> simp [sameItems, ih]

theorem sameItems_self (h : ∀ v ∈ vs, v.same v = !v.hasNaN) :
    sameItems vs vs = !hasNaNItems vs := by
  induction vs with
  | nil => rfl
  | cons v vs ih =>
    have hhead : v.same v = !v.hasNaN := h v List.mem_cons_self
    have htail := ih fun w hw => h w (List.mem_cons_of_mem _ hw)
    rw [sameItems, hasNaNItems, hhead, htail, Bool.not_or]

theorem sameEntries_self (h : ∀ e ∈ es, e.2.same e.2 = !e.2.hasNaN) :
    sameEntries es es = !hasNaNEntries es := by
  induction es with
  | nil => rfl
  | cons e es ih =>
    have hhead : e.2.same e.2 = !e.2.hasNaN := h e List.mem_cons_self
    have htail := ih fun f hf => h f (List.mem_cons_of_mem _ hf)
    rw [sameEntries, hasNaNEntries, hhead, htail, BEq.rfl, Bool.true_and, Bool.not_or]

end Lists

/-- A value is the same as itself exactly when no NaN occurs in it. -/
theorem same_self (v : Value) : v.same v = !v.hasNaN := by
  induction v with
  | float x => exact x.same_self
  | array items ih | list items ih => exact sameItems_self ih
  | map entries ih => exact sameEntries_self ih
  | object t name fields ih =>
    rw [same, hasNaN, sameItems_self ih, BEq.rfl, Bool.true_and]
  | _ => simp [same, hasNaN]

/-! ## Kinds -/

/-- How a value is built. -/
inductive Kind where
  | unit
  | bool
  | int
  | float
  | char
  | str
  | array
  | list
  | map
  | object
deriving DecidableEq, Repr

def kind : Value → Kind
  | unit => .unit
  | bool _ => .bool
  | int _ => .int
  | float _ => .float
  | char _ => .char
  | str _ => .str
  | array _ => .array
  | list _ => .list
  | map _ => .map
  | object _ _ _ => .object

theorem kind_eq_of_same {v w : Value} (h : v.same w = true) : v.kind = w.kind := by
  cases v <;> cases w <;> first | rfl | simp [same] at h

/-- At every position two values that are the same are of one kind. -/
theorem map_kind_of_same {v w : Value} (h : v.same w = true) (p : Path) :
    (p.resolve v).map kind = (p.resolve w).map kind := by
  have hparts : Option.Rel Same (p.resolve v) (p.resolve w) := p.resolve_same h
  generalize p.resolve v = x at hparts ⊢
  generalize p.resolve w = y at hparts ⊢
  cases hparts with
  | none => rfl
  | some hpart => exact congrArg some (kind_eq_of_same hpart)

/-! ## The relation -/

theorem same_object_iff {t t' : TypeId} {name name' : String} {fields fields' : List Value} :
    (object t name fields).same (object t' name' fields') = true ↔
      t = t' ∧ List.Forall₂ Same fields fields' := by
  rw [same, Bool.and_eq_true, beq_iff_eq, sameItems_iff_forall₂]

/-- A NaN is the same as nothing. -/
theorem same_float_of_isNaN {x : Binary64} (h : x.isNaN = true) (w : Value) :
    (float x).same w = false := by
  cases w <;> simp [same, Binary64.same, h]

theorem same_float_of_isZero {x y : Binary64} (hx : x.isZero = true) (hy : y.isZero = true) :
    (float x).same (float y) = true := by
  have hnan : ∀ z : Binary64, z.isZero = true → z.isNaN = false := fun z hz => by
    simp_all [Binary64.isZero, Binary64.isNaN]
  have hunits : x.units = y.units := by
    rw [Binary64.units_eq_zero_iff.mpr hx, Binary64.units_eq_zero_iff.mpr hy]
  exact Binary64.same_iff_units.mpr ⟨hnan x hx, hnan y hy, hunits⟩

/-- Equality is symmetric and transitive, and reflexive exactly where no NaN occurs.  It
keeps the kind of every part, compares instances by type and fields, and floats as
numbers, of which a NaN is none and the two zeros are one. -/
theorem same_partialEquivalence (u v w : Value) :
    u.same v = v.same u ∧
      (u.same v = true → v.same w = true → u.same w = true) ∧
      (u.same u = true ↔ u.hasNaN = false) ∧
      (u.same v = true → ∀ p : Path, (p.resolve u).map kind = (p.resolve v).map kind) ∧
      (∀ items items', (array items).same (list items') = false) ∧
      (∀ n x, (int n).same (float x) = false) ∧
      (∀ t t' name name' fields fields',
        (object t name fields).same (object t' name' fields') = true ↔
          t = t' ∧ List.Forall₂ Same fields fields') ∧
      (∀ x y, (float x).same (float y) = true ↔
        x.isNaN = false ∧ y.isNaN = false ∧ x.units = y.units) ∧
      (∀ x, x.isNaN = true → (float x).same u = false) ∧
      ∀ x y, x.isZero = true → y.isZero = true → (float x).same (float y) = true := by
  refine ⟨same_comm u v, same_trans, ?self, map_kind_of_same, fun _ _ => rfl, fun _ _ => rfl,
    fun _ _ _ _ _ _ => same_object_iff, fun _ _ => Binary64.same_iff_units,
    fun x hx => same_float_of_isNaN hx u, fun x y => same_float_of_isZero⟩
  case self => rw [same_self, Bool.not_eq_true']

/-- A map to an instance with a zero of either sign. -/
def zeroUnder (typeName : String) (sign : UInt64) : Value :=
  map [("p", object ⟨0⟩ typeName [float ⟨sign <<< 63⟩, list [int 1]])]

/-- Three values that are the same, and one around them that is not the same as itself. -/
theorem same_partialEquivalence_zeros :
    let u := zeroUnder "Point" 0
    let v := zeroUnder "Punkt" 1
    let w := zeroUnder "Pont" 0
    let around := array [u, float .nan]
    u.same v = true ∧ v.same w = true ∧ u.same w = true ∧ v.same u = true ∧ w.same w = true ∧
      around.hasNaN = true ∧ around.same around = false ∧
      (Path.resolve [.key "p", .field 0 "x"] u).map kind =
        (Path.resolve [.key "p", .field 0 "x"] v).map kind ∧
      (float .nan).same u = false ∧ (float ⟨0⟩).same (float ⟨0x8000000000000000⟩) = true := by
  intro u v w around
  have huv : u.same v = true := by decide
  have hvw : v.same w = true := by decide
  obtain ⟨hcomm, htrans, -, hkind, -, -, -, -, hnan, hzero⟩ := same_partialEquivalence u v w
  obtain ⟨-, -, hself, -⟩ := same_partialEquivalence w w w
  obtain ⟨-, -, haround, -⟩ := same_partialEquivalence around u u
  exact ⟨huv, hvw, htrans huv hvw, hcomm.symm.trans huv, hself.mpr (by decide), by decide,
    Bool.eq_false_iff.mpr fun h => absurd (haround.mp h) (by decide), hkind huv _,
    hnan .nan (by decide), hzero ⟨0⟩ ⟨0x8000000000000000⟩ (by decide) (by decide)⟩

end Value
end Destructure
