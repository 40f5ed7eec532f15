/-
The number that a floating-point number stands for.

Every finite number is a whole multiple of the least positive one, `2 ^ -1074`, so it is
given by an integer, and an infinity by the first power of two that is out of range.  The
multiple forgets the sign of a zero and nothing else: `eq_of_units` recovers the bits of
any other number from it.  Equality of floating-point numbers, which is defined on their
bits, therefore is equality of the numbers they stand for.
-/
import Mathlib.Algebra.Group.Nat.Defs
import Destructure.Binary64

namespace Destructure
namespace Binary64

/-- The absolute value, in units of the least positive number.  From the second exponent
on a leading one stands in front of the fraction, and each further exponent doubles. -/
def magnitude (x : Binary64) : Nat :=
  if x.exponentField = 0 then x.fractionField
  else (2 ^ 52 + x.fractionField) * 2 ^ (x.exponentField - 1)

/-- The number that the bits stand for, in units of the least positive number. -/
def units (x : Binary64) : Int := if x.negative then -x.magnitude else x.magnitude

variable {x y : Binary64}

/-! ## Fields and bits -/

theorem exponentField_eq (x : Binary64) : x.exponentField = x.bits.toNat / 2 ^ 52 % 2 ^ 11 := by
  have hmask : (0x7ff : UInt64).toNat = 2 ^ 11 - 1 := rfl
  rw [exponentField, UInt64.toNat_and, hmask, Nat.and_two_pow_sub_one_eq_mod,
    UInt64.toNat_shiftRight, Nat.shiftRight_eq_div_pow]
  rfl

theorem fractionField_eq (x : Binary64) : x.fractionField = x.bits.toNat % 2 ^ 52 := by
  have hmask : (0xfffffffffffff : UInt64).toNat = 2 ^ 52 - 1 := rfl
  rw [fractionField, UInt64.toNat_and, hmask, Nat.and_two_pow_sub_one_eq_mod]

theorem negative_iff (x : Binary64) : x.negative = true ↔ x.bits.toNat / 2 ^ 63 = 1 := by
  have hshift : (x.bits >>> 63).toNat = x.bits.toNat / 2 ^ 63 := by
    rw [UInt64.toNat_shiftRight, Nat.shiftRight_eq_div_pow]
    rfl
  rw [negative, beq_iff_eq, ← UInt64.toNat_inj, hshift]
  rfl

theorem fractionField_lt (x : Binary64) : x.fractionField < 2 ^ 52 := by
  rw [fractionField_eq]
  exact Nat.mod_lt _ (Nat.two_pow_pos 52)

/-- The sign and the two fields are all the bits there are. -/
theorem eq_of_fields (hsign : x.negative = y.negative)
    (hexponent : x.exponentField = y.exponentField)
    (hfraction : x.fractionField = y.fractionField) : x = y := by
  have hx : x.bits.toNat < 2 ^ 64 := x.bits.toNat_lt
  have hy : y.bits.toNat < 2 ^ 64 := y.bits.toNat_lt
  have hsigns := (negative_iff x).symm.trans ((Bool.eq_iff_iff.mp hsign).trans (negative_iff y))
  rw [exponentField_eq, exponentField_eq] at hexponent
  rw [fractionField_eq, fractionField_eq] at hfraction
  have hbits : x.bits.toNat = y.bits.toNat := by omega
  exact congrArg mk (UInt64.toNat_inj.mp hbits)

/-! ## Magnitudes -/

theorem magnitude_of_subnormal (h : x.exponentField = 0) : x.magnitude = x.fractionField :=
  if_pos h

theorem magnitude_of_normal (h : x.exponentField ≠ 0) :
    x.magnitude = (2 ^ 52 + x.fractionField) * 2 ^ (x.exponentField - 1) :=
  if_neg h

theorem le_magnitude_of_normal (h : x.exponentField ≠ 0) :
    2 ^ 52 * 2 ^ (x.exponentField - 1) ≤ x.magnitude := by
  rw [magnitude_of_normal h]
  exact Nat.mul_le_mul_right _ (Nat.le_add_right _ _)

/-- The magnitudes of one exponent end where those of the next one begin. -/
theorem magnitude_lt (x : Binary64) : x.magnitude < 2 ^ 52 * 2 ^ x.exponentField := by
  have hfraction : x.fractionField < 2 ^ 52 := x.fractionField_lt
  by_cases h : x.exponentField = 0
  · rw [magnitude_of_subnormal h, h, Nat.pow_zero, Nat.mul_one]
    exact hfraction
  · have hdouble : 2 ^ x.exponentField = 2 * 2 ^ (x.exponentField - 1) := by
      rw [← Nat.pow_succ']
      congr 1
      omega
    rw [magnitude_of_normal h, hdouble, ← Nat.mul_assoc]
    exact Nat.mul_lt_mul_of_pos_right (by omega) (Nat.two_pow_pos _)

theorem magnitude_lt_of_exponentField_lt (h : x.exponentField < y.exponentField) :
    x.magnitude < y.magnitude := by
  have hpow : 2 ^ x.exponentField ≤ 2 ^ (y.exponentField - 1) :=
    Nat.pow_le_pow_right (by omega) (by omega)
  calc
    x.magnitude < 2 ^ 52 * 2 ^ x.exponentField := x.magnitude_lt
    _ ≤ 2 ^ 52 * 2 ^ (y.exponentField - 1) := Nat.mul_le_mul_left _ hpow
    _ ≤ y.magnitude := le_magnitude_of_normal (by omega)

theorem fields_of_magnitude (h : x.magnitude = y.magnitude) :
    x.exponentField = y.exponentField ∧ x.fractionField = y.fractionField := by
  have hexponent : x.exponentField = y.exponentField := by
    rcases Nat.lt_trichotomy x.exponentField y.exponentField with hlt | heq | hgt
    · have hmagnitude := magnitude_lt_of_exponentField_lt hlt
      omega
    · exact heq
    · have hmagnitude := magnitude_lt_of_exponentField_lt hgt
      omega
  refine ⟨hexponent, ?_⟩
  by_cases hy : y.exponentField = 0
  · rwa [magnitude_of_subnormal (hexponent.trans hy), magnitude_of_subnormal hy] at h
  · have hx : x.exponentField ≠ 0 := fun hx => hy (hexponent.symm.trans hx)
    rw [magnitude_of_normal hx, magnitude_of_normal hy, hexponent] at h
    have hcancel := Nat.eq_of_mul_eq_mul_right (Nat.two_pow_pos _) h
    omega

theorem isZero_iff : x.isZero = true ↔ x.magnitude = 0 := by
  rw [isZero, Bool.and_eq_true, beq_iff_eq, beq_iff_eq]
  constructor
  · rintro ⟨hexponent, hfraction⟩
    rw [magnitude_of_subnormal hexponent, hfraction]
  · intro h
    by_cases hexponent : x.exponentField = 0
    · rw [magnitude_of_subnormal hexponent] at h
      exact ⟨hexponent, h⟩
    · have hle := le_magnitude_of_normal hexponent
      have hpos : 0 < 2 ^ 52 * 2 ^ (x.exponentField - 1) :=
        Nat.mul_pos (Nat.two_pow_pos 52) (Nat.two_pow_pos _)
      omega

/-! ## Equality -/

theorem natAbs_units (x : Binary64) : x.units.natAbs = x.magnitude := by
  rw [units]
  split <;> omega

theorem units_eq_zero_iff : x.units = 0 ↔ x.isZero = true := by
  rw [isZero_iff, ← natAbs_units, Int.natAbs_eq_zero]

/-- Away from zero the sign bit is the sign of the number. -/
theorem negative_iff_units_neg (hx : x.units ≠ 0) : x.negative = true ↔ x.units < 0 := by
  unfold units at hx ⊢
  by_cases hnegative : x.negative = true
  · rw [if_pos hnegative] at hx ⊢
    exact iff_of_true hnegative (by omega)
  · rw [if_neg hnegative]
    exact iff_of_false hnegative (by omega)

/-- The two zeros are the only different bits that stand for one number. -/
theorem eq_of_units (h : x.units = y.units) (hx : x.units ≠ 0) : x = y := by
  have hsign : x.negative = y.negative := by
    rw [Bool.eq_iff_iff, negative_iff_units_neg hx, negative_iff_units_neg (h ▸ hx), h]
  have hmagnitude : x.magnitude = y.magnitude := by
    rw [← natAbs_units, ← natAbs_units, h]
  obtain ⟨hexponent, hfraction⟩ := fields_of_magnitude hmagnitude
  exact eq_of_fields hsign hexponent hfraction

/-- Two numbers are equal when neither is a NaN and both stand for the same number. -/
theorem same_iff_units :
    x.same y = true ↔ x.isNaN = false ∧ y.isNaN = false ∧ x.units = y.units := by
  simp only [same, Bool.and_eq_true, Bool.or_eq_true, Bool.not_eq_true', beq_iff_eq, and_assoc]
  refine and_congr_right fun _ => and_congr_right fun _ => ⟨?_, fun h => ?_⟩
  · rintro (rfl | ⟨hx, hy⟩)
    · rfl
    · rw [units_eq_zero_iff.mpr hx, units_eq_zero_iff.mpr hy]
  · by_cases hx : x.units = 0
    · exact .inr ⟨units_eq_zero_iff.mp hx, units_eq_zero_iff.mp (h ▸ hx)⟩
    · exact .inl (eq_of_units h hx)

end Binary64
end Destructure
