/-
The text of a floating-point number.

Magnitudes from `0.0001` up to ten quadrillion are written positionally, always
with a fractional part; others carry an exponent, without sign or padding when
it is positive and without `.0` when the mantissa is one digit.
-/
import Destructure.Decimal

namespace Destructure
namespace Decimal

/-- The position of the decimal point, counted from the front of the digits. -/
def point (d : Decimal) : Int := digitCount d.digits + d.exponent

/-- Whether a positive decimal is at least `10 ^ -4` and less than `10 ^ 16`. -/
def isPositional (d : Decimal) : Bool := -3 ≤ d.point && d.point ≤ 16

/-- The digits with a point among them, and zeros where the point lies outside. -/
def positional (d : Decimal) : String :=
  let digits := Nat.toDigits 10 d.digits
  if d.point ≤ 0 then
    "0." ++ String.ofList (List.replicate (-d.point).toNat '0' ++ digits)
  else
    let whole := digits.take d.point.toNat ++ List.replicate (d.point.toNat - digits.length) '0'
    let rest := digits.drop d.point.toNat
    String.ofList whole ++ "." ++ (if rest.isEmpty then "0" else String.ofList rest)

/-- One digit before the point, the others behind it, and the power of ten. -/
def scientific (d : Decimal) : String :=
  let digits := Nat.toDigits 10 d.digits
  let rest := digits.drop 1
  String.ofList (digits.take 1) ++ (if rest.isEmpty then "" else "." ++ String.ofList rest) ++
    "e" ++ toString (d.point - 1)

def text (d : Decimal) : String :=
  if d.isPositional then d.positional else d.scientific

end Decimal

namespace Binary64

/-- The text of the magnitude of a number other than NaN. -/
def magnitudeText (x : Binary64) : String :=
  if x.isInfinite then "inf"
  else if x.isZero then "0.0"
  else x.window.shortest.text

/-- The fewest digits that read back as the number.  Every NaN is written alike and
without a sign; the sign of zero is kept. -/
def text (x : Binary64) : String :=
  if x.isNaN then "NaN"
  else if x.negative then "-" ++ x.magnitudeText
  else x.magnitudeText

/-! ## The turning points of the notation -/

example : (Binary64.mk 0x3ff0000000000000).text = "1.0" := by decide +kernel
example : (Binary64.mk 0x8000000000000000).text = "-0.0" := by decide +kernel
example : (Binary64.mk 0x3f1a36e2eb1c432d).text = "0.0001" := by decide +kernel
example : (Binary64.mk 0x3f1a36e2eb1c432c).text = "9.999999999999999e-5" := by decide +kernel
example : (Binary64.mk 0x4341c37937e08000).text = "1e16" := by decide +kernel
example : (Binary64.mk 0x4341c37937e07fff).text = "9999999999999998.0" := by decide +kernel
example : (Binary64.mk 0x44b52d02c7e14af6).text = "1e23" := by decide +kernel
example : (Binary64.mk 0x3e60000000000000).text = "2.9802322387695313e-8" := by decide +kernel
example : (Binary64.mk 0x0000000000000001).text = "5e-324" := by decide +kernel
example : (Binary64.mk 0x7fefffffffffffff).text = "1.7976931348623157e308" := by decide +kernel

end Binary64
end Destructure
