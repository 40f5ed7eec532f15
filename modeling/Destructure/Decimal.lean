/-
The shortest decimal that identifies a floating-point number.

A positive number stands for every real that rounds to it, and any decimal in
that window reads back as the number.  Among those the text uses one with the
fewest digits and, of these, the nearest.  The window's ends are exact
decimals, so the search compares natural numbers only.
-/
import Destructure.Binary64

namespace Destructure

/-- The number `digits * 10 ^ exponent`. -/
structure Decimal where
  digits : Nat
  exponent : Int
deriving DecidableEq, Repr

namespace Decimal

def digitCount (n : Nat) : Nat := (Nat.toDigits 10 n).length

/-- The reals that round to a positive number, in units of `10 ^ exponent`: those
from `low` to `high`, the ends included when the window is `closed`. -/
structure Window where
  low : Nat
  value : Nat
  high : Nat
  exponent : Int
  closed : Bool

namespace Window

def contains (w : Window) (n : Nat) : Bool :=
  if w.closed then w.low ≤ n && n ≤ w.high else w.low < n && n < w.high

/-- The multiple of `unit` in the window that is nearest to its value, as a number
of units.  Only the two multiples around the value can be nearest; when they are
equally near the greater one is taken. -/
def nearest? (w : Window) (unit : Nat) : Option Nat :=
  let below := w.value / unit
  let above := below + 1
  if w.contains (below * unit) then
    if w.contains (above * unit) && above * unit - w.value ≤ w.value - below * unit then
      some above
    else
      some below
  else if w.contains (above * unit) then
    some above
  else
    none

/-- The nearest multiple of the greatest power of ten, at most `10 ^ place`, that
has a multiple in the window.  The value itself is a multiple of one. -/
def coarsest (w : Window) : Nat → Decimal
  | 0 => ⟨w.value, w.exponent⟩
  | place + 1 =>
    match w.nearest? (Nat.pow 10 (place + 1)) with
    | some n => ⟨n, w.exponent + (place + 1)⟩
    | none => w.coarsest place

/-- The shortest decimal in the window.  The search starts one place above the
value's leading digit, where the next power of ten may already lie in the window,
so the digits found never end in zero. -/
def shortest (w : Window) : Decimal := w.coarsest (digitCount w.value)

end Window
end Decimal

namespace Binary64

/-- The window of the magnitude of a finite nonzero number.  The number is an
integer multiple of a power of two; a quarter of that power measures half the gap
to either neighbour, and half the gap below a power of two, where the spacing
halves.  Powers of two below one are made decimal by `2 ^ -k = 5 ^ k * 10 ^ -k`.
Rounding goes to even, so the ends belong to the window when the multiple is
even. -/
def window (x : Binary64) : Decimal.Window :=
  let subnormal := x.exponentField == 0
  let multiple := if subnormal then x.fractionField else 0x10000000000000 + x.fractionField
  let place := max x.exponentField 1
  let scale := if 1077 ≤ place then Nat.pow 2 (place - 1077) else Nat.pow 5 (1077 - place)
  let gap := if x.fractionField == 0 && 1 < x.exponentField then 1 else 2
  { low := (4 * multiple - gap) * scale
    value := 4 * multiple * scale
    high := (4 * multiple + 2) * scale
    exponent := min 0 ((place : Int) - 1077)
    closed := multiple % 2 == 0 }

end Binary64
end Destructure
