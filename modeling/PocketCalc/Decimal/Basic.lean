import PocketCalc.Binary64.Rounding

/-!
# Decimal numbers

A `Decimal` is a natural coefficient and a power of ten. `Decimal.nearest` rounds it to a double,
once and exactly. Before it forms a power of ten it sorts out the decimals that are far too large or
far too small, so that an exponent of any length costs nothing; `reduce` drops the zeros that a
coefficient ends with.
-/

namespace PocketCalc

/-- The non-negative decimal number `coefficient * 10^exponent`. -/
structure Decimal where
  /-- The digits, read as a natural number. -/
  coefficient : Nat
  /-- The power of ten that the last digit counts. -/
  exponent : Int
deriving DecidableEq

namespace Decimal

/-- The numerator of the decimal in units, over the denominator `den`. -/
def num (d : Decimal) : Nat := d.coefficient * Nat.pow 10 d.exponent.toNat * unitsInOne

/-- The denominator of the decimal, a power of ten. -/
def den (d : Decimal) : Nat := Nat.pow 10 (-d.exponent).toNat

/-- Whether the decimal is below half a unit because its exponent alone says so: `10^n` exceeds
`2^(3 n)`, so these decimals are below `2^-1075`. -/
def isNegligible (d : Decimal) : Bool :=
  d.coefficient == 0 || (d.coefficient.log2 : Int) + 1076 ≤ -3 * d.exponent

/-- Whether the decimal exceeds every double because its exponent alone says so. -/
def isExcessive (d : Decimal) : Bool := d.coefficient != 0 && decide (309 < d.exponent)

/-- The magnitude nearest to the decimal, the one of even rank if two are equally near. -/
def nearest (d : Decimal) : Magnitude :=
  if d.isNegligible then .zero
  else if d.isExcessive then .infinity
  else .nearest d.num d.den

/-- The same number with the zeros at the end of the coefficient moved into the exponent. -/
def reduce (d : Decimal) : Decimal :=
  if d.coefficient ≠ 0 ∧ d.coefficient % 10 = 0 then
    reduce ⟨d.coefficient / 10, d.exponent + 1⟩
  else d
termination_by d.coefficient
decreasing_by omega

/-- The digits of the coefficient, from the first to the last. -/
def digits (d : Decimal) : List Char := Nat.toDigits 10 d.coefficient

end Decimal

end PocketCalc
