import PocketCalc.Binary64.Rounding
import PocketCalc.Decimal.Basic

/-!
# Rounding to significant digits

`Binary64.roundTo n` is the double nearest to the decimal of `n` significant digits that is nearest
to a double. Both roundings are exact: the first one takes the value of the double as a fraction,
never its printed form. The calculator shows its results to twelve digits, which hides the noise of
binary fractions.
-/

namespace PocketCalc

namespace Magnitude

/-- The power of ten of the first significant digit of a finite magnitude other than zero. No such
magnitude is below `10^-324`, so that as many more places make it a whole number, whose digits are
counted. -/
def decimalExponent (a : Magnitude) : Int :=
  (Nat.toDigits 10 (a.units * Nat.pow 10 324 / unitsInOne)).length - 325

/-- The numerator of the magnitude counted in steps of `10^e`. -/
def gridNum (a : Magnitude) (e : Int) : Nat := a.units * Nat.pow 10 (-e).toNat

/-- The denominator of a magnitude counted in steps of `10^e`. -/
def gridDen (e : Int) : Nat := unitsInOne * Nat.pow 10 e.toNat

/-- The decimal of `n` significant digits nearest to a finite magnitude other than zero, the even
one if two are equally near. -/
def significant (n : Nat) (a : Magnitude) : Decimal :=
  let e := a.decimalExponent + 1 - n
  ⟨roundHalfEven (a.gridNum e) (gridDen e), e⟩

end Magnitude

namespace Binary64

/-- The double nearest to the decimal of `n` significant digits nearest to `x`. Both zeros become
positive zero; without digits, and on values that are not finite, nothing is rounded. -/
def roundTo (n : Nat) : Binary64 → Binary64
  | nan => nan
  | signed s a =>
    if a.isZero then zero
    else if a.isInfinite || n == 0 then signed s a
    else signed s (a.significant n).nearest

end Binary64

end PocketCalc
