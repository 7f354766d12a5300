import PocketCalc.Binary64.Rounding

/-!
# The four operations on doubles

Each operation computes the exact result on units, as an integer or as a fraction, and rounds it
once. Infinities and the value that is not a number take part as IEEE 754 lays down: an operation
without a limit gives `nan`, a finite number divided by zero an infinity, and the sign of a zero
result follows the signs of the operands.
-/

namespace PocketCalc

namespace Binary64

/-- The exact value of a signed finite magnitude, in units of `2^-1074`. -/
def signedUnits (negative : Bool) (a : Magnitude) : Int :=
  if negative then -(a.units : Int) else a.units

/-- The double nearest to a whole number of units; `zeroSign` is the sign of a zero result. -/
def ofUnits (zeroSign : Bool) (n : Int) : Binary64 :=
  signed (if n = 0 then zeroSign else decide (n < 0)) (.nearest n.natAbs 1)

/-- The double nearest to a natural number. -/
def ofNat (n : Nat) : Binary64 := signed false (.nearest (n * unitsInOne) 1)

/-- The sum, rounded to the nearest double. -/
def add : Binary64 → Binary64 → Binary64
  | signed s a, signed t b =>
    if a.isInfinite then
      if b.isInfinite && s != t then nan else signed s a
    else if b.isInfinite then signed t b
    else ofUnits (s && t) (signedUnits s a + signedUnits t b)
  | _, _ => nan

/-- The difference, which is the sum with the subtrahend negated. -/
def sub (x y : Binary64) : Binary64 := add x (-y)

/-- The product, rounded to the nearest double. -/
def mul : Binary64 → Binary64 → Binary64
  | signed s a, signed t b =>
    if a.isInfinite || b.isInfinite then
      if a.isZero || b.isZero then nan else signed (s != t) .infinity
    else signed (s != t) (.nearest (a.units * b.units) unitsInOne)
  | _, _ => nan

/-- The quotient, rounded to the nearest double. -/
def div : Binary64 → Binary64 → Binary64
  | signed s a, signed t b =>
    if a.isInfinite then
      if b.isInfinite then nan else signed (s != t) .infinity
    else if b.isInfinite then signed (s != t) .zero
    else if b.isZero then
      if a.isZero then nan else signed (s != t) .infinity
    else signed (s != t) (.nearest (a.units * unitsInOne) b.units)
  | _, _ => nan

instance : Add Binary64 := ⟨add⟩

instance : Sub Binary64 := ⟨sub⟩

instance : Mul Binary64 := ⟨mul⟩

instance : Div Binary64 := ⟨div⟩

end Binary64

end PocketCalc
