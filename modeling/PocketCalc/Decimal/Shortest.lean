import PocketCalc.Decimal.Significant

/-!
# The shortest decimal that reads back

Every double is the nearest one to a whole interval of numbers, which reaches half way to either
neighbour and holds its ends exactly if the rank is even. `Magnitude.shortest` finds the decimal with
the fewest digits in that interval. It walks from the coarsest power of ten to finer ones and stops
at the first whose multiples next to the value lie in the interval; if both do, it takes the nearer
one, and the upper one of two that are equally near. Seventeen digits always suffice.
-/

namespace PocketCalc

namespace Magnitude

/-- Whether the magnitude is the one that `d * 10^e` rounds to, decided on half units. -/
def roundsFrom (a : Magnitude) (e : Int) (d : Nat) : Bool :=
  let low := (unitsOfRank (a.rank - 1) + a.units) * Nat.pow 10 (-e).toNat
  let high := (a.units + unitsOfRank (a.rank + 1)) * Nat.pow 10 (-e).toNat
  let point := 2 * d * gridDen e
  if a.rank % 2 = 0 then low ≤ point && point ≤ high else low < point && point < high

/-- The multiple of `10^e` that rounds to the magnitude and is nearest to it, if there is one; of two
that are equally near, the upper one. -/
def onGrid (a : Magnitude) (e : Int) : Option Nat :=
  let floor := a.gridNum e / gridDen e
  let upperIsNearer : Bool := gridDen e ≤ 2 * (a.gridNum e % gridDen e)
  match a.roundsFrom e floor, a.roundsFrom e (floor + 1) with
  | true, true => some (if upperIsNearer then floor + 1 else floor)
  | true, false => some floor
  | false, true => some (floor + 1)
  | false, false => none

/-- The decimal of `n + 1` digits that rounds to the magnitude and is nearest to it, if there is
one. -/
def withDigits (a : Magnitude) (n : Nat) : Option Decimal :=
  (a.onGrid (a.decimalExponent - n)).map fun d => ⟨d, a.decimalExponent - n⟩

/-- The decimal with the fewest digits that rounds to the finite magnitude, and among those the
nearest one, without zeros at its end. -/
def shortest (a : Magnitude) : Decimal :=
  if a.isZero then ⟨0, 0⟩
  else (((List.range 17).findSome? a.withDigits).getD ⟨0, 0⟩).reduce

end Magnitude

end PocketCalc
