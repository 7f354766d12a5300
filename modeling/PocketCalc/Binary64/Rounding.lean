import PocketCalc.Binary64.Basic

/-!
# Rounding a fraction to the nearest double

`roundHalfEven` rounds a fraction of natural numbers to the nearest natural number, a half to the
even neighbour. `Magnitude.nearest` rounds a fraction of units to the nearest magnitude by rounding
it once to a whole number of steps of its binade: since ranks count those steps, and since an even
rank is an even number of steps, one addition turns the steps into the rank. A carry into the next
binade and an overflow to infinity need no case of their own.
-/

namespace PocketCalc

/-- The natural number nearest to `num / den`, the even one of two that are equally near. -/
def roundHalfEven (num den : Nat) : Nat :=
  if 2 * (num % den) < den then num / den
  else if den < 2 * (num % den) then num / den + 1
  else num / den + num / den % 2

namespace Magnitude

/-- The number of doublings from one unit to the step of the binade that holds `num / den` units:
none below `2^53` units, and one more at each power of two from there. -/
def binadeOf (num den : Nat) : Nat := (num / den).log2 - 52

/-- The magnitude nearest to `num / den` units of `2^-1074`, the one of even rank if two are equally
near, and infinity from half a step beyond the largest finite double. -/
def nearest (num den : Nat) : Magnitude where
  rank := min infiniteRank
    (binadeOf num den * binadeSize + roundHalfEven num (den * Nat.pow 2 (binadeOf num den)))
  rank_le := Nat.min_le_left _ _

end Magnitude

end PocketCalc
