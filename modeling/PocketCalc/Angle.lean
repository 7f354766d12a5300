import PocketCalc.Binary64.Arithmetic

/-!
# Angles

An angle is a number of degrees or of radians, as the calculator is set. The three trigonometric
functions are exact on whole quarter turns: `AngleUnit.quarterTurns?` recognises those angles, up to
the noise that computing with `π` leaves, and `Trig.atQuarterTurns` gives the values there.
-/

namespace PocketCalc

namespace Binary64

/-- The double nearest to `π`. -/
def pi : Binary64 := signed false { rank := 0x400921FB54442D18 }

/-- The double nearest to `π / 2`. -/
def halfPi : Binary64 := signed false { rank := 0x3FF921FB54442D18 }

/-- The double nearest to the base of natural logarithms. -/
def e : Binary64 := signed false { rank := 0x4005BF0A8B145769 }

end Binary64

/-- The unit in which angles are given. -/
inductive AngleUnit
  /-- Degrees, 90 to a quarter turn. -/
  | degrees
  /-- Radians, `π / 2` to a quarter turn. -/
  | radians
deriving DecidableEq

namespace AngleUnit

instance : Inhabited AngleUnit := ⟨degrees⟩

/-- What the key that switches the unit shows. -/
def label : AngleUnit → String
  | degrees => "DEG"
  | radians => "RAD"

/-- The other unit. -/
def toggle : AngleUnit → AngleUnit
  | degrees => radians
  | radians => degrees

/-- A quarter turn in the unit. -/
def quarterTurn : AngleUnit → Binary64
  | degrees => .ofNat 90
  | radians => .halfPi

/-- An angle of the unit in radians. -/
def toRadians (x : Binary64) : AngleUnit → Binary64
  | degrees => x * (.pi / .ofNat 180)
  | radians => x

/-- An angle in radians in the unit. -/
def ofRadians (x : Binary64) : AngleUnit → Binary64
  | degrees => x * (.ofNat 180 / .pi)
  | radians => x

/-- The largest number of quarter turns that a double still tells apart from its neighbours well
enough to count as whole. -/
def maxQuarterTurns : Nat := Nat.pow 10 9

/-- The whole number next to a magnitude, half a unit going away from zero. -/
def nearestWhole (a : Magnitude) : Nat := (2 * a.units + unitsInOne) / (2 * unitsInOne)

/-- Whether a magnitude differs from a whole number by at most `2^-49` of itself, eight times the
relative step of doubles. -/
def isNearly (a : Magnitude) (k : Nat) : Bool :=
  ((a.units : Int) - k * unitsInOne).natAbs * Nat.pow 2 49 ≤ a.units

/-- The number of quarter turns in an angle, if it is whole up to noise, not zero, and not too large
to be told apart. An angle that rounds to no quarter turn keeps its own value. -/
def quarterTurns? (x : Binary64) (unit : AngleUnit) : Option Int :=
  match x / unit.quarterTurn with
  | .nan => none
  | .signed s a =>
    let k := nearestWhole a
    if a.isInfinite || decide (maxQuarterTurns * unitsInOne < a.units) then none
    else if k = 0 || !isNearly a k then none
    else some (if s then -(k : Int) else k)

end AngleUnit

/-- The three trigonometric functions. -/
inductive Trig
  /-- The sine. -/
  | sin
  /-- The cosine. -/
  | cos
  /-- The tangent. -/
  | tan
deriving DecidableEq

/-- The exact value of a trigonometric function after some quarter turns, which repeats after four of
them; the tangent has none after an odd number. -/
def Trig.atQuarterTurns (t : Trig) (k : Int) : Option Binary64 :=
  match t, k % 4 with
  | sin, 0 | sin, 2 => some .zero
  | sin, 1 => some (.ofNat 1)
  | sin, _ => some (-.ofNat 1)
  | cos, 1 | cos, 3 => some .zero
  | cos, 0 => some (.ofNat 1)
  | cos, _ => some (-.ofNat 1)
  | tan, 0 | tan, 2 => some .zero
  | tan, _ => none

end PocketCalc
