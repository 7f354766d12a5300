import PocketCalc.Decimal.Significant
import PocketCalc.Error
import PocketCalc.Expr.Spine

/-!
# The value of an expression

An expression is evaluated along its left spine: the base first, then each link from the innermost to
the outermost, its right operand before the operation. After every step the value has to be finite,
so that nothing infinite or undefined goes into a further operation. `Expr.result` rounds the final
value to the twelve digits that the display shows.
-/

namespace PocketCalc

/-- How many significant digits a result has. -/
def resultDigits : Nat := 12

/-- The outcome of evaluating an expression. -/
abbrev Evaluation := Except EvaluationError Binary64

/-- Lets a finite value through and stops at any other. -/
def finite (v : Binary64) : Evaluation := if v.isFinite then .ok v else .error .mathError

/-- The value of a base over the values below it. A name is looked up before the arguments of a call
are looked at, and of these the first that has no value decides. -/
def Base.evaluate (A : Arithmetic) (unit : AngleUnit) : Base Evaluation → Evaluation
  | number v => finite v
  | constant name =>
    match Constant.ofName? name with
    | some c => finite c.value
    | none => .error (.unknownIdentifier name)
  | call name args =>
    match Function.ofName? name with
    | none => .error (.unknownIdentifier name)
    | some f => do
      let values ← args.mapM id
      match f.apply A unit values with
      | some v => finite v
      | none => .error .mathError
  | negation x => do finite (-(← x))

/-- The value of a link applied to the value of the spine so far. -/
def Link.evaluate (A : Arithmetic) (value : Binary64) : Link Evaluation → Evaluation
  | binary op right => do finite (A.binary op value (← right))
  | percent => finite (A.binary .div value (.ofNat 100))

/-- The value of a spine over the values below it. -/
def spineValue (A : Arithmetic) (unit : AngleUnit) (base : Base Evaluation)
    (links : List (Link Evaluation)) : Evaluation := do
  links.foldlM (Link.evaluate A) (← base.evaluate A unit)

namespace Expr

/-- The value of an expression before rounding. -/
def evaluate (A : Arithmetic) (unit : AngleUnit) (x : Expr) : Evaluation :=
  x.foldSpine (spineValue A unit)

/-- The value of an expression, rounded to the digits of a result. -/
def result (A : Arithmetic) (unit : AngleUnit) (x : Expr) : Evaluation := do
  return (← x.evaluate A unit).roundTo resultDigits

end Expr

end PocketCalc
