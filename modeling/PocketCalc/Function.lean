import PocketCalc.Angle

/-!
# The names that an expression may use

The table of constants and functions. An `Arithmetic` supplies the operations that the calculator
does not define itself; whatever they return, the table only decides which of them is asked, on
which argument, and in which unit of angle. Of all functions, only the trigonometric ones and their
inverses read that unit.
-/

namespace PocketCalc

/-- An operation between two operands. -/
inductive BinaryOp
  /-- Addition. -/
  | add
  /-- Subtraction. -/
  | sub
  /-- Multiplication. -/
  | mul
  /-- Division. -/
  | div
deriving DecidableEq

/-- The sign of an operation. -/
def BinaryOp.symbol : BinaryOp → Char
  | add => '+'
  | sub => '-'
  | mul => '*'
  | div => '/'

/-- The operations on doubles that a calculation asks for. -/
structure Arithmetic where
  /-- The four operations between two operands. -/
  binary : BinaryOp → Binary64 → Binary64 → Binary64
  /-- The trigonometric functions of an angle in radians. -/
  trig : Trig → Binary64 → Binary64
  /-- The inverse trigonometric functions, with an angle in radians as their value. -/
  arc : Trig → Binary64 → Binary64
  /-- The square root. -/
  sqrt : Binary64 → Binary64
  /-- The logarithm to base ten. -/
  log10 : Binary64 → Binary64
  /-- The natural logarithm. -/
  ln : Binary64 → Binary64
  /-- The power of a base and an exponent. -/
  pow : Binary64 → Binary64 → Binary64

/-- The four operations on doubles, each rounded once. -/
def BinaryOp.onDoubles : BinaryOp → Binary64 → Binary64 → Binary64
  | add => (· + ·)
  | sub => (· - ·)
  | mul => (· * ·)
  | div => (· / ·)

/-- A constant that has a name. -/
inductive Constant
  /-- The number `π`. -/
  | pi
  /-- The base of natural logarithms. -/
  | e
deriving DecidableEq

namespace Constant

/-- The constant of a name. -/
def ofName? : String → Option Constant
  | "pi" => some pi
  | "e" => some e
  | _ => none

/-- The double nearest to the constant. -/
def value : Constant → Binary64
  | pi => .pi
  | e => .e

end Constant

/-- The value of a trigonometric function of an angle in the given unit, exact on whole quarter
turns; the tangent may have none there. -/
def Trig.ofAngle (A : Arithmetic) (unit : AngleUnit) (t : Trig) (x : Binary64) : Option Binary64 :=
  match unit.quarterTurns? x with
  | some k => t.atQuarterTurns k
  | none => some (A.trig t (unit.toRadians x))

/-- A function that has a name. -/
inductive Function
  /-- A trigonometric function of an angle. -/
  | trig (t : Trig)
  /-- The angle that has a given sine, cosine or tangent. -/
  | arc (t : Trig)
  /-- The square root. -/
  | sqrt
  /-- The logarithm to base ten. -/
  | log
  /-- The natural logarithm. -/
  | ln
  /-- The power of a base and an exponent. -/
  | pow
deriving DecidableEq

namespace Function

/-- The function of a name. -/
def ofName? : String → Option Function
  | "sin" => some (trig .sin)
  | "cos" => some (trig .cos)
  | "tan" => some (trig .tan)
  | "asin" => some (arc .sin)
  | "acos" => some (arc .cos)
  | "atan" => some (arc .tan)
  | "sqrt" => some sqrt
  | "log" => some log
  | "ln" => some ln
  | "pow" => some pow
  | _ => none

/-- How many arguments the function takes. -/
def arity : Function → Nat
  | pow => 2
  | _ => 1

/-- The value of a function on its arguments, or none where it is undefined. A missing argument
counts as not a number, and those past the arity are ignored. -/
def apply (A : Arithmetic) (unit : AngleUnit) (f : Function) (args : List Binary64) :
    Option Binary64 :=
  let x := args[0]?.getD .nan
  match f with
  | trig t => t.ofAngle A unit x
  | arc t => some (unit.ofRadians (A.arc t x))
  | sqrt => some (A.sqrt x)
  | log => some (A.log10 x)
  | ln => some (A.ln x)
  | pow => some (A.pow x (args[1]?.getD .nan))

end Function

end PocketCalc
