import PocketCalc.Function

/-!
# Expressions

The tree of an expression. Names are kept as written: whether a constant or a function of that name
exists is settled when the tree is evaluated.
-/

namespace PocketCalc

/-- An expression. -/
inductive Expr
  /-- A number. -/
  | number (value : Binary64)
  /-- A constant, by its name. -/
  | constant (name : String)
  /-- A function, by its name, with its arguments. -/
  | call (name : String) (args : List Expr)
  /-- An operation between two operands. -/
  | binary (op : BinaryOp) (left right : Expr)
  /-- The operand with its sign changed. -/
  | negation (operand : Expr)
  /-- A hundredth of the operand. -/
  | percent (operand : Expr)

/-- The square root of an expression, which is a call of the function of that name. -/
def Expr.squareRoot (operand : Expr) : Expr := .call "sqrt" [operand]

end PocketCalc
