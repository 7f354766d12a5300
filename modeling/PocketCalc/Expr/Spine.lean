import PocketCalc.Expr.Basic

/-!
# The left spine of an expression

A chain of operations leans to the left and can be as high as the entry is long, while nesting on the
right is bounded. So an expression is walked along its left spine: a `Base`, which is neither an
operation nor a percentage, and the `Link`s that were applied to it, the innermost first.
`Expr.spine` is that view, and `Expr.foldSpine` computes a value from the base and the links of
every spine, those of arguments and right operands first.
-/

namespace PocketCalc

/-- What a spine starts with, over values for the expressions below it. -/
inductive Base (α : Type)
  /-- A number. -/
  | number (value : Binary64)
  /-- A constant, by its name. -/
  | constant (name : String)
  /-- A function, by its name, with its arguments. -/
  | call (name : String) (args : List α)
  /-- The operand with its sign changed. -/
  | negation (operand : α)

/-- What is applied to the value of a spine so far, over values for right operands. -/
inductive Link (α : Type)
  /-- An operation with its right operand. -/
  | binary (op : BinaryOp) (right : α)
  /-- A percent sign. -/
  | percent

/-- Whether the link is an operation. -/
def Link.isBinary {α : Type} : Link α → Bool
  | binary _ _ => true
  | percent => false

/-- The left spine of an expression. -/
structure Spine where
  /-- What the spine starts with. -/
  base : Base Expr
  /-- What is applied to it, the innermost first. -/
  links : List (Link Expr)

namespace Expr

/-- The spine of an expression below links that are already known. -/
def spineBelow : Expr → List (Link Expr) → Spine
  | number v, links => ⟨.number v, links⟩
  | constant name, links => ⟨.constant name, links⟩
  | call name args, links => ⟨.call name args, links⟩
  | negation x, links => ⟨.negation x, links⟩
  | binary op a b, links => spineBelow a (.binary op b :: links)
  | percent x, links => spineBelow x (.percent :: links)

/-- The left spine of an expression. -/
def spine (x : Expr) : Spine := x.spineBelow []

section Fold

variable {α : Type} (combine : Base α → List (Link α) → α)

mutual

/-- The value of the spine of an expression below links whose values are already known. -/
def foldBelow : Expr → List (Link α) → α
  | number v, links => combine (.number v) links
  | constant name, links => combine (.constant name) links
  | call name args, links => combine (.call name (foldAll args)) links
  | negation x, links => combine (.negation (foldBelow x [])) links
  | binary op a b, links => foldBelow a (.binary op (foldBelow b []) :: links)
  | percent x, links => foldBelow x (.percent :: links)

/-- The values of some expressions. -/
def foldAll : List Expr → List α
  | [] => []
  | x :: xs => foldBelow x [] :: foldAll xs

end

/-- The value of an expression, combined from the base and the links of each spine. -/
def foldSpine (x : Expr) : α := foldBelow combine x []

end Fold

end Expr

end PocketCalc
