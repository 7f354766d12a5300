import PocketCalc.Expr.Basic

/-!
# The parts of an expression

The parts of an expression are the expression itself and all that stands below it: operands,
arguments, and the shorter chains that a chain of operations starts with. `Expr.Every` states a
condition on all of them, node by node, and `Every.of_isPart` reads it off at a single part.
-/

namespace PocketCalc

namespace Expr

/-- The operands or arguments of an expression. -/
def children : Expr → List Expr
  | number _ => []
  | constant _ => []
  | call _ args => args
  | binary _ a b => [a, b]
  | negation x => [x]
  | percent x => [x]

/-- The expression is another one or stands below it. -/
inductive IsPart (x : Expr) : Expr → Prop
  /-- The expression itself. -/
  | self : IsPart x x
  /-- What stands in an operand or an argument. -/
  | child {y z} : IsPart x y → y ∈ z.children → IsPart x z

/-- The expression and all expressions below it pass the test. -/
inductive Every (p : Expr → Prop) : Expr → Prop
  /-- The expression passes, and so do its operands or arguments with all below them. -/
  | node {x} : p x → (∀ y ∈ x.children, Every p y) → Every p x

variable {p q r : Expr → Prop} {x y : Expr}

/-- The test of an expression and the tests below it. -/
theorem every_iff : x.Every p ↔ p x ∧ ∀ y ∈ x.children, y.Every p := by
  constructor
  · rintro ⟨hx, hchildren⟩
    exact ⟨hx, hchildren⟩
  · rintro ⟨hx, hchildren⟩
    exact .node hx hchildren

section Nodes

variable {v : Binary64} {name : String} {args : List Expr} {op : BinaryOp} {a b : Expr}

@[simp]
theorem every_number : (number v).Every p ↔ p (number v) :=
  every_iff.trans (by simp [children])

@[simp]
theorem every_constant : (constant name).Every p ↔ p (constant name) :=
  every_iff.trans (by simp [children])

@[simp]
theorem every_call : (call name args).Every p ↔ p (call name args) ∧ ∀ y ∈ args, y.Every p :=
  every_iff

@[simp]
theorem every_binary : (binary op a b).Every p ↔ p (binary op a b) ∧ a.Every p ∧ b.Every p :=
  every_iff.trans (by simp [children])

@[simp]
theorem every_negation : (negation x).Every p ↔ p (negation x) ∧ x.Every p :=
  every_iff.trans (by simp [children])

@[simp]
theorem every_percent : (percent x).Every p ↔ p (percent x) ∧ x.Every p :=
  every_iff.trans (by simp [children])

end Nodes

/-- Two tests that all nodes pass together give a third one. -/
theorem Every.imp₂ (hp : x.Every p) (hq : x.Every q) (h : ∀ y, p y → q y → r y) : x.Every r := by
  induction hp with
  | @node x hpx _ ih =>
    obtain ⟨hqx, hqs⟩ := every_iff.mp hq
    exact .node (h x hpx hqx) fun y hy => ih y hy (hqs y hy)

/-- What all nodes of an expression pass, each of its parts passes. -/
theorem Every.of_isPart (h : x.Every p) (hy : IsPart y x) : p y := by
  induction hy with
  | self => exact (every_iff.mp h).1
  | child _ hmem ih => exact ih ((every_iff.mp h).2 _ hmem)

end Expr

end PocketCalc
