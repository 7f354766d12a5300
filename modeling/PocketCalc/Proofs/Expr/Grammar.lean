import PocketCalc.Expr.Reading

/-!
# The grammar of expressions

The relations below say which tokens form which tree, one relation for each rule of the grammar and
none of them after the shape of the reader. Chains of operations lean to the left: a sum joins terms
to the sum so far, and a term joins operands to the term so far, where a percent sign takes all of
the term. The index `n` is the number of brackets, negations and roots that may still be opened;
only these use it up, so that it bounds the nesting and not the length of a chain.

A constant is a name alone. No rule puts an opening parenthesis behind an operand, so that a name
with a parenthesis behind it can only be a call.
-/

namespace PocketCalc

/-- The token of an operation between terms. -/
def SumOp.token : SumOp → Token
  | plus => .plus
  | minus => .minus

/-- The token of an operation between operands. -/
def TermOp.token : TermOp → Token
  | times => .times
  | divide => .divide

namespace Grammar

/-- A call has as many arguments as its function takes; one of an unknown name may have any. -/
def HasArity (name : String) (args : List Expr) : Prop :=
  ∀ f, Function.ofName? name = some f → args.length = f.arity

mutual

/-- Tokens that form a sum. -/
inductive IsSum : Nat → List Token → Expr → Prop
  /-- A single term. -/
  | term {n ts percent x} : IsTerm n percent ts x → IsSum n ts x
  /-- A sum, and a term joined to all of it. -/
  | join {n ts us percent a b} (op : SumOp) : IsSum n ts a → IsTerm n percent us b →
      IsSum n (ts ++ op.token :: us) (.binary op.toBinary a b)

/-- Tokens that form a term; the flag says whether a percent sign is the last of them. -/
inductive IsTerm : Nat → Bool → List Token → Expr → Prop
  /-- A single operand. -/
  | operand {n ts x} : IsOperand n ts x → IsTerm n false ts x
  /-- A term, and an operand joined to all of it. -/
  | join {n ts us percent a b} (op : TermOp) : IsTerm n percent ts a → IsOperand n us b →
      IsTerm n false (ts ++ op.token :: us) (.binary op.toBinary a b)
  /-- A term and the percent sign of all of it, unless the term ends with one. -/
  | percent {n ts x} : IsTerm n false ts x → IsTerm n true (ts ++ [.percent]) (.percent x)

/-- Tokens that form an operand. -/
inductive IsOperand : Nat → List Token → Expr → Prop
  /-- An operand behind a minus sign. -/
  | negation {n ts x} : IsOperand n ts x → IsOperand (n + 1) (.minus :: ts) (.negation x)
  /-- An operand without a minus sign. -/
  | rooted {n ts x} : IsRooted n ts x → IsOperand n ts x

/-- Tokens that form a primary behind root signs. -/
inductive IsRooted : Nat → List Token → Expr → Prop
  /-- One more root sign. -/
  | root {n ts x} : IsRooted n ts x → IsRooted (n + 1) (.root :: ts) x.squareRoot
  /-- No root sign. -/
  | primary {n ts x} : IsPrimary n ts x → IsRooted n ts x

/-- Tokens that form a primary. -/
inductive IsPrimary : Nat → List Token → Expr → Prop
  /-- A number. -/
  | number {n} (v : Binary64) : IsPrimary n [.number v] (.number v)
  /-- A name alone. -/
  | constant {n} (name : String) : IsPrimary n [.word name] (.constant name)
  /-- A call without arguments. -/
  | emptyCall {n name} : HasArity name [] →
      IsPrimary (n + 1) [.word name, .opening, .closing] (.call name [])
  /-- A call with arguments. -/
  | call {n ts name args} : IsArguments n ts args → HasArity name args →
      IsPrimary (n + 1) (.word name :: .opening :: ts ++ [.closing]) (.call name args)
  /-- A sum in parentheses, which leave no trace in the tree. -/
  | group {n ts x} : IsSum n ts x → IsPrimary (n + 1) (.opening :: ts ++ [.closing]) x

/-- Tokens that form sums with commas between them. -/
inductive IsArguments : Nat → List Token → List Expr → Prop
  /-- A single argument. -/
  | first {n ts x} : IsSum n ts x → IsArguments n ts [x]
  /-- One more argument behind a comma. -/
  | next {n ts us args x} : IsArguments n ts args → IsSum n us x →
      IsArguments n (ts ++ .comma :: us) (args ++ [x])

end

end Grammar

end PocketCalc
