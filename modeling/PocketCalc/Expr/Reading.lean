import PocketCalc.Error
import PocketCalc.Expr.Basic
import PocketCalc.Token.Basic

/-!
# From tokens to an expression

Tokens form an expression by this grammar, whose rules bind the tighter the later they stand:

- a sum is a chain of terms with `+` or `-` between them, taken from the left;
- a term is an operand followed by any number of `*` operand, `/` operand and `%`, each applied to
  all that the term holds so far, with no two `%` in a row;
- an operand is a primary behind any number of `-`, followed by any number of `√`; and
- a primary is a number, the name of a constant, the name of a function with its arguments, or a sum
  in parentheses.

A `Reading` is what has been understood of the tokens so far: the brackets that are open, what
stands to the left inside each, and whether an operand or an operation has to follow. One token takes
it one step further, without looking ahead, or shows at once that no expression starts like this. The
open brackets and the signs that wait for their operand are limited in number, and chains are not.
-/

namespace PocketCalc

/-- How many brackets, negations and roots may be open at once. -/
def maxNesting : Nat := 256

/-- The operations that join terms to a sum. -/
inductive SumOp
  /-- Addition. -/
  | plus
  /-- Subtraction. -/
  | minus
deriving DecidableEq

/-- The operations that join operands to a term. -/
inductive TermOp
  /-- Multiplication. -/
  | times
  /-- Division. -/
  | divide
deriving DecidableEq

/-- The operation as it stands in an expression. -/
def SumOp.toBinary : SumOp → BinaryOp
  | plus => .add
  | minus => .sub

/-- The operation as it stands in an expression. -/
def TermOp.toBinary : TermOp → BinaryOp
  | times => .mul
  | divide => .div

/-- The part of a sum that has been read before the term that is being read. -/
abbrev OpenSum := Option (Expr × SumOp)

/-- The sum that a finished term completes. -/
def OpenSum.close (sum : OpenSum) (term : Expr) : Expr :=
  match sum with
  | none => term
  | some (left, op) => .binary op.toBinary left term

/-- What stands to the left of an operand, inside the innermost bracket. -/
structure OpenOperand where
  /-- The sum before the operand's term. -/
  sum : OpenSum := none
  /-- The term before the operand, and the operation that joins the operand to it. -/
  term : Option (Expr × TermOp) := none
  /-- How many minus signs stand before the operand. -/
  negations : Nat := 0
  /-- How many root signs stand between these and the operand. -/
  roots : Nat := 0

namespace OpenOperand

/-- How many signs wait for the operand. -/
def nesting (left : OpenOperand) : Nat := left.negations + left.roots

/-- Whether nothing stands before the operand. -/
def isEmpty (left : OpenOperand) : Bool :=
  left.sum.isNone && left.term.isNone && left.nesting == 0

/-- The term that a primary completes: the roots and then the negations that wait for it apply to
it, and the term so far is joined with what they give. -/
def close (left : OpenOperand) (primary : Expr) : Expr :=
  let rooted := Nat.repeat .squareRoot left.roots primary
  let signed := Nat.repeat .negation left.negations rooted
  match left.term with
  | none => signed
  | some (term, op) => .binary op.toBinary term signed

end OpenOperand

/-- A bracket that is open, with what stands to the left of it. -/
inductive Bracket
  /-- A parenthesis around a sum. -/
  | group (left : OpenOperand)
  /-- The parenthesis of a call, with the arguments before the current one, the last first. -/
  | call (left : OpenOperand) (name : String) (argsBefore : List Expr)

/-- How much a bracket adds to the nesting: itself, and the signs that wait for what it holds. -/
def Bracket.nesting : Bracket → Nat
  | group left => left.nesting + 1
  | call left _ _ => left.nesting + 1

/-- What has been understood of some tokens, with the open brackets from the innermost to the
outermost. -/
inductive Reading
  /-- An operand has to follow. -/
  | beforeOperand (brackets : List Bracket) (left : OpenOperand)
  /-- A name has been read: a call if a parenthesis follows, else a constant. -/
  | afterName (brackets : List Bracket) (left : OpenOperand) (name : String)
  /-- An operation or the end of the innermost bracket has to follow a term; `percent` says whether
  its last token was a percent sign. -/
  | afterTerm (brackets : List Bracket) (sum : OpenSum) (term : Expr) (percent : Bool)

namespace Reading

/-- The reading before the first token. -/
def start : Reading := .beforeOperand [] {}

/-- How many brackets and signs are open. -/
def nesting : List Bracket → OpenOperand → Nat
  | [], left => left.nesting
  | bracket :: brackets, left => nesting brackets left + bracket.nesting

/-- The error at a token that cannot follow. -/
def unexpected (t : PlacedToken) : Except SyntaxError Reading :=
  .error (.unexpectedToken t.token.text t.position)

/-- The reading with one more bracket or sign open, if that is within the limit. -/
def deeper (brackets : List Bracket) (left : OpenOperand) (next : Reading) :
    Except SyntaxError Reading :=
  if nesting brackets left < maxNesting then .ok next else .error (.nestingTooDeep maxNesting)

/-- The reading after a primary. -/
def afterPrimary (brackets : List Bracket) (left : OpenOperand) (primary : Expr) : Reading :=
  .afterTerm brackets left.sum (left.close primary) false

/-- The reading after the closing parenthesis of a call; a known function has to have as many
arguments as it takes. -/
def afterCall (brackets : List Bracket) (left : OpenOperand) (name : String) (args : List Expr) :
    Except SyntaxError Reading :=
  match Function.ofName? name with
  | none => .ok (afterPrimary brackets left (.call name args))
  | some f =>
    if args.length = f.arity then .ok (afterPrimary brackets left (.call name args))
    else .error (.arityMismatch name f.arity args.length)

/-- A token where an operand has to start. A closing parenthesis fits only right behind the opening
one of a call, which then has no arguments. -/
def stepOperand (brackets : List Bracket) (left : OpenOperand) (t : PlacedToken) :
    Except SyntaxError Reading :=
  match t.token with
  | .number v => .ok (afterPrimary brackets left (.number v))
  | .word name => .ok (.afterName brackets left name)
  | .minus =>
    if left.roots = 0 then
      deeper brackets left (.beforeOperand brackets { left with negations := left.negations + 1 })
    else unexpected t
  | .root =>
    deeper brackets left (.beforeOperand brackets { left with roots := left.roots + 1 })
  | .opening => deeper brackets left (.beforeOperand (.group left :: brackets) {})
  | .closing =>
    match brackets with
    | .call outer name [] :: brackets =>
      if left.isEmpty then afterCall brackets outer name [] else unexpected t
    | _ => unexpected t
  | _ => unexpected t

/-- A token behind a term. -/
def stepTerm (brackets : List Bracket) (sum : OpenSum) (term : Expr) (percent : Bool)
    (t : PlacedToken) : Except SyntaxError Reading :=
  match t.token with
  | .plus => .ok (.beforeOperand brackets { sum := some (sum.close term, .plus) })
  | .minus => .ok (.beforeOperand brackets { sum := some (sum.close term, .minus) })
  | .times => .ok (.beforeOperand brackets { sum, term := some (term, .times) })
  | .divide => .ok (.beforeOperand brackets { sum, term := some (term, .divide) })
  | .percent =>
    if percent then unexpected t else .ok (.afterTerm brackets sum (.percent term) true)
  | .closing =>
    match brackets with
    | .group outer :: brackets => .ok (afterPrimary brackets outer (sum.close term))
    | .call outer name before :: brackets =>
      afterCall brackets outer name (sum.close term :: before).reverse
    | [] => unexpected t
  | .comma =>
    match brackets with
    | .call outer name before :: brackets =>
      .ok (.beforeOperand (.call outer name (sum.close term :: before) :: brackets) {})
    | _ => unexpected t
  | _ => unexpected t

/-- The reading after one more token, or the error that this token shows. -/
def step (reading : Reading) (t : PlacedToken) : Except SyntaxError Reading :=
  match reading with
  | .beforeOperand brackets left => stepOperand brackets left t
  | .afterName brackets left name =>
    match t.token with
    | .opening =>
      deeper brackets left (.beforeOperand (.call left name [] :: brackets) {})
    | _ => stepTerm brackets left.sum (left.close (.constant name)) false t
  | .afterTerm brackets sum term percent => stepTerm brackets sum term percent t

/-- The expression that has been read, if the tokens may end here. -/
def finish : Reading → Except SyntaxError Expr
  | .afterName [] left name => .ok (left.sum.close (left.close (.constant name)))
  | .afterTerm [] sum term _ => .ok (sum.close term)
  | _ => .error .unexpectedEnd

end Reading

/-- The expression that some tokens form, or the first error among them. -/
def Expr.ofTokens (tokens : List PlacedToken) : Except SyntaxError Expr := do
  (← tokens.foldlM Reading.step .start).finish

end PocketCalc
