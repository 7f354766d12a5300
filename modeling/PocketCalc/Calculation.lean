import PocketCalc.Display
import PocketCalc.Expr.Evaluation
import PocketCalc.Expr.Printer
import PocketCalc.Expr.Reading
import PocketCalc.Token.Lexer

/-!
# A whole calculation

A calculation reads an entry into tokens, the tokens into an expression, and evaluates it. Besides
its result it keeps a trace for the user: the tokens, the expression as it was understood, and the
stage that was reached. The first error ends the calculation, and the trace stays as it is then.
-/

namespace PocketCalc

/-- How far a calculation came. -/
inductive Stage
  /-- Nothing has been calculated. -/
  | idle
  /-- The entry was being divided into tokens. -/
  | tokens
  /-- The tokens were being read as an expression. -/
  | expression
  /-- The expression was being evaluated. -/
  | evaluation
  /-- The calculation has a result. -/
  | finished
deriving DecidableEq

/-- How a calculation went, for the user to read. -/
structure Trace where
  /-- The tokens of the entry. -/
  tokens : String := ""
  /-- The expression that they form. -/
  expression : String := ""
  /-- The stage that was reached. -/
  stage : Stage := .idle
deriving DecidableEq

/-- A calculation that has ended. -/
structure Calculation where
  /-- The result, or the error that ended the calculation. -/
  result : Except CalculationError Binary64
  /-- How the calculation went. -/
  trace : Trace

/-- What the display shows for a calculation. -/
def Calculation.display (c : Calculation) : Display := .ofResult c.result

/-- Calculates an entry, without the blanks around it. -/
def calculate (A : Arithmetic) (unit : AngleUnit) (entry : String) : Calculation :=
  match tokenize (trim entry.toList) with
  | .error e => ⟨.error (.lexical e), { stage := .tokens }⟩
  | .ok tokens =>
    let text := Token.textOfAll tokens
    match Expr.ofTokens tokens with
    | .error e => ⟨.error (.grammatical e), { tokens := text, stage := .expression }⟩
    | .ok x =>
      match x.result A unit with
      | .error e => ⟨.error (.evaluation e), ⟨text, x.text, .evaluation⟩⟩
      | .ok v => ⟨.ok v, ⟨text, x.text, .finished⟩⟩

/-- What the display shows for an entry. -/
def displayOf (A : Arithmetic) (unit : AngleUnit) (entry : String) : Display :=
  (calculate A unit entry).display

end PocketCalc
