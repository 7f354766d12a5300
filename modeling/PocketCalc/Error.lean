/-!
# What can go wrong in a calculation

The errors of the three stages, by cause. Each has one message, in the language of the calculator's
display, and one category: only a calculation that has no finite result is a mathematical error, and
all others are faults of the entry.
-/

namespace PocketCalc

/-- Why an entry does not divide into tokens. -/
inductive LexicalError
  /-- A character that starts no token. -/
  | unexpectedCharacter (c : Char) (position : Nat)
  /-- A number with a second point or without the digits of its exponent. -/
  | malformedNumber (position : Nat)
  /-- More characters than an entry may have. -/
  | inputTooLong (limit : Nat)
deriving DecidableEq

/-- Why tokens form no expression. -/
inductive SyntaxError
  /-- A token that cannot follow the ones before it. -/
  | unexpectedToken (found : String) (position : Nat)
  /-- The tokens end inside an expression. -/
  | unexpectedEnd
  /-- A call of a known function with the wrong number of arguments. -/
  | arityMismatch (name : String) (expected received : Nat)
  /-- More open constructs than may be open at once. -/
  | nestingTooDeep (limit : Nat)
deriving DecidableEq

/-- Why an expression has no value. -/
inductive EvaluationError
  /-- A result that is undefined or not finite. -/
  | mathError
  /-- A name that is no constant, or in a call no function. -/
  | unknownIdentifier (name : String)
deriving DecidableEq

/-- The error of a calculation, by the stage that it ends. -/
inductive CalculationError
  /-- The entry does not divide into tokens. -/
  | lexical (error : LexicalError)
  /-- The tokens form no expression. -/
  | grammatical (error : SyntaxError)
  /-- The expression has no value. -/
  | evaluation (error : EvaluationError)
deriving DecidableEq

/-- What the display tells apart. -/
inductive ErrorCategory
  /-- The calculation has no finite result. -/
  | mathError
  /-- The entry cannot be calculated. -/
  | invalidInput
deriving DecidableEq

/-- The message of a lexical error. -/
def LexicalError.message : LexicalError → String
  | unexpectedCharacter c position => s!"caractère inattendu '{c}' (position {position})"
  | malformedNumber position => s!"nombre mal formé (position {position})"
  | inputTooLong limit => s!"entrée trop longue (max {limit} caractères)"

/-- The message of a syntax error. -/
def SyntaxError.message : SyntaxError → String
  | unexpectedToken found position => s!"jeton inattendu '{found}' (position {position})"
  | unexpectedEnd => "fin d’expression inattendue"
  | arityMismatch name expected received =>
    s!"{name} attend {expected} argument(s), reçu {received}"
  | nestingTooDeep limit => s!"imbrication trop profonde (max {limit})"

/-- The message of an evaluation error. -/
def EvaluationError.message : EvaluationError → String
  | mathError => "erreur math (résultat non fini)"
  | unknownIdentifier name => s!"identifiant inconnu: {name}"

/-- The message of a calculation's error. -/
def CalculationError.message : CalculationError → String
  | lexical e => e.message
  | grammatical e => e.message
  | evaluation e => e.message

/-- The category of a calculation's error. -/
def CalculationError.category : CalculationError → ErrorCategory
  | evaluation .mathError => .mathError
  | _ => .invalidInput

/-- A computation in two steps succeeds only if both steps do. -/
theorem exists_of_bind_eq_ok {ε α β : Type} {m : Except ε α} {f : α → Except ε β} {b : β}
    (h : m >>= f = .ok b) : ∃ a, m = .ok a ∧ f a = .ok b := by
  cases m with
  | error e => cases h
  | ok a => exact ⟨a, rfl, h⟩

/-- A computation in two steps fails in the first step or in the second. -/
theorem eq_error_or_exists_of_bind_eq_error {ε α β : Type} {m : Except ε α} {f : α → Except ε β}
    {e : ε} (h : m >>= f = .error e) : m = .error e ∨ ∃ a, m = .ok a ∧ f a = .error e := by
  cases m with
  | error e' =>
    cases h
    exact .inl rfl
  | ok a => exact .inr ⟨a, rfl, h⟩

end PocketCalc
