import PocketCalc.Decimal.Layout

/-!
# Tokens

The tokens of an expression: numbers, words, and symbols of one character. Each token has a text, by
which messages and the explanation of a calculation name it. A placed token also knows at which
character of the entry it starts.
-/

namespace PocketCalc

/-- A token of an expression. -/
inductive Token
  /-- A number, already rounded to a double. -/
  | number (value : Binary64)
  /-- A word, the name of a constant or of a function. -/
  | word (name : String)
  /-- Addition. -/
  | plus
  /-- Subtraction or negation. -/
  | minus
  /-- Multiplication. -/
  | times
  /-- Division. -/
  | divide
  /-- The percent sign, which follows its operand. -/
  | percent
  /-- The root sign, which stands before its operand. -/
  | root
  /-- An opening parenthesis. -/
  | opening
  /-- A closing parenthesis. -/
  | closing
  /-- The comma between arguments. -/
  | comma
deriving DecidableEq

/-- A token and the number of characters before it in the entry. -/
structure PlacedToken where
  /-- The token. -/
  token : Token
  /-- Where its first character stands, counted from zero. -/
  position : Nat
deriving DecidableEq

namespace Token

/-- The symbol that a single character stands for, in any of its spellings. -/
def ofSymbol? : Char → Option Token
  | '(' => some opening
  | ')' => some closing
  | ',' => some comma
  | '+' => some plus
  | '-' | '−' => some minus
  | '*' | '×' => some times
  | '/' | '÷' => some divide
  | '%' => some percent
  | '√' => some root
  | 'π' => some (word "pi")
  | _ => none

/-- The text of a token: a number in positional form, a word as it is, a symbol in its plain
spelling. -/
def text : Token → String
  | number v => v.positional
  | word name => name
  | plus => "+"
  | minus => "-"
  | times => "*"
  | divide => "/"
  | percent => "%"
  | root => "√"
  | opening => "("
  | closing => ")"
  | comma => ","

/-- The texts of some tokens, one space apart. -/
def textOfAll (tokens : List PlacedToken) : String :=
  " ".intercalate (tokens.map (·.token.text))

end Token

end PocketCalc
