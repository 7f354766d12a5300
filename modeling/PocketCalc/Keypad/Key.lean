import PocketCalc.Function

/-!
# The keys of the calculator

Some keys insert a piece of an expression into the entry; the others act on the whole calculator. An
inserting key has a caption, the text it inserts, and a kind of spacing, which says how that text is
set off from what stands before it. Spaces only make the entry easier to read.
-/

namespace PocketCalc

/-- How an inserted text is set off from the entry before it. -/
inductive Spacing
  /-- It follows directly, as typed. -/
  | asTyped
  /-- It follows the last character that is no blank. -/
  | tight
  /-- It has one space on either side, but none at the start of the entry. -/
  | spaced
  /-- It opens something, and a space goes before it where a letter, a digit or a closing parenthesis
  was last. -/
  | opening
  /-- It is a word, and a space goes before it where a digit or a closing parenthesis stands. -/
  | word

/-- A key that inserts a piece of an expression. -/
inductive InsertKey
  /-- A digit. -/
  | digit (d : Fin 10)
  /-- The decimal point. -/
  | point
  /-- The letter of an exponent. -/
  | exponent
  /-- An operation. -/
  | operator (op : BinaryOp)
  /-- An opening parenthesis. -/
  | opening
  /-- A closing parenthesis. -/
  | closing
  /-- The percent sign. -/
  | percent
  /-- The comma between arguments. -/
  | comma
  /-- A constant. -/
  | constant (c : Constant)
  /-- The root sign. -/
  | root
  /-- A trigonometric function. -/
  | trig (t : Trig)
  /-- An inverse trigonometric function. -/
  | arc (t : Trig)
  /-- The logarithm to base ten. -/
  | log
  /-- The natural logarithm. -/
  | ln
  /-- The power. -/
  | pow
deriving DecidableEq

namespace InsertKey

/-- What the key shows. -/
def caption : InsertKey → String
  | digit d => (Nat.digitChar d).toString
  | point => "."
  | exponent => "EXP"
  | operator .add => "+"
  | operator .sub => "-"
  | operator .mul => "×"
  | operator .div => "÷"
  | opening => "("
  | closing => ")"
  | percent => "%"
  | comma => ","
  | constant .pi => "π"
  | constant .e => "e"
  | root => "√"
  | trig .sin => "sin"
  | trig .cos => "cos"
  | trig .tan => "tan"
  | arc .sin => "asin"
  | arc .cos => "acos"
  | arc .tan => "atan"
  | log => "log"
  | ln => "ln"
  | pow => "pow"

/-- The text that the key inserts: a function comes with its opening parenthesis. -/
def text (k : InsertKey) : String :=
  match k with
  | exponent => "e"
  | trig _ | arc _ | log | ln | pow => k.caption ++ "("
  | _ => k.caption

/-- How the key sets its text off. -/
def spacing : InsertKey → Spacing
  | digit _ | point | exponent => .asTyped
  | closing | percent | comma => .tight
  | operator _ => .spaced
  | opening | root | trig _ | arc _ | log | ln | pow => .opening
  | constant _ => .word

/-- All inserting keys. -/
def all : List InsertKey :=
  [opening, closing, operator .add, operator .sub, operator .mul, operator .div, percent, comma,
    constant .pi, constant .e, root, trig .sin, trig .cos, trig .tan, arc .sin, arc .cos, arc .tan,
    log, ln, pow, point, exponent] ++ (List.finRange 10).map digit

end InsertKey

/-- A key of the calculator. -/
inductive Key
  /-- Inserts a piece of an expression. -/
  | insert (k : InsertKey)
  /-- Deletes the last piece of the entry. -/
  | delete
  /-- Clears the entry. -/
  | clearEntry
  /-- Clears the result and the trace. -/
  | clearResult
  /-- Clears everything and goes back to degrees. -/
  | reset
  /-- Switches the unit of angles. -/
  | toggleUnit
  /-- Evaluates the entry. -/
  | evaluate
deriving DecidableEq

namespace Key

/-- What the key shows while angles are in a unit. -/
def caption (unit : AngleUnit) : Key → String
  | insert k => k.caption
  | delete => "DEL"
  | clearEntry => "C"
  | clearResult => "CLR"
  | reset => "AC"
  | toggleUnit => unit.label
  | evaluate => "="

/-- All keys. -/
def all : List Key :=
  [clearEntry, clearResult, reset, toggleUnit, delete, evaluate] ++ InsertKey.all.map insert

/-- The key that shows a caption while angles are in a unit. -/
def ofCaption? (unit : AngleUnit) (caption : String) : Option Key :=
  all.find? fun k => k.caption unit == caption

end Key

end PocketCalc
