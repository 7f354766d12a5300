import PocketCalc.Decimal.Layout
import PocketCalc.Expr.Spine

/-!
# The text of an expression

An expression is written with parentheses around every operation, which shows how it was understood.
All the parentheses that a spine opens stand before its base, and each operation along the spine
closes one.
-/

namespace PocketCalc

/-- The text of a base over the texts below it. -/
def Base.text : Base String → String
  | number v => v.positional
  | constant "pi" => "π"
  | constant name => name
  | call name args => name ++ "(" ++ ", ".intercalate args ++ ")"
  | negation x => "-" ++ x

/-- The text that a link adds behind the text of a spine so far. -/
def Link.text : Link String → String
  | binary op right => " " ++ op.symbol.toString ++ " " ++ right ++ ")"
  | percent => "%"

/-- The text of a spine over the texts below it. -/
def spineText (base : Base String) (links : List (Link String)) : String :=
  let opened := (links.filter Link.isBinary).map fun _ => "("
  String.join (opened ++ base.text :: links.map Link.text)

/-- The text of an expression. -/
def Expr.text (x : Expr) : String := x.foldSpine spineText

end PocketCalc
