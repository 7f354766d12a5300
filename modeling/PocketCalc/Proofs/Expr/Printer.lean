import PocketCalc.Expr.Printer
import PocketCalc.Proofs.Expr.Spine

/-!
# The text of an expression, node by node

The printer walks the spines of an expression. `Expr.plainText` is the text by plain recursion, one
case for each kind of node, and both are the same (`Expr.text_eq_plainText`). What carries the proof
is `framed`: the text of an expression with the links of a spine above it, which opens one
parenthesis for each operation among them before the text, and closes it behind.

With the spine as a view of the expression (`Expr.toExpr_eq_iff`), nothing is lost on the way along it:
the links rebuild the expression, and the text that is written along them is the plain one.
-/

namespace PocketCalc

namespace Expr

mutual

/-- The text of an expression from the texts of its operands or arguments. -/
def plainText : Expr → String
  | number v => v.positional
  | constant name => if name = "pi" then "π" else name
  | call name args => name ++ "(" ++ ", ".intercalate (plainTexts args) ++ ")"
  | binary op a b => "(" ++ plainText a ++ " " ++ op.symbol.toString ++ " " ++ plainText b ++ ")"
  | negation x => "-" ++ plainText x
  | percent x => plainText x ++ "%"

/-- The texts of some expressions. -/
def plainTexts : List Expr → List String
  | [] => []
  | x :: xs => plainText x :: plainTexts xs

end

/-- A text with the links of a spine around it: as many opening parentheses before it as there are
operations, and what each link adds behind it. -/
def framed (text : String) (links : List (Link String)) : String :=
  String.join ((links.filter Link.isBinary).map (fun _ => "(") ++ text :: links.map Link.text)

/-- Without links a text stands alone. -/
@[simp]
theorem framed_nil (text : String) : framed text [] = text := by
  simp [framed, String.join_cons]

/-- An operation puts its parentheses right around the text. -/
theorem framed_binary (text right : String) (op : BinaryOp) (links : List (Link String)) :
    framed text (.binary op right :: links) =
      framed ("(" ++ text ++ " " ++ op.symbol.toString ++ " " ++ right ++ ")") links := by
  -- All that is opened is alike, so that the parenthesis may stand behind the others.
  have hopened : "(" :: (links.filter Link.isBinary).map (fun _ => "(") =
      (links.filter Link.isBinary).map (fun _ => "(") ++ ["("] := by
    rw [List.map_const', ← List.replicate_succ, List.replicate_succ']
  unfold framed
  rw [List.filter_cons_of_pos rfl, List.map_cons, hopened, List.append_assoc]
  simp only [String.join_append, String.join_cons, List.singleton_append, List.map_cons, Link.text,
    String.append_assoc]

/-- A percent sign stands right behind the text. -/
theorem framed_percent (text : String) (links : List (Link String)) :
    framed text (.percent :: links) = framed (text ++ "%") links := by
  unfold framed
  rw [List.filter_cons_of_neg (by simp [Link.isBinary])]
  simp only [String.join_append, String.join_cons, List.map_cons, Link.text, String.append_assoc]

/-- The name of a constant is written as it is, but for `π`. -/
theorem text_constant (name : String) :
    Base.text (.constant name) = if name = "pi" then "π" else name := by
  unfold Base.text
  split <;> simp_all

mutual

/-- Walking a spine puts its links around the plain text. -/
theorem foldBelow_spineText : ∀ (x : Expr) (links : List (Link String)),
    foldBelow spineText x links = framed x.plainText links
  | number v, links => rfl
  | constant name, links => by
    rw [foldBelow, plainText, ← text_constant]
    rfl
  | call name args, links => by
    rw [foldBelow, plainText, foldAll_spineText args]
    rfl
  | negation x, links => by
    rw [foldBelow, plainText, foldBelow_spineText x [], framed_nil]
    rfl
  | binary op a b, links => by
    rw [foldBelow, plainText, foldBelow_spineText a, foldBelow_spineText b [], framed_nil,
      framed_binary]
  | percent x, links => by
    rw [foldBelow, plainText, foldBelow_spineText x, framed_percent]

/-- The texts below a call are those of its arguments. -/
theorem foldAll_spineText : ∀ xs : List Expr, foldAll spineText xs = plainTexts xs
  | [] => rfl
  | x :: xs => by
    rw [foldAll, plainTexts, foldBelow_spineText x [], framed_nil, foldAll_spineText xs]

end

/-- Walking the spines of an expression writes its plain text. -/
theorem text_eq_plainText (x : Expr) : x.text = x.plainText := by
  rw [text, foldSpine, foldBelow_spineText, framed_nil]

/-- The spine of an expression starts with neither an operation nor a percentage, and it is the one
spine whose links, applied to its base, give the expression back. The printer writes the text of this
spine over the texts below it, which is the plain text of the expression. -/
theorem spine_faithful (x : Expr) :
    (∀ op a b, x.spine.base.toExpr ≠ binary op a b) ∧
      (∀ y, x.spine.base.toExpr ≠ percent y) ∧
      x.spine.links.foldl Link.apply x.spine.base.toExpr = x ∧
      (∀ s : Spine, s.toExpr = x → s = x.spine) ∧
      x.text = spineText (x.spine.base.map text) (x.spine.links.map (Link.map text)) ∧
      x.text = x.plainText :=
  ⟨x.spine.base.toExpr_ne_binary, x.spine.base.toExpr_ne_percent, toExpr_spine x,
    fun _ => toExpr_eq_iff.mp, foldSpine_eq spineText x, text_eq_plainText x⟩

end Expr

end PocketCalc
