import PocketCalc.Proofs.Expr.Grammar
import PocketCalc.Proofs.Expr.Parts
import PocketCalc.Proofs.Expr.Printer
import PocketCalc.Proofs.Token.Writing

/-!
# The text of an expression and its tokens

`Expr.tokens` are the tokens that an expression is written with, parentheses included, and
`Expr.plainText` writes each of them so that the lexer finds it again. No two of them ever merge:
numbers and words are the only lexemes that could go on, and behind them stands nothing that does
(`IsBreak`). `Expr.writes_plainText` says this for any text behind the expression, by induction on the
expression, and `Expr.tokenize_text` for the text as a whole entry.

This needs numbers that are finite and without a sign, and names of lower-case letters
(`Token.IsPlain`), in all nodes of the expression.
-/

namespace PocketCalc

/-- The numbers and names in the node pass a test on tokens, and a call of a known function has as
many arguments as it takes. -/
def Expr.IsMadeOf (p : Token → Prop) : Expr → Prop
  | number v => p (.number v)
  | constant name => p (.word name)
  | call name args => p (.word name) ∧ Grammar.HasArity name args
  | _ => True

/-! ## The tokens of an expression -/

/-- The token of an operation. -/
def BinaryOp.token : BinaryOp → Token
  | add => .plus
  | sub => .minus
  | mul => .times
  | div => .divide

namespace Expr

mutual

/-- The tokens of the text of an expression. -/
def tokens : Expr → List Token
  | number v => [.number v]
  | constant name => [.word name]
  | call name args =>
    .word name :: .opening :: ([Token.comma].intercalate (tokensOfAll args) ++ [.closing])
  | binary op a b => .opening :: (tokens a ++ op.token :: (tokens b ++ [.closing]))
  | negation x => .minus :: tokens x
  | percent x => tokens x ++ [.percent]

/-- The tokens of some expressions. -/
def tokensOfAll : List Expr → List (List Token)
  | [] => []
  | x :: xs => tokens x :: tokensOfAll xs

end

/-- The tokens of some expressions are those of each. -/
theorem tokensOfAll_eq_map (xs : List Expr) : tokensOfAll xs = xs.map tokens := by
  induction xs with
  | nil => rfl
  | cons x xs ih => rw [tokensOfAll, ih, List.map_cons]

/-- The texts of some expressions are those of each. -/
theorem plainTexts_eq_map (xs : List Expr) : plainTexts xs = xs.map plainText := by
  induction xs with
  | nil => rfl
  | cons x xs ih => rw [plainTexts, ih, List.map_cons]

end Expr

/-! ## The text of an expression -/

namespace Expr

variable {x : Expr}

/-- Behind the text of an expression, before anything that ends numbers and words, all its tokens
have been found. -/
theorem writes_plainText (h : x.Every (IsMadeOf Token.IsPlain)) :
    ∀ after, IsBreak after → Writes x.plainText.toList after x.tokens := by
  induction h with
  | @node x hx _ ih =>
    intro after hafter
    have hopening : ('(', Token.opening) ∈ symbolSpellings := by decide
    have hclosing : (')', Token.closing) ∈ symbolSpellings := by decide
    rcases x with v | name | ⟨name, args⟩ | ⟨op, a, b⟩ | y | y
    · obtain ⟨hfin, a, rfl⟩ := hx
      exact .number hfin hafter
    · unfold plainText tokens
      split
      · next hpi =>
        subst hpi
        exact .symbol (by decide) .nil
      · exact .name hx hafter
    · have hargs := Writes.intercalate separates_comma ih (IsBreak.symbol hclosing after)
      simp only [plainText, tokens, plainTexts_eq_map, tokensOfAll_eq_map, String.toList_append,
        List.append_assoc]
      exact (Writes.name hx.1 (.symbol hopening _)).append
        (.symbol hopening (hargs.append (.symbol hclosing .nil)))
    · have hop : (op.symbol, op.token) ∈ symbolSpellings := by rcases op <;> decide
      simp only [children, List.forall_mem_cons] at ih
      obtain ⟨ha, hb, -⟩ := ih
      have hright := (hb (')' :: after) (.symbol hclosing _)).append (.symbol hclosing .nil)
      have hspaced := Writes.space (.symbol hop (.space hright))
      simp only [plainText, tokens, String.toList_append, List.append_assoc, Char.toString,
        String.toList_singleton]
      show Writes ('(' :: (a.plainText.toList ++ ' ' :: op.symbol :: ' ' :: _)) after _
      exact .symbol hopening ((ha _ (.space _)).append hspaced)
    · simp only [plainText, tokens, String.toList_append]
      exact .symbol (by decide) (ih y (by simp [children]) after hafter)
    · have hpercent : ('%', Token.percent) ∈ symbolSpellings := by decide
      simp only [plainText, tokens, String.toList_append]
      exact (ih y (by simp [children]) _ (.symbol hpercent after)).append (.symbol hpercent .nil)

/-- The text of an expression is too long for an entry, or it is divided into the tokens of the
expression. -/
theorem tokenize_text (h : x.Every (IsMadeOf Token.IsPlain)) :
    tokenize x.text.toList = .error (.inputTooLong maxEntryLength) ∨
      ∃ placed, tokenize x.text.toList = .ok placed ∧ placed.map (·.token) = x.tokens := by
  rw [text_eq_plainText]
  by_cases hlen : x.plainText.toList.length ≤ maxEntryLength
  · obtain ⟨placed, hcut, hplaced⟩ := writes_plainText h [] nofun 0
    refine .inr ⟨placed, ?_, hplaced⟩
    rw [tokenize_of_length_le hlen]
    exact tokensFrom_eq_ok_iff.mpr hcut
  · exact .inl (if_pos (Nat.lt_of_not_le hlen))

end Expr

end PocketCalc
