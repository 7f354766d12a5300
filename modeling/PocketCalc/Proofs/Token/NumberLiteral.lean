import Mathlib.Data.List.TakeWhile
import PocketCalc.Token.Lexer

/-!
# Written number literals

`NumberLiteral.text` writes a literal, with a point only before digits and an `e` before the
exponent. `IsWritten` says what its parts have to be for the text to be one: it has no blanks
(`isBlank_of_mem_text`), and about as many characters as digits (`length_text_le`). That it is read
as this literal follows from the grammar of all spellings, in which a point may also stand first or
last and an exponent may have a plus sign.
-/

namespace PocketCalc

/-- The exponent as it stands behind the digits. -/
def LiteralExponent.text (e : LiteralExponent) : List Char :=
  'e' :: if e.negative then '-' :: e.digits else e.digits

namespace NumberLiteral

/-- The exponent as it stands behind the digits, if there is one. -/
def exponentText (n : NumberLiteral) : List Char := n.exponent.elim [] LiteralExponent.text

/-- The literal as a text. -/
def text (n : NumberLiteral) : List Char :=
  n.whole ++ ((if n.fraction = [] then [] else '.' :: n.fraction) ++ n.exponentText)

/-- The parts of the literal are digits, with at least one before the point and in the exponent. -/
structure IsWritten (n : NumberLiteral) : Prop where
  /-- Digits stand before the point. -/
  whole : ∀ c ∈ n.whole, c.isDigit = true
  /-- Not all digits are behind the point. -/
  whole_ne_nil : n.whole ≠ []
  /-- Digits stand behind the point. -/
  fraction : ∀ c ∈ n.fraction, c.isDigit = true
  /-- The exponent has digits, and nothing else. -/
  exponent : ∀ e, n.exponent = some e → e.digits ≠ [] ∧ ∀ c ∈ e.digits, c.isDigit = true

variable {n : NumberLiteral}

/-- A digit is no blank. -/
theorem isBlank_of_isDigit {c : Char} (h : c.isDigit = true) : isBlank c = false := by
  obtain ⟨hlow, hhigh⟩ : 48 ≤ c.toNat ∧ c.toNat ≤ 57 := Char.isDigit_iff_toNat.mp h
  simp only [isBlank, blankRanges, List.any_cons, List.any_nil, Bool.or_eq_false_iff,
    Bool.and_eq_false_iff, decide_eq_false_iff_not, and_true]
  omega

/-- No blank stands in a written literal. -/
theorem isBlank_of_mem_text (h : n.IsWritten) : ∀ c ∈ n.text, isBlank c = false := by
  intro c hc
  have hexp : c ∈ n.exponentText → isBlank c = false := by
    unfold exponentText
    cases he : n.exponent with
    | none => exact fun hc => absurd hc List.not_mem_nil
    | some e =>
      intro hc
      have hdigits := (h.exponent e he).2
      rw [Option.elim, LiteralExponent.text, List.mem_cons] at hc
      rcases hc with rfl | hc
      · decide
      · split at hc
        · rcases List.mem_cons.mp hc with rfl | hc
          · decide
          · exact isBlank_of_isDigit (hdigits c hc)
        · exact isBlank_of_isDigit (hdigits c hc)
  rw [text, List.mem_append, List.mem_append] at hc
  rcases hc with hc | hc | hc
  · exact isBlank_of_isDigit (h.whole c hc)
  · split at hc
    · exact absurd hc List.not_mem_nil
    · rcases List.mem_cons.mp hc with rfl | hc
      · decide
      · exact isBlank_of_isDigit (h.fraction c hc)
  · exact hexp hc

/-- Besides its digits a literal has a point, and a letter and a sign before the exponent. -/
theorem length_text_le (n : NumberLiteral) : n.text.length ≤
    n.whole.length + n.fraction.length + (n.exponent.elim 0 (·.digits.length)) + 3 := by
  have hexp : n.exponentText.length ≤ n.exponent.elim 0 (·.digits.length) + 2 := by
    unfold exponentText
    cases n.exponent with
    | none => exact Nat.zero_le _
    | some e =>
      simp only [Option.elim, LiteralExponent.text, List.length_cons]
      split
      · exact le_rfl
      · exact Nat.le_succ _
  rw [text, List.length_append, List.length_append]
  split
  · rw [List.length_nil]
    omega
  · rw [List.length_cons]
    omega

/-- A digit is no symbol. -/
theorem ofSymbol?_of_isDigit {c : Char} (h : c.isDigit = true) : Token.ofSymbol? c = none := by
  unfold Token.ofSymbol?
  split <;> first | rfl | exact absurd h (by decide)

/-- Where a digit stands a number starts. -/
theorem startsNumber_of_isDigit {c : Char} (h : c.isDigit = true) (cs : List Char) :
    startsNumber c cs = true := by
  cases cs with
  | nil => exact h
  | cons d cs => rw [startsNumber, h, Bool.true_or]

end NumberLiteral

end PocketCalc
