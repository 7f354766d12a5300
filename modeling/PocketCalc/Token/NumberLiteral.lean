import PocketCalc.Decimal.Basic

/-!
# Number literals

A number is written as digits, with a point before, among or after them, and an exponent after an
`e`. `NumberLiteral.scan` splits the longest such literal off a text. A letter `e` right behind the
digits always opens an exponent, which then has to have digits, and no second point may follow.
-/

namespace PocketCalc

/-- The exponent of a number literal. -/
structure LiteralExponent where
  /-- Whether a minus sign stands before the digits. -/
  negative : Bool
  /-- The digits. -/
  digits : List Char
deriving DecidableEq

/-- A number literal, by its digits. -/
structure NumberLiteral where
  /-- The digits before the point. -/
  whole : List Char
  /-- The digits after the point. -/
  fraction : List Char
  /-- The exponent, if there is one. -/
  exponent : Option LiteralExponent
deriving DecidableEq

/-- The power of ten that an exponent stands for. -/
def LiteralExponent.value (e : LiteralExponent) : Int :=
  if e.negative then -(Nat.ofDigitChars 10 e.digits 0 : Int) else Nat.ofDigitChars 10 e.digits 0

namespace NumberLiteral

/-- The decimal number that a literal writes. -/
def toDecimal (n : NumberLiteral) : Decimal where
  coefficient := Nat.ofDigitChars 10 (n.whole ++ n.fraction) 0
  exponent := (n.exponent.elim 0 LiteralExponent.value) - n.fraction.length

/-- The double that a literal stands for, the nearest one to the number it writes. -/
def value (n : NumberLiteral) : Binary64 := .signed false n.toDecimal.nearest

/-- Splits a point and the digits behind it off a text. -/
def scanFraction : List Char → List Char × List Char
  | '.' :: cs => (cs.takeWhile Char.isDigit, cs.dropWhile Char.isDigit)
  | cs => ([], cs)

/-- Splits the sign of an exponent off a text. -/
def scanSign : List Char → Bool × List Char
  | '+' :: cs => (false, cs)
  | '-' :: cs => (true, cs)
  | cs => (false, cs)

/-- Splits the exponent behind its letter off a text; it has to have digits. -/
def scanExponentDigits (cs : List Char) : Option (LiteralExponent × List Char) :=
  let (negative, rest) := scanSign cs
  let digits := rest.takeWhile Char.isDigit
  if digits.isEmpty then none else some (⟨negative, digits⟩, rest.dropWhile Char.isDigit)

/-- Splits an exponent off a text, if one starts it. -/
def scanExponent : List Char → Option (Option LiteralExponent × List Char)
  | [] => some (none, [])
  | c :: cs =>
    if c = 'e' ∨ c = 'E' then
      (scanExponentDigits cs).map fun (e, rest) => (some e, rest)
    else some (none, c :: cs)

/-- Whether a text goes on with a point. -/
def startsWithPoint : List Char → Bool
  | '.' :: _ => true
  | _ => false

/-- Splits the number literal that starts a text off it, unless it is malformed. -/
def scan (cs : List Char) : Option (NumberLiteral × List Char) :=
  let (fraction, afterMantissa) := scanFraction (cs.dropWhile Char.isDigit)
  match scanExponent afterMantissa with
  | none => none
  | some (exponent, rest) =>
    if startsWithPoint rest then none
    else some (⟨cs.takeWhile Char.isDigit, fraction, exponent⟩, rest)

/-- Whether a character and the text behind it start a number: a digit does, and so does a point
before a digit. -/
def startsNumber (c : Char) : List Char → Bool
  | [] => c.isDigit
  | next :: _ => c.isDigit || (c == '.' && next.isDigit)

/-- A fraction takes no more than there is. -/
theorem length_scanFraction_le (cs : List Char) : (scanFraction cs).2.length ≤ cs.length := by
  unfold scanFraction
  split
  · exact Nat.le_succ_of_le (List.dropWhile_sublist _).length_le
  · exact Nat.le_refl _

/-- A sign takes no more than there is. -/
theorem length_scanSign_le (cs : List Char) : (scanSign cs).2.length ≤ cs.length := by
  unfold scanSign
  split <;> simp

/-- An exponent takes no more than there is. -/
theorem length_scanExponent_le {cs rest : List Char} {e : Option LiteralExponent}
    (h : scanExponent cs = some (e, rest)) : rest.length ≤ cs.length := by
  unfold scanExponent at h
  split at h
  · cases h
    exact Nat.le_refl _
  · next c cs =>
    split at h
    · obtain ⟨⟨e', rest'⟩, h', hp⟩ := Option.map_eq_some_iff.1 h
      cases hp
      unfold scanExponentDigits at h'
      dsimp only at h'
      split at h'
      · cases h'
      · cases h'
        have h1 := (List.dropWhile_sublist Char.isDigit (l := (scanSign cs).2)).length_le
        have h2 := length_scanSign_le cs
        simp only [List.length_cons]
        omega
    · cases h
      exact Nat.le_refl _

/-- A number literal takes at least its first character. -/
theorem length_scan_le {c : Char} {cs rest : List Char} {n : NumberLiteral}
    (hc : startsNumber c cs = true) (h : scan (c :: cs) = some (n, rest)) :
    rest.length ≤ cs.length := by
  have hm : (scanFraction ((c :: cs).dropWhile Char.isDigit)).2.length ≤ cs.length := by
    by_cases hd : c.isDigit
    · rw [List.dropWhile_cons_of_pos hd]
      exact Nat.le_trans (length_scanFraction_le _) (List.dropWhile_sublist _).length_le
    · have hp : c = '.' := by
        cases cs <;> simp_all [startsNumber]
      rw [List.dropWhile_cons_of_neg hd, hp]
      exact (List.dropWhile_sublist _).length_le
  unfold scan at h
  dsimp only at h
  split at h
  · cases h
  · next e rest' he =>
    split at h
    · cases h
    · cases h
      exact Nat.le_trans (length_scanExponent_le he) hm

end NumberLiteral

end PocketCalc
