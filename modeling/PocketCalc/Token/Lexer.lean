import PocketCalc.Error
import PocketCalc.Text.Blank
import PocketCalc.Token.Basic
import PocketCalc.Token.NumberLiteral

/-!
# From an entry to its tokens

`firstLexeme` cuts the longest lexeme off a text: a blank, a symbol, a number, or a word of ASCII
letters, whose case does not count. `tokenize` cuts an entry from left to right and keeps the tokens
with their places. It refuses an entry of more than 4096 characters before it looks at it, and stops
at the first place where no lexeme starts.
-/

namespace PocketCalc

/-- The number of characters that an entry may have. -/
def maxEntryLength : Nat := 4096

/-- Cuts the first lexeme off the text `c :: cs` at a place of the entry. A blank gives no token. -/
def firstLexeme (position : Nat) (c : Char) (cs : List Char) :
    Except LexicalError (Option Token × List Char) :=
  if isBlank c then .ok (none, cs)
  else
    match Token.ofSymbol? c with
    | some symbol => .ok (some symbol, cs)
    | none =>
      if NumberLiteral.startsNumber c cs then
        match NumberLiteral.scan (c :: cs) with
        | some (n, rest) => .ok (some (.number n.value), rest)
        | none => .error (.malformedNumber position)
      else if c.isAlpha then
        let name := (c :: cs.takeWhile Char.isAlpha).map Char.toLower
        .ok (some (.word (.ofList name)), cs.dropWhile Char.isAlpha)
      else .error (.unexpectedCharacter c position)

/-- A lexeme takes at least its first character. -/
theorem length_firstLexeme_le {position : Nat} {c : Char} {cs rest : List Char}
    {token : Option Token} (h : firstLexeme position c cs = .ok (token, rest)) :
    rest.length ≤ cs.length := by
  unfold firstLexeme at h
  split at h
  · cases h
    exact Nat.le_refl _
  · split at h
    · cases h
      exact Nat.le_refl _
    · split at h
      · next hn =>
        split at h
        · next hs =>
          cases h
          exact NumberLiteral.length_scan_le hn hs
        · cases h
      · split at h
        · cases h
          exact (List.dropWhile_sublist _).length_le
        · cases h

/-- The tokens of a text that starts at a place of the entry. -/
def tokensFrom (position : Nat) : List Char → Except LexicalError (List PlacedToken)
  | [] => .ok []
  | c :: cs =>
    match _h : firstLexeme position c cs with
    | .error e => .error e
    | .ok (token, rest) =>
      match tokensFrom (position + (cs.length + 1 - rest.length)) rest with
      | .error e => .error e
      | .ok tokens => .ok (token.toList.map (⟨·, position⟩) ++ tokens)
termination_by cs => cs.length
decreasing_by exact Nat.lt_succ_of_le (length_firstLexeme_le ‹_›)

/-- The tokens of an entry. -/
def tokenize (entry : List Char) : Except LexicalError (List PlacedToken) :=
  if maxEntryLength < entry.length then .error (.inputTooLong maxEntryLength)
  else tokensFrom 0 entry

end PocketCalc
