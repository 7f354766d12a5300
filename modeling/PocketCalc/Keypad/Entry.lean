import PocketCalc.Keypad.Key
import PocketCalc.Text.Blank

/-!
# Editing the entry with the keys

`insertKey` puts the text of a key behind the entry, with the spaces of its spacing, and `deleteLast`
takes the last piece off again: the name of a function together with its parenthesis, or else one
character. Blanks at the end of the entry do not survive a deletion.
-/

namespace PocketCalc

/-- The last character of a text that is no blank. -/
def lastVisible (entry : List Char) : Option Char := (trimEnd entry).getLast?

/-- Whether a text ends with a blank. -/
def endsBlank (entry : List Char) : Bool := entry.getLast?.any isBlank

/-- Whether what opens behind a character needs a space before it: a letter, a digit or a closing
parenthesis would run into it. -/
def needsSpaceToOpen (c : Char) : Bool := c.isAlphanum || c == ')'

/-- Whether a word behind a character needs a space before it: a digit or a closing parenthesis would
run into it. -/
def needsSpaceToWord (c : Char) : Bool := c.isDigit || c == ')'

/-- The entry made ready for a text of a spacing to follow. -/
def Spacing.prepare (entry : List Char) : Spacing → List Char
  | asTyped => entry
  | tight => trimEnd entry
  | spaced => if (trimEnd entry).isEmpty then [] else trimEnd entry ++ [' ']
  | opening => if (lastVisible entry).any needsSpaceToOpen then entry ++ [' '] else entry
  | word =>
    if !endsBlank entry && (lastVisible entry).any needsSpaceToWord then entry ++ [' '] else entry

/-- The space behind a text of a spacing. -/
def Spacing.trailer : Spacing → List Char
  | spaced => [' ']
  | _ => []

/-- The entry after an inserting key. -/
def insertKey (k : InsertKey) (entry : List Char) : List Char :=
  k.spacing.prepare entry ++ k.text.toList ++ k.spacing.trailer

/-- The texts that one deletion removes whole, each before those that it ends with. -/
def wholePieces : List (List Char) :=
  ["asin(", "acos(", "atan(", "sqrt(", "sin(", "cos(", "tan(", "log(", "pow(", "ln("].map
    String.toList

/-- How many characters a deletion removes from an entry without blanks at its end. -/
def lastPieceLength (entry : List Char) : Nat :=
  match wholePieces.find? (·.isSuffixOf entry) with
  | some piece => piece.length
  | none => 1

/-- The entry without its last piece, and without blanks at its end. -/
def deleteLast (entry : List Char) : List Char :=
  let visible := trimEnd entry
  trimEnd (visible.take (visible.length - lastPieceLength visible))

end PocketCalc
