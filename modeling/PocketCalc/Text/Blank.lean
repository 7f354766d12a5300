/-!
# Blank characters

A blank is a character with the Unicode property White_Space. The calculator skips blanks between
tokens, trims them off an entry before it reads it, and drops them where a key glues to what stands
before it.
-/

namespace PocketCalc

/-- The characters with the property White_Space, as closed ranges of code points. -/
def blankRanges : List (Nat × Nat) :=
  [(0x09, 0x0D), (0x20, 0x20), (0x85, 0x85), (0xA0, 0xA0), (0x1680, 0x1680), (0x2000, 0x200A),
    (0x2028, 0x2029), (0x202F, 0x202F), (0x205F, 0x205F), (0x3000, 0x3000)]

/-- Whether a character is a blank. -/
def isBlank (c : Char) : Bool := blankRanges.any fun r => r.1 ≤ c.toNat && c.toNat ≤ r.2

/-- A text without the blanks at its end. -/
def trimEnd (cs : List Char) : List Char := (cs.reverse.dropWhile isBlank).reverse

/-- A text without the blanks at its start and at its end. -/
def trim (cs : List Char) : List Char := trimEnd (cs.dropWhile isBlank)

end PocketCalc
