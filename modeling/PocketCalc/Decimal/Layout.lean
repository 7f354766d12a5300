import PocketCalc.Decimal.Shortest

/-!
# Two ways to write a number

The positional form writes all places of a decimal, with a point before the fraction and a zero
before the point if nothing else stands there. The scientific form writes one digit, a point if more
digits follow, and the exponent after an `e`. Either form of a double shows its shortest decimal.
-/

namespace PocketCalc

namespace Decimal

/-- The decimal with all its places written out. -/
def positional (d : Decimal) : List Char :=
  let places := (-d.exponent).toNat
  let missing := places + 1 - d.digits.length
  let padded := List.replicate missing '0' ++ d.digits ++ List.replicate d.exponent.toNat '0'
  if places = 0 then padded
  else padded.take (padded.length - places) ++ '.' :: padded.drop (padded.length - places)

/-- The digits of an integer after its sign. -/
def signedDigits (n : Int) : List Char :=
  if n < 0 then '-' :: Nat.toDigits 10 n.natAbs else Nat.toDigits 10 n.natAbs

/-- The decimal with its first digit before the point, and the power of ten of that digit. -/
def scientific (d : Decimal) : List Char :=
  let e := signedDigits (d.exponent + (d.digits.length - 1 : Nat))
  match d.digits with
  | [] => []
  | [first] => first :: 'e' :: e
  | first :: second :: rest => first :: '.' :: second :: rest ++ 'e' :: e

end Decimal

namespace Binary64

/-- A double as text, its finite magnitude written by `layout`. -/
def write (layout : Decimal → List Char) : Binary64 → List Char
  | nan => "NaN".toList
  | signed s a =>
    (if s then ['-'] else []) ++ if a.isInfinite then "inf".toList else layout a.shortest

/-- The double in positional form, without an exponent however many zeros that takes. -/
def positional (x : Binary64) : String := .ofList (x.write Decimal.positional)

/-- The double in scientific form. -/
def scientific (x : Binary64) : String := .ofList (x.write Decimal.scientific)

end Binary64

end PocketCalc
