import PocketCalc.Decimal.Layout
import PocketCalc.Error

/-!
# What the display shows

A number is shown with the fewest digits that read back to it: in positional form from `1e-7` up to
`1e21`, outside of that range in scientific form, and both zeros as `0`. In place of a result that is
not a finite number stands a short text by the category of the error.
-/

namespace PocketCalc

/-- The text of the display, and whether it reports an error. -/
structure Display where
  /-- The text. -/
  text : String := ""
  /-- Whether the text reports an error. -/
  isError : Bool := false
deriving DecidableEq

namespace Display

/-- From this magnitude on, numbers are shown in scientific form. -/
def large : Magnitude := (Decimal.mk 1 21).nearest

/-- Below this magnitude, numbers are shown in scientific form. -/
def small : Magnitude := (Decimal.mk 1 (-7)).nearest

/-- The text of a number. -/
def numberText (x : Binary64) : String :=
  match x with
  | .nan => x.positional
  | .signed _ a =>
    if a.isZero then "0"
    else if large ≤ a ∨ a < small then x.scientific
    else x.positional

/-- The text that stands for an error. -/
def categoryText : ErrorCategory → String
  | .mathError => "Erreur math"
  | .invalidInput => "Entrée invalide"

/-- What the display shows for the outcome of a calculation. -/
def ofResult : Except CalculationError Binary64 → Display
  | .ok v =>
    if v.isFinite then ⟨numberText v, false⟩ else ⟨categoryText .mathError, true⟩
  | .error e => ⟨categoryText e.category, true⟩

end Display

end PocketCalc
