import PocketCalc.Proofs.Decimal.Value
import PocketCalc.Proofs.Token.NumberLiteral

/-!
# Both ways to write a number are number literals

`positionalLiteral` and `scientificLiteral` are the literals that the two forms of a decimal consist
of: their texts are the forms (`text_positionalLiteral`, `text_scientificLiteral`), and the number
that they write is the decimal's own (`toRat_positionalLiteral`, `toDecimal_scientificLiteral`).
-/

namespace PocketCalc

namespace Decimal

variable (d : Decimal)

/-- The digits of a coefficient are digits. -/
theorem isDigit_of_mem_digits : ∀ c ∈ d.digits, c.isDigit = true := fun _ hc =>
  Nat.isDigit_of_mem_toDigits (by decide) (by decide) hc

/-- The digits of the positional form, without the point. -/
def places : List Char :=
  List.replicate ((-d.exponent).toNat + 1 - d.digits.length) '0' ++ d.digits ++
    List.replicate d.exponent.toNat '0'

/-- All places are digits. -/
theorem isDigit_of_mem_places : ∀ c ∈ d.places, c.isDigit = true := by
  intro c hc
  rw [places, List.mem_append, List.mem_append] at hc
  rcases hc with (hc | hc) | hc
  · rw [List.eq_of_mem_replicate hc]
    rfl
  · exact d.isDigit_of_mem_digits c hc
  · rw [List.eq_of_mem_replicate hc]
    rfl

/-- One digit more than there are places stands in the positional form. -/
theorem lt_length_places : (-d.exponent).toNat < d.places.length := by
  rw [places, List.length_append, List.length_append, List.length_replicate, List.length_replicate]
  omega

/-- Read as one number, the places are the coefficient, with the zeros that the exponent adds. -/
theorem ofDigitChars_places :
    Nat.ofDigitChars 10 d.places 0 = d.coefficient * 10 ^ d.exponent.toNat := by
  rw [places, Nat.ofDigitChars_append, Nat.ofDigitChars_append, Nat.ofDigitChars_replicate_zero,
    Nat.ofDigitChars_replicate_zero, Nat.mul_zero, digits, Nat.ofDigitChars_ten_toDigits,
    Nat.mul_comm]

/-- The literal that the positional form is. -/
def positionalLiteral : NumberLiteral where
  whole := d.places.take (d.places.length - (-d.exponent).toNat)
  fraction := d.places.drop (d.places.length - (-d.exponent).toNat)
  exponent := none

/-- As many digits stand behind the point as the exponent takes off. -/
theorem length_fraction_positionalLiteral :
    d.positionalLiteral.fraction.length = (-d.exponent).toNat := by
  have h := d.lt_length_places
  rw [positionalLiteral, List.length_drop]
  omega

/-- The positional form is the text of its literal. -/
theorem text_positionalLiteral : d.positionalLiteral.text = d.positional := by
  have hlen := d.length_fraction_positionalLiteral
  have hform : d.positional = if (-d.exponent).toNat = 0 then d.places
      else d.positionalLiteral.whole ++ '.' :: d.positionalLiteral.fraction := rfl
  -- A point is written exactly if digits stand behind it.
  rw [NumberLiteral.text, hform]
  by_cases h0 : d.positionalLiteral.fraction = []
  · have hsplit : d.positionalLiteral.whole ++ d.positionalLiteral.fraction = d.places :=
      List.take_append_drop ..
    rw [h0, List.append_nil] at hsplit
    rw [h0, List.length_nil] at hlen
    rw [if_pos h0, if_pos hlen.symm, hsplit]
    exact List.append_nil _
  · rw [if_neg h0, if_neg (hlen ▸ mt List.length_eq_zero_iff.mp h0)]
    exact congrArg _ (List.append_nil _)

/-- The positional form is made of digits. -/
theorem isWritten_positionalLiteral : d.positionalLiteral.IsWritten where
  whole c hc := d.isDigit_of_mem_places c (List.mem_of_mem_take hc)
  whole_ne_nil := by
    have h := d.lt_length_places
    rw [positionalLiteral, Ne, List.take_eq_nil_iff, not_or]
    constructor
    · omega
    · intro h0
      rw [h0] at h
      exact absurd h (Nat.not_lt_zero _)
  fraction c hc := d.isDigit_of_mem_places c (List.mem_of_mem_drop hc)
  exponent _ he := nomatch he

/-- The positional form writes the number of the decimal. -/
theorem toRat_positionalLiteral : d.positionalLiteral.toDecimal.toRat = d.toRat := by
  have hlen := d.length_fraction_positionalLiteral
  have hsplit : d.positionalLiteral.whole ++ d.positionalLiteral.fraction = d.places :=
    List.take_append_drop ..
  rw [NumberLiteral.toDecimal, toRat, hlen, hsplit, ofDigitChars_places, toRat]
  dsimp only [positionalLiteral, Option.elim]
  rw [Nat.cast_mul, Nat.cast_pow, Nat.cast_ofNat, mul_assoc, ← zpow_natCast,
    ← zpow_add₀ (by norm_num)]
  -- One of the two exponents is zero, and their difference is the exponent.
  congr 2
  omega

/-- The power of ten of the first digit. -/
def leadingExponent : ℤ := d.exponent + (d.digits.length - 1 : ℕ)

/-- The literal that the scientific form is. -/
def scientificLiteral : NumberLiteral where
  whole := d.digits.take 1
  fraction := d.digits.drop 1
  exponent := some ⟨decide (d.leadingExponent < 0), Nat.toDigits 10 d.leadingExponent.natAbs⟩

/-- The scientific form is the text of its literal. -/
theorem text_scientificLiteral : d.scientificLiteral.text = d.scientific := by
  have hne : d.digits ≠ [] := Nat.toDigits_ne_nil
  have hexp : d.scientificLiteral.exponentText = 'e' :: signedDigits d.leadingExponent := by
    simp only [NumberLiteral.exponentText, scientificLiteral, Option.elim, LiteralExponent.text,
      signedDigits, decide_eq_true_eq]
  rw [NumberLiteral.text, hexp, scientific]
  dsimp only [scientificLiteral]
  rw [← leadingExponent]
  obtain ⟨first, rest, hd⟩ := List.exists_cons_of_ne_nil hne
  cases rest <;> simp only [hd] <;> rfl

/-- The scientific form is made of digits. -/
theorem isWritten_scientificLiteral : d.scientificLiteral.IsWritten where
  whole c hc := d.isDigit_of_mem_digits c (List.mem_of_mem_take hc)
  whole_ne_nil := by
    have hne : d.digits ≠ [] := Nat.toDigits_ne_nil
    rw [scientificLiteral, Ne, List.take_eq_nil_iff]
    simp [hne]
  fraction c hc := d.isDigit_of_mem_digits c (List.mem_of_mem_drop hc)
  exponent e he := by
    cases he
    exact ⟨Nat.toDigits_ne_nil, fun c hc => Nat.isDigit_of_mem_toDigits (by decide) (by decide) hc⟩

/-- The scientific form writes the decimal. -/
theorem toDecimal_scientificLiteral : d.scientificLiteral.toDecimal = d := by
  have hvalue : LiteralExponent.value ⟨decide (d.leadingExponent < 0),
      Nat.toDigits 10 d.leadingExponent.natAbs⟩ = d.leadingExponent := by
    simp only [LiteralExponent.value, Nat.ofDigitChars_ten_toDigits, decide_eq_true_eq]
    split <;> omega
  rw [NumberLiteral.toDecimal]
  dsimp only [scientificLiteral, Option.elim]
  rw [hvalue, List.take_append_drop, List.length_drop, leadingExponent, Int.add_sub_cancel, digits,
    Nat.ofDigitChars_ten_toDigits]

/-- The positional form has about as many characters as there are digits and zeros. -/
theorem length_positional_le :
    d.positional.length ≤ d.digits.length + d.exponent.natAbs + 4 := by
  have hlen := d.positionalLiteral.length_text_le
  have hplaces : d.positionalLiteral.whole.length + d.positionalLiteral.fraction.length =
      d.places.length := by
    rw [← List.length_append]
    exact congrArg _ (List.take_append_drop ..)
  rw [hplaces, text_positionalLiteral, places, List.length_append, List.length_append,
    List.length_replicate, List.length_replicate] at hlen
  dsimp only [positionalLiteral, Option.elim] at hlen
  omega

/-- The scientific form has about as many characters as there are digits. -/
theorem length_scientific_le :
    d.scientific.length ≤
      d.digits.length + (Nat.toDigits 10 d.leadingExponent.natAbs).length + 3 := by
  have hlen := d.scientificLiteral.length_text_le
  rw [← text_scientificLiteral]
  dsimp only [scientificLiteral, Option.elim] at hlen ⊢
  rwa [← List.length_append, List.take_append_drop] at hlen

end Decimal

end PocketCalc
