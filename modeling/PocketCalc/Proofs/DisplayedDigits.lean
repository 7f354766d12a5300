import Mathlib.Data.List.DropRight
import PocketCalc.Proofs.Decimal.FewDigits
import PocketCalc.Proofs.Decimal.NearestDecimal
import PocketCalc.Proofs.Display

/-!
# The digits on the display

What the text of a result says about it. `significantDigits` counts the digits of a text without the
zeros in front and behind, and `Denotes` reads a text as an exact number, by the grammar of literals
and not by a double. The text of a double shows the digits of its shortest decimal
(`significantDigits_numberText_le`) and denotes that decimal (`denotes_numberText`).

A result is rounded twice before it is shown, to twelve digits and then to a double, and the search
for the shortest decimal undoes the second rounding (`Decimal/FewDigits.lean`). So the text shows the
twelve digits and no binary noise (`numberText_roundTo_twelve`).
-/

namespace PocketCalc

/-- The digits that a text shows, without those of an exponent. -/
def mantissaDigits (text : List Char) : List Char :=
  (text.takeWhile (· != 'e')).filter Char.isDigit

/-- The digits from the first one other than zero to the last one. -/
def stripZeros (digits : List Char) : List Char :=
  (digits.dropWhile (· == '0')).rdropWhile (· == '0')

/-- How many significant digits a text shows. -/
def significantDigits (text : List Char) : ℕ := (stripZeros (mantissaDigits text)).length

/-- The text, read as an exact decimal, is the number: a literal, behind a minus sign if the number is
negative. -/
inductive Denotes : List Char → ℚ → Prop
  /-- A literal. -/
  | literal {text n} : NumberLiteral.Spells text n → Denotes text n.toDecimal.toRat
  /-- A minus sign and a literal. -/
  | minus {text n} : NumberLiteral.Spells text n → Denotes ('-' :: text) (-n.toDecimal.toRat)

/-- A text denotes at most one number. -/
theorem Denotes.unique {text : List Char} {p q : ℚ} (h : Denotes text p) (h' : Denotes text q) :
    p = q := by
  -- A literal does not start with a minus sign.
  have hstart {text : List Char} {n : NumberLiteral} : ¬ NumberLiteral.Spells ('-' :: text) n := by
    intro hspells
    obtain ⟨c, cs, hcons, hnumber⟩ := hspells.startsNumber
    cases hcons
    have hminus := hnumber ['0']
    rw [NumberLiteral.startsNumber_iff] at hminus
    rcases hminus with hdigit | ⟨hpoint, -⟩
    · exact absurd hdigit (by decide)
    · exact absurd hpoint (by decide)
  have hsame {text : List Char} {n n' : NumberLiteral} (h : NumberLiteral.Spells text n)
      (h' : NumberLiteral.Spells text n') : n = n' := by
    rw [← List.append_nil text] at h'
    exact (h.eq_of_append (show n.Ends [] from nofun) h').1
  cases h with
  | literal hspells =>
    cases h' with
    | literal hspells' => rw [hsame hspells hspells']
    | minus => exact absurd hspells hstart
  | minus hspells =>
    cases h' with
    | literal hspells' => exact absurd hspells' hstart
    | minus hspells' => rw [hsame hspells hspells']

/-- Zeros in front and behind are stripped. -/
theorem length_stripZeros_le (i j : ℕ) (ds : List Char) :
    (stripZeros (List.replicate i '0' ++ ds ++ List.replicate j '0')).length ≤ ds.length := by
  have hzeros (k : ℕ) : ∀ c ∈ List.replicate k '0', (c == '0') = true := fun c hc =>
    beq_iff_eq.mpr (List.eq_of_mem_replicate hc)
  have hright (l : List Char) : (l ++ List.replicate j '0').rdropWhile (· == '0') =
      l.rdropWhile (· == '0') := by
    rw [List.rdropWhile, List.reverse_append, List.reverse_replicate,
      List.dropWhile_append_of_pos (hzeros j), List.rdropWhile]
  rw [stripZeros, List.append_assoc, List.dropWhile_append_of_pos (hzeros i),
    List.dropWhile_append]
  split
  · rw [List.dropWhile_eq_nil_iff.mpr (hzeros j)]
    exact Nat.zero_le _
  · rw [hright]
    exact (List.rdropWhile_prefix _ _).length_le.trans (List.length_dropWhile_le _ _)

namespace NumberLiteral

/-- The text of a literal, behind a sign or not, shows the digits on either side of its point. -/
theorem mantissaDigits_text {n : NumberLiteral} (h : n.IsWritten) (s : Bool) :
    mantissaDigits ((if s then ['-'] else []) ++ n.text) = n.whole ++ n.fraction := by
  have hdigit {c : Char} (hc : c.isDigit = true) : (c != 'e') = true := by
    rw [bne_iff_ne]
    rintro rfl
    exact absurd hc (by decide)
  have hmantissa : ∀ c ∈ (if s then ['-'] else []) ++ (n.whole ++
      if n.fraction = [] then [] else '.' :: n.fraction), (c != 'e') = true := by
    simp only [List.mem_append]
    rintro c (hc | hc | hc)
    · cases s with
      | true => rw [List.mem_singleton.mp hc]; decide
      | false => exact absurd hc List.not_mem_nil
    · exact hdigit (h.whole c hc)
    · split at hc
      · exact absurd hc List.not_mem_nil
      · rcases List.mem_cons.mp hc with rfl | hc
        · decide
        · exact hdigit (h.fraction c hc)
  have hexponent : ∀ c ∈ n.exponentText.head?, (c != 'e') = false := by
    unfold exponentText
    cases n.exponent with
    | none => exact nofun
    | some e =>
      rintro c ⟨⟩
      decide
  rw [mantissaDigits, text, ← List.append_assoc n.whole, ← List.append_assoc,
    (span_append hmantissa hexponent).1]
  have hsign : (if s then ['-'] else []).filter Char.isDigit = [] := by
    cases s <;> rfl
  have hpoint : (if n.fraction = [] then [] else '.' :: n.fraction).filter Char.isDigit =
      n.fraction := by
    split
    · next h0 => exact h0.symm
    · exact List.filter_eq_self.mpr h.fraction
  rw [List.filter_append, List.filter_append, hsign, hpoint, List.filter_eq_self.mpr h.whole,
    List.nil_append]

end NumberLiteral

namespace Decimal

variable (d : Decimal)

/-- The positional form shows no significant digits but those of the decimal. -/
theorem length_stripZeros_positionalLiteral_le :
    (stripZeros (d.positionalLiteral.whole ++ d.positionalLiteral.fraction)).length ≤
      d.digits.length := by
  have hsplit : d.positionalLiteral.whole ++ d.positionalLiteral.fraction = d.places :=
    List.take_append_drop ..
  rw [hsplit, places]
  exact length_stripZeros_le _ _ _

/-- The scientific form shows no significant digits but those of the decimal. -/
theorem length_stripZeros_scientificLiteral_le :
    (stripZeros (d.scientificLiteral.whole ++ d.scientificLiteral.fraction)).length ≤
      d.digits.length := by
  have hsplit : d.scientificLiteral.whole ++ d.scientificLiteral.fraction = d.digits :=
    List.take_append_drop ..
  have hstrip := length_stripZeros_le 0 0 d.digits
  rw [hsplit]
  rwa [List.replicate_zero, List.nil_append, List.append_nil] at hstrip

end Decimal

namespace Display

variable {s : Bool} {a : Magnitude} {x : Binary64}

/-- The text of a finite number does not show more digits than the shortest decimal has. -/
theorem significantDigits_numberText_le (hfin : a.rank < infiniteRank)
    (hzero : a.rank = 0 → s = false) :
    significantDigits (numberText (.signed s a)).toList ≤ a.shortest.digits.length := by
  obtain ⟨n, rfl | rfl, htext⟩ := exists_numberText_eq hfin hzero
  · rw [htext, significantDigits, NumberLiteral.mantissaDigits_text
      a.shortest.isWritten_positionalLiteral]
    exact a.shortest.length_stripZeros_positionalLiteral_le
  · rw [htext, significantDigits, NumberLiteral.mantissaDigits_text
      a.shortest.isWritten_scientificLiteral]
    exact a.shortest.length_stripZeros_scientificLiteral_le

/-- The text of a finite number denotes the shortest decimal, with the sign of the number. -/
theorem denotes_numberText (hfin : a.rank < infiniteRank) (hzero : a.rank = 0 → s = false) :
    Denotes (numberText (.signed s a)).toList
      (if s then -a.shortest.toRat else a.shortest.toRat) := by
  obtain ⟨n, hn, htext⟩ := exists_numberText_eq hfin hzero
  have hspells : NumberLiteral.Spells n.text n := by
    rcases hn with rfl | rfl
    · exact a.shortest.isWritten_positionalLiteral.spells
    · exact a.shortest.isWritten_scientificLiteral.spells
  have hvalue : n.toDecimal.toRat = a.shortest.toRat := by
    rcases hn with rfl | rfl
    · exact a.shortest.toRat_positionalLiteral
    · rw [Decimal.toDecimal_scientificLiteral]
  rw [htext, ← hvalue]
  cases s with
  | true => exact .minus hspells
  | false => exact .literal hspells

/-- The text of a double rounded to twelve digits shows at most twelve significant digits, and if the
double is not subnormal, it denotes the decimal of twelve significant digits nearest to it. -/
theorem numberText_roundTo_twelve (hx : x.isFinite = true) :
    significantDigits (numberText (x.roundTo 12)).toList ≤ 12 ∧
      (2 ^ (-1022 : ℤ) ≤ |x.toRat| →
        ∀ q, Denotes (numberText (x.roundTo 12)).toList q ↔ IsNearestDecimal 12 x.toRat q) := by
  rcases Binary64.cases_roundTo x with hz | hi | ⟨s, a, rfl, ha, hfin⟩
  · rw [Binary64.roundTo_of_isZero hz]
    refine ⟨by decide, fun hnormal => ?_⟩
    -- Zero is below all of these.
    cases x with
    | nan => cases hx
    | signed s a =>
      rw [Binary64.abs_toRat_signed] at hnormal
      have hrank := Magnitude.normal_of_le_toRat hnormal
      have h0 : a.rank = 0 := (Magnitude.isZero_iff a).mp hz
      omega
  · rw [hx] at hi
    cases hi
  · have hne := Magnitude.nearest_significant_rank_ne_zero ha (show 0 < 12 by norm_num)
    have hlt := Magnitude.nearest_significant_rank_lt ha hfin
    rw [Binary64.roundTo_signed ha hfin (by norm_num)]
    refine ⟨(significantDigits_numberText_le hlt (absurd · hne)).trans
      (Magnitude.length_digits_shortest_significant_le ha hfin), fun hnormal => ?_⟩
    rw [Binary64.abs_toRat_signed] at hnormal
    have hdenotes := denotes_numberText (s := s) hlt (absurd · hne)
    rw [Magnitude.toRat_shortest_significant (Magnitude.normal_of_le_toRat hnormal) hfin]
      at hdenotes
    have hnearest := Binary64.isNearestDecimal_significant s ha (show 0 < 12 by norm_num)
    -- Both sides hold of one number only.
    exact fun q => ⟨fun h => h.unique hdenotes ▸ hnearest, fun h => h.unique hnearest ▸ hdenotes⟩

/-- A number in the middle between two decimals of twelve digits shows the even one. -/
theorem numberText_roundTo_twelve_tie :
    (Binary64.ofBits 0xC2374876E8018000).isFinite = true ∧
      (2 : ℚ) ^ (-1022 : ℤ) ≤ |-200000000003 / 2| ∧
      (Binary64.ofBits 0xC2374876E8018000).toRat = -200000000003 / 2 ∧
      numberText ((Binary64.ofBits 0xC2374876E8018000).roundTo 12) = "-100000000002" ∧
      significantDigits "-100000000002".toList ≤ 12 ∧
      IsNearestDecimal 12 (-200000000003 / 2) (-100000000002) := by
  have hfin : (Binary64.ofBits 0xC2374876E8018000).isFinite = true := by decide +kernel
  have hnormal : (2 : ℚ) ^ (-1022 : ℤ) ≤ |-200000000003 / 2| := by
    have hone : (2 : ℚ) ^ (-1022 : ℤ) ≤ 1 := zpow_le_one_of_nonpos₀ (by norm_num) (by norm_num)
    exact hone.trans (by norm_num)
  have hbits : Binary64.ofBits 0xC2374876E8018000 =
      .signed true ⟨0x42374876E8018000, by decide +kernel⟩ := by decide +kernel
  have hvalue : (Binary64.ofBits 0xC2374876E8018000).toRat = -200000000003 / 2 := by
    have hunits : 2 * unitsOfRank 0x42374876E8018000 = 200000000003 * unitsInOne := by
      decide +kernel
    have hcast : (2 * unitsOfRank 0x42374876E8018000 : ℚ) = 200000000003 * unitsInOne := by
      exact_mod_cast hunits
    rw [hbits, Binary64.toRat, if_pos rfl, Magnitude.toRat, Magnitude.units, neg_div, neg_inj,
      div_eq_div_iff cast_unitsInOne_pos.ne' two_ne_zero, mul_comm, hcast]
  have htext : numberText ((Binary64.ofBits 0xC2374876E8018000).roundTo 12) = "-100000000002" := by
    decide +kernel
  have hdenotes : Denotes "-100000000002".toList (-100000000002) := by
    have hspells : NumberLiteral.Spells ("100000000002".toList ++ [])
        ⟨"100000000002".toList, [], none⟩ :=
      .mk (.whole (by decide) (List.all_eq_true.mp (by decide))) .none
    have hdecimal : NumberLiteral.toDecimal ⟨"100000000002".toList, [], none⟩ =
        ⟨100000000002, 0⟩ := by decide
    have h := Denotes.minus hspells
    rw [hdecimal, Decimal.toRat, zpow_zero, mul_one] at h
    exact h
  have h := numberText_roundTo_twelve hfin
  rw [htext, hvalue] at h
  exact ⟨hfin, hnormal, hvalue, htext, h.1, (h.2 hnormal _).mp hdenotes⟩

end Display

end PocketCalc
