import PocketCalc.Binary64.Arithmetic
import PocketCalc.Proofs.Decimal.Significant

/-!
# Rounding to significant digits preserves order

The grid of `n` significant digits changes its step at every power of ten, but rounding does not pass
one: the decimal of a magnitude is at least the power of ten of its first digit
(`le_toRat_significant`) and at most the next one (`toRat_significant_le`). So a larger magnitude has
no smaller decimal (`toRat_significant_mono`), and the doubles nearest to these decimals keep the
order, where an overflow counts as infinity (`rank_roundTo_mono`).

The second half orders signed doubles as IEEE 754 compares them, and carries this over to negative
doubles and across zero (`roundTo_le_roundTo`).
-/

namespace PocketCalc

namespace Magnitude

variable {a b : Magnitude} {n : ℕ}

/-- A larger rank stands for a larger number. -/
theorem toRat_mono (h : a.rank ≤ b.rank) : a.toRat ≤ b.toRat :=
  div_le_div_of_nonneg_right (cast_unitsOfRank_le h) (Nat.cast_nonneg _)

/-- Significant digits, one at least, do not fall below the power of ten of the first one. -/
theorem le_toRat_significant (ha : a.rank ≠ 0) (hn : 0 < n) :
    10 ^ a.decimalExponent ≤ (a.significant n).toRat := by
  obtain ⟨c, hc, hround⟩ := significant_spec n a
  have hlow := (decimalExponent_spec ha).1
  have hw : (0 : ℚ) < 10 ^ (a.decimalExponent + 1 - n) := by positivity
  rw [Decimal.ten_zpow_eq_cast_mul _ hn, ← le_div_iff₀ hw] at hlow
  -- The power of ten is itself a multiple of the last digit's place.
  have hle : 10 ^ (n - 1) ≤ c := (RoundsHalfEven.self _).mono hround hlow
  rw [hc, Decimal.toRat, Decimal.ten_zpow_eq_cast_mul _ hn]
  exact mul_le_mul_of_nonneg_right (Nat.cast_le.mpr hle) hw.le

/-- A larger magnitude does not have a smaller power of ten. -/
theorem decimalExponent_mono (ha : a.rank ≠ 0) (h : a.rank ≤ b.rank) :
    a.decimalExponent ≤ b.decimalExponent := by
  have hb : b.rank ≠ 0 := by omega
  have hlow := (decimalExponent_spec ha).1
  have hhigh := (decimalExponent_spec hb).2
  rw [← Int.lt_add_one_iff, ← zpow_lt_zpow_iff_right₀ (show (1 : ℚ) < 10 by norm_num)]
  exact hlow.trans_lt ((toRat_mono h).trans_lt hhigh)

/-- A larger magnitude does not have a smaller decimal of significant digits. -/
theorem toRat_significant_mono (ha : a.rank ≠ 0) (hn : 0 < n) (h : a.rank ≤ b.rank) :
    (a.significant n).toRat ≤ (b.significant n).toRat := by
  have hb : b.rank ≠ 0 := by omega
  rcases Int.lt_or_eq_of_le (decimalExponent_mono ha h) with hlt | heq
  · -- A power of ten stands between the two decimals.
    calc (a.significant n).toRat ≤ 10 ^ (a.decimalExponent + 1) := toRat_significant_le ha n
      _ ≤ 10 ^ b.decimalExponent := zpow_le_zpow_right₀ (by norm_num) hlt
      _ ≤ (b.significant n).toRat := le_toRat_significant hb hn
  · -- Both are counted in the same steps.
    obtain ⟨c, hc, hround⟩ := significant_spec n a
    obtain ⟨c', hc', hround'⟩ := significant_spec n b
    rw [hc, hc', heq, Decimal.toRat, Decimal.toRat]
    rw [heq] at hround
    have hw : (0 : ℚ) < 10 ^ (b.decimalExponent + 1 - n) := by positivity
    have hle := hround.mono hround' (div_le_div_of_nonneg_right (toRat_mono h) hw.le)
    exact mul_le_mul_of_nonneg_right (by exact_mod_cast hle) hw.le

/-- The magnitude of a double after rounding it to `n` significant digits. -/
def roundTo (n : ℕ) (a : Magnitude) : Magnitude :=
  if a.isZero || a.isInfinite || n == 0 then a else (a.significant n).nearest

/-- Zero stays zero. -/
theorem rank_roundTo_of_rank_eq_zero (ha : a.rank = 0) : (a.roundTo n).rank = 0 := by
  rw [roundTo, (isZero_iff a).mpr ha]
  exact ha

/-- A finite magnitude other than zero is rounded, unless no digits are asked for. -/
theorem roundTo_eq_nearest (ha : a.rank ≠ 0) (hfin : a.rank < infiniteRank) (hn : 0 < n) :
    a.roundTo n = (a.significant n).nearest := by
  have h0 : (n == 0) = false := beq_false_of_ne hn.ne'
  simp only [roundTo, isZero_eq_false ha, isInfinite_eq_false hfin, h0, Bool.or_self,
    Bool.false_eq_true, if_false]

/-- Rounding keeps the order of magnitudes. -/
theorem rank_roundTo_mono (h : a.rank ≤ b.rank) : (a.roundTo n).rank ≤ (b.roundTo n).rank := by
  rcases Nat.eq_zero_or_pos n with rfl | hn
  · simpa [roundTo] using h
  by_cases ha : a.rank = 0
  · rw [rank_roundTo_of_rank_eq_zero ha]
    exact Nat.zero_le _
  by_cases hfin : b.rank = infiniteRank
  · have hb : b.roundTo n = b := by
      rw [roundTo, (isInfinite_iff b).mpr hfin, Bool.or_true, Bool.true_or, if_pos rfl]
    rw [hb, hfin]
    exact (a.roundTo n).rank_le
  · have hlt : b.rank < infiniteRank := Nat.lt_of_le_of_ne b.rank_le hfin
    rw [roundTo_eq_nearest ha (h.trans_lt hlt) hn, roundTo_eq_nearest (by omega) hlt hn]
    exact Decimal.nearest_rank_mono (toRat_significant_mono ha hn h)

end Magnitude

namespace Binary64

variable {x y : Binary64} {s t : Bool} {a b : Magnitude} {n : ℕ}

/-- Doubles compare by their units. The rank of infinity has more units than any finite double, so
that the infinities are the ends of the order; the zeros have none and are equal; and the value that
is not a number compares with nothing. -/
protected def le : Binary64 → Binary64 → Prop
  | signed s a, signed t b => signedUnits s a ≤ signedUnits t b
  | _, _ => False

instance : LE Binary64 := ⟨Binary64.le⟩

instance : DecidableRel (α := Binary64) (· ≤ ·)
  | signed s a, signed t b => inferInstanceAs (Decidable (signedUnits s a ≤ signedUnits t b))
  | nan, _ => isFalse (by cases · )
  | signed _ _, nan => isFalse nofun

/-- Rounding keeps the order of signed magnitudes. -/
theorem signedUnits_roundTo_le (h : signedUnits s a ≤ signedUnits t b) :
    signedUnits s (a.roundTo n) ≤ signedUnits t (b.roundTo n) := by
  have hle {a b : Magnitude} : a.units ≤ b.units ↔ a.rank ≤ b.rank :=
    unitsOfRank_strictMono.le_iff_le
  have hzero {a : Magnitude} (ha : a.rank = 0) : a.units = 0 := by rw [Magnitude.units, ha]; rfl
  cases s with
  | false =>
    cases t with
    | false =>
      simp only [signedUnits, Bool.false_eq_true, if_false, Nat.cast_le, hle] at h ⊢
      exact Magnitude.rank_roundTo_mono h
    | true =>
      -- Only zero is not above a negative double, and only if that is a zero, too.
      have ha := le_unitsOfRank a.rank
      have hb := le_unitsOfRank b.rank
      simp only [signedUnits, Magnitude.units, Bool.false_eq_true, if_false, if_true] at h
      have ha0 : a.rank = 0 := by omega
      have hb0 : b.rank = 0 := by omega
      rw [signedUnits, signedUnits, hzero (Magnitude.rank_roundTo_of_rank_eq_zero ha0),
        hzero (Magnitude.rank_roundTo_of_rank_eq_zero hb0)]
      decide
  | true =>
    cases t with
    | false =>
      simp only [signedUnits, Bool.false_eq_true, if_false, if_true]
      omega
    | true =>
      simp only [signedUnits, if_true, neg_le_neg_iff, Nat.cast_le, hle] at h ⊢
      exact Magnitude.rank_roundTo_mono h

/-- Rounding acts on the magnitude, and takes the sign off a zero. -/
theorem roundTo_signed_eq (n : ℕ) (s : Bool) (a : Magnitude) :
    (signed s a).roundTo n = signed (s && !a.isZero) (a.roundTo n) := by
  cases hz : a.isZero with
  | true =>
    obtain rfl : a = .zero := Magnitude.eq_of_rank_eq ((Magnitude.isZero_iff a).mp hz)
    rw [roundTo_of_isZero (x := signed s .zero) hz, Bool.not_true, Bool.and_false]
    rfl
  | false =>
    simp only [roundTo, Magnitude.roundTo, hz, Bool.false_eq_true, if_false, Bool.false_or,
      Bool.not_false, Bool.and_true]
    split <;> rfl

/-- The sign of a zero does not count. -/
theorem signedUnits_roundTo_signed (n : ℕ) (s : Bool) (a : Magnitude) :
    signedUnits (s && !a.isZero) (a.roundTo n) = signedUnits s (a.roundTo n) := by
  cases hz : a.isZero with
  | true =>
    have ha := Magnitude.rank_roundTo_of_rank_eq_zero (n := n) ((Magnitude.isZero_iff a).mp hz)
    have hunits : (a.roundTo n).units = 0 := by rw [Magnitude.units, ha]; rfl
    simp [signedUnits, hunits]
  | false => rw [Bool.not_false, Bool.and_true]

/-- Rounding to any number of significant digits preserves the order of doubles, where a result that
overflows counts as the infinity of its sign. -/
theorem roundTo_le_roundTo (n : ℕ) (h : x ≤ y) : x.roundTo n ≤ y.roundTo n := by
  cases x with
  | nan => exact absurd h id
  | signed s a =>
    cases y with
    | nan => exact absurd h id
    | signed t b =>
      rw [roundTo_signed_eq, roundTo_signed_eq]
      show signedUnits _ _ ≤ signedUnits _ _
      rw [signedUnits_roundTo_signed, signedUnits_roundTo_signed]
      exact signedUnits_roundTo_le h

/-- To one digit the lowest double overflows, three units become two, and the order stays. -/
theorem roundTo_le_roundTo_overflow :
    signed true ⟨infiniteRank - 1, by decide⟩ ≤ signed false ⟨3, by decide⟩ ∧
      (signed true ⟨infiniteRank - 1, by decide⟩).roundTo 1 = signed true .infinity ∧
      (signed false ⟨3, by decide⟩).roundTo 1 = signed false ⟨2, by decide⟩ ∧
      signed true .infinity ≤ signed false ⟨2, by decide⟩ := by
  have hle : signed true ⟨infiniteRank - 1, by decide⟩ ≤ signed false ⟨3, by decide⟩ := by
    decide +kernel
  have hlow : (signed true ⟨infiniteRank - 1, by decide⟩).roundTo 1 = signed true .infinity := by
    decide +kernel
  have hhigh : (signed false ⟨3, by decide⟩).roundTo 1 = signed false ⟨2, by decide⟩ := by
    decide +kernel
  have h := roundTo_le_roundTo 1 hle
  rw [hlow, hhigh] at h
  exact ⟨hle, hlow, hhigh, h⟩

end Binary64

end PocketCalc
