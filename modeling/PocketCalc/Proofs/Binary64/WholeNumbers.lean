import PocketCalc.Binary64.Arithmetic
import PocketCalc.Proofs.Decimal.NearestDecimal

/-!
# Whole numbers among the doubles

Every whole number below `2^53` is a double (`exists_rank_of_lt`), so that rounding does not change it.
`Binary64.ofInt` is this double, and a quotient that is exactly such a number is computed exactly
(`Binary64.toRat_div_eq`).
-/

namespace PocketCalc

/-- Every whole number below `2^53` is a finite double. -/
theorem exists_rank_of_lt {n : ℕ} (h : n < 2 ^ 53) :
    ∃ k < infiniteRank, unitsOfRank k = n * unitsInOne := by
  rcases Nat.eq_zero_or_pos n with rfl | hpos
  · exact ⟨0, by decide, (Nat.zero_mul _).symm⟩
  · -- Shifted to the left, the number counts the steps of a binade.
    have hlog : n.log2 ≤ 52 := Nat.le_of_lt_succ ((Nat.log2_lt hpos.ne').mpr h)
    obtain ⟨i, hi⟩ : ∃ i, n.log2 + i = 52 := ⟨_, Nat.add_sub_of_le hlog⟩
    have hlow : 2 ^ 52 ≤ n * 2 ^ i := by
      rw [← hi, pow_add]
      exact Nat.mul_le_mul_right _ (Nat.log2_self_le hpos.ne')
    have hhigh : n * 2 ^ i < 2 ^ 53 := by
      calc n * 2 ^ i < 2 ^ (n.log2 + 1) * 2 ^ i :=
            Nat.mul_lt_mul_of_pos_right Nat.lt_log2_self (Nat.pow_pos Nat.two_pos)
        _ = 2 ^ 53 := by rw [← pow_add, show n.log2 + 1 + i = 53 by omega]
    refine ⟨(1074 - i) * binadeSize + n * 2 ^ i, ?_, ?_⟩
    · rw [infiniteRank, binadeSize_eq]
      omega
    · rw [unitsOfRank_binade (.inr hlow) hhigh.le, unitsInOne_eq, Nat.mul_assoc, ← pow_add,
        show i + (1074 - i) = 1074 by omega]

namespace Magnitude

variable {a b : Magnitude} {n num den : ℕ}

/-- A magnitude is a whole number exactly if it has so many times the units of one. -/
theorem toRat_eq_natCast_iff : a.toRat = n ↔ a.units = n * unitsInOne := by
  rw [toRat, div_eq_iff cast_unitsInOne_pos.ne']
  exact_mod_cast Iff.rfl

/-- A fraction that is a whole number is not changed by rounding. -/
theorem toRat_nearest (hn : n < 2 ^ 53) (hden : 0 < den) (h : num = n * unitsInOne * den) :
    (nearest num den).toRat = n := by
  obtain ⟨k, hk, hunits⟩ := exists_rank_of_lt hn
  have hfraction : (num : ℚ) / den = unitsOfRank k := by
    rw [h, hunits, Nat.cast_mul _ den]
    exact mul_div_cancel_right₀ _ (Nat.cast_ne_zero.mpr hden.ne')
  have hrank : (nearest num den).rank = k :=
    (nearest_rank_eq_iff num hden hk).mpr (hfraction ▸ .self k)
  rw [toRat_eq_natCast_iff, units, hrank, hunits]

/-- Infinity comes after these whole numbers. -/
theorem le_toRat_of_isInfinite (h : a.isInfinite = true) : 2 ^ 53 ≤ a.toRat := by
  have hunits : Nat.pow 2 53 * unitsInOne ≤ infinity.units := by decide +kernel
  rw [show a = infinity from eq_of_rank_eq (a.isInfinite_iff.mp h), toRat,
    le_div_iff₀ cast_unitsInOne_pos]
  rw [← Nat.cast_le (α := ℚ), Nat.cast_mul, Nat.pow_eq, Nat.cast_pow, Nat.cast_ofNat] at hunits
  exact hunits

end Magnitude

namespace Binary64

variable {x y : Binary64} {n : ℤ}

/-- The double nearest to an integer. Zero has no sign. -/
def ofInt (n : ℤ) : Binary64 := ofUnits false (n * unitsInOne)

/-- An integer below `2^53` in size is a double. -/
theorem toRat_ofInt (hn : n.natAbs < 2 ^ 53) : (ofInt n).toRat = n := by
  have hunits : (n * unitsInOne).natAbs = n.natAbs * unitsInOne * 1 := by
    rw [Int.natAbs_mul, Int.natAbs_natCast, Nat.mul_one]
  have hU : (0 : ℤ) < unitsInOne := Int.natCast_pos.mpr unitsInOne_pos
  rw [ofInt, ofUnits, toRat, Magnitude.toRat_nearest hn Nat.one_pos hunits]
  rcases lt_trichotomy n 0 with hneg | rfl | hpos
  · have hmul : n * unitsInOne < 0 := mul_neg_of_neg_of_pos hneg hU
    have habs : (n.natAbs : ℤ) = -n := Int.ofNat_natAbs_of_nonpos hneg.le
    rw [if_neg hmul.ne, if_pos (decide_eq_true hmul), ← Int.cast_natCast, habs, Int.cast_neg,
      neg_neg]
  · rw [if_pos (zero_mul _), if_neg Bool.false_ne_true, Int.natAbs_zero, Nat.cast_zero, Int.cast_zero]
  · have hmul : 0 < n * unitsInOne := mul_pos hpos hU
    rw [if_neg hmul.ne', decide_eq_false hmul.not_gt, if_neg Bool.false_ne_true, ← Int.cast_natCast,
      Int.natAbs_of_nonneg hpos.le]

/-- A double is finite if it stands for a number other than zero below `2^53` in size. -/
theorem isFinite_of_abs_toRat_lt (h : |x.toRat| < 2 ^ 53) (h0 : x.toRat ≠ 0) :
    x.isFinite = true := by
  cases x with
  | nan => exact absurd rfl h0
  | signed s a =>
    rw [isFinite, Bool.not_eq_true', ← Bool.not_eq_true]
    intro hinfinite
    rw [abs_toRat_signed] at h
    exact h.not_ge (Magnitude.le_toRat_of_isInfinite hinfinite)

/-- The quotient of finite doubles is the quotient of their units, rounded, with the sign that the rule
of signs gives it. -/
theorem signed_div_signed (s t : Bool) {a b : Magnitude} (ha : a.isInfinite = false)
    (hb : b.isInfinite = false) (hpos : 0 < b.units) :
    signed s a / signed t b = signed (s != t) (.nearest (a.units * unitsInOne) b.units) := by
  have hzero : b.isZero = false := Magnitude.isZero_eq_false fun h0 =>
    hpos.ne' (by rw [Magnitude.units, h0]; rfl)
  show div _ _ = _
  rw [div, ha, hb, hzero]
  rfl

/-- A quotient that is exactly an integer below `2^53` in size is not changed by rounding. -/
theorem toRat_div_eq (hx : x.isFinite = true) (hy : y.isFinite = true) (hy0 : y.toRat ≠ 0)
    (hn : n.natAbs < 2 ^ 53) (h : x.toRat = n * y.toRat) : (x / y).toRat = n := by
  obtain ⟨⟩ | ⟨s, a⟩ := x
  · cases hx
  obtain ⟨⟩ | ⟨t, b⟩ := y
  · cases hy
  rw [isFinite, Bool.not_eq_true'] at hx hy
  have hb0 : b.toRat ≠ 0 := by rwa [← abs_toRat_signed t, abs_ne_zero]
  have hpos : 0 < b.units := Nat.pos_of_ne_zero fun h0 =>
    hb0 (by rw [Magnitude.toRat, h0, Nat.cast_zero, zero_div])
  have habs : a.toRat = n.natAbs * b.toRat := by
    have habs := congrArg abs h
    rwa [abs_mul, abs_toRat_signed, abs_toRat_signed, ← Int.cast_abs, Int.abs_eq_natAbs,
      Int.cast_natCast] at habs
  have hunits : a.units = n.natAbs * b.units := by
    rw [Magnitude.toRat, Magnitude.toRat, ← mul_div_assoc,
      div_left_inj' cast_unitsInOne_pos.ne'] at habs
    exact_mod_cast habs
  rw [signed_div_signed s t hx hy hpos, toRat,
    Magnitude.toRat_nearest hn hpos (by rw [hunits]; ring)]
  -- The signs agree in each of the four cases.
  refine mul_right_cancel₀ hb0 ?_
  rw [toRat, toRat] at h
  generalize (n.natAbs : ℚ) = m at *
  cases s <;> cases t <;>
    simp only [if_true, if_false, bne_self_eq_false, Bool.bne_true, Bool.bne_false, Bool.not_false,
      Bool.false_eq_true] at h ⊢ <;>
    linarith

end Binary64

end PocketCalc
