import Mathlib.Algebra.Order.Field.Power
import PocketCalc.Decimal.Basic
import PocketCalc.Proofs.Binary64.Nearest

/-!
# The number that a decimal writes

`Decimal.toRat` is the value of a decimal, and rounding it to a double depends on nothing else:
`nearest_rank_eq_iff` says so for finite doubles in terms of rounding intervals, and `nearest_congr`
for all of them. The two shortcuts that `Decimal.nearest` takes for very small and very large
exponents agree with the rounding itself (`nearest_eq`). Dropping the zeros at the end of a
coefficient keeps the value (`toRat_reduce`).
-/

namespace PocketCalc

/-- The units in one are a power of two. -/
theorem unitsInOne_eq : unitsInOne = 2 ^ 1074 := by
  unfold unitsInOne
  generalize 1074 = n
  exact Nat.pow_eq

theorem unitsInOne_pos : 0 < unitsInOne := by
  unfold unitsInOne
  generalize 1074 = n
  exact Nat.pow_pos Nat.two_pos

theorem cast_unitsInOne_pos : (0 : ℚ) < unitsInOne := Nat.cast_pos.mpr unitsInOne_pos

/-- Powers of ten around the range of doubles. -/
theorem range_bounds :
    unitsOfRank infiniteRank < 10 ^ 309 * unitsInOne ∧ unitsInOne < Nat.pow 10 324 := by
  decide +kernel

namespace Decimal

/-- The number that a decimal writes. -/
def toRat (d : Decimal) : ℚ := d.coefficient * 10 ^ d.exponent

theorem toRat_nonneg (d : Decimal) : 0 ≤ d.toRat :=
  mul_nonneg (Nat.cast_nonneg _) (zpow_nonneg (by norm_num) _)

theorem den_pos (d : Decimal) : 0 < d.den := Nat.pow_pos (by norm_num)

/-- A power of ten is the fraction of its two sides. -/
theorem ten_zpow (e : ℤ) : (10 : ℚ) ^ e = 10 ^ e.toNat / 10 ^ (-e).toNat := by
  rw [eq_div_iff (by positivity), ← zpow_natCast, ← zpow_natCast, ← zpow_add₀ (by norm_num)]
  congr 1
  omega

/-- A power of ten splits into the places of `n` digits and the last one of them. -/
theorem ten_zpow_eq_mul (e : ℤ) (n : ℕ) : (10 : ℚ) ^ e = 10 ^ n * 10 ^ (e - n) := by
  rw [← zpow_natCast, ← zpow_add₀ (by norm_num), add_sub_cancel]

/-- A power of ten has `n` digits, counted in steps of the last of them. -/
theorem ten_zpow_eq_cast_mul (e : ℤ) {n : ℕ} (hn : 0 < n) :
    (10 : ℚ) ^ e = (10 ^ (n - 1) : ℕ) * 10 ^ (e + 1 - n) := by
  rw [ten_zpow_eq_mul e (n - 1), show e + 1 - n = e - (n - 1 : ℕ) by omega, Nat.cast_pow,
    Nat.cast_ofNat]

/-- The fraction that is rounded is the value in units. -/
theorem num_div_den (d : Decimal) : (d.num : ℚ) / d.den = d.toRat * unitsInOne := by
  rw [num, den, toRat, ten_zpow, Nat.pow_eq, Nat.pow_eq]
  push_cast
  ring

/-- A decimal that is left out for its small exponent is below half a unit. -/
theorem toRat_lt_of_isNegligible {d : Decimal} (h : d.isNegligible = true) :
    2 * (d.toRat * unitsInOne) < 1 := by
  rw [isNegligible, Bool.or_eq_true, beq_iff_eq, decide_eq_true_eq] at h
  rcases h with h0 | hlog
  · rw [toRat, h0, Nat.cast_zero, zero_mul, zero_mul, mul_zero]
    exact one_pos
  · have hc : d.coefficient < 2 ^ (d.coefficient.log2 + 1) := Nat.lt_log2_self
    -- The coefficient has fewer bits than three times the places that divide it.
    have h10 : d.coefficient * (2 * 2 ^ 1074) < 10 ^ (-d.exponent).toNat :=
      calc d.coefficient * (2 * 2 ^ 1074)
          < 2 ^ (d.coefficient.log2 + 1) * (2 * 2 ^ 1074) :=
            Nat.mul_lt_mul_of_pos_right hc (by positivity)
        _ = 2 ^ (d.coefficient.log2 + 1076) := by rw [← pow_succ', ← pow_add]
        _ ≤ 2 ^ (3 * (-d.exponent).toNat) := Nat.pow_le_pow_right Nat.two_pos (by omega)
        _ = 8 ^ (-d.exponent).toNat := by rw [pow_mul]; norm_num
        _ ≤ 10 ^ (-d.exponent).toNat := Nat.pow_le_pow_left (by norm_num) _
    have hq : (d.coefficient * (2 * unitsInOne) : ℚ) < 10 ^ (-d.exponent).toNat := by
      rw [unitsInOne_eq]
      exact_mod_cast h10
    have hneg : d.exponent.toNat = 0 := by omega
    rw [toRat, ten_zpow, hneg, pow_zero]
    rw [show 2 * (d.coefficient * (1 / (10 : ℚ) ^ (-d.exponent).toNat) * unitsInOne) =
      d.coefficient * (2 * unitsInOne) / 10 ^ (-d.exponent).toNat by ring]
    exact (div_lt_one (by positivity)).mpr hq

/-- A decimal that is left out for its large exponent is beyond all doubles. -/
theorem le_toRat_of_isExcessive {d : Decimal} (h : d.isExcessive = true) :
    unitsOfRank infiniteRank ≤ d.toRat * unitsInOne := by
  rw [isExcessive, Bool.and_eq_true, bne_iff_ne, decide_eq_true_eq] at h
  obtain ⟨h0, he⟩ := h
  have hc : (1 : ℚ) ≤ d.coefficient := by exact_mod_cast Nat.one_le_iff_ne_zero.mpr h0
  have hmax : (unitsOfRank infiniteRank : ℚ) < 10 ^ 309 * unitsInOne := by
    exact_mod_cast range_bounds.1
  refine hmax.le.trans (mul_le_mul_of_nonneg_right ?_ (Nat.cast_nonneg _))
  calc (10 : ℚ) ^ 309 = 10 ^ (309 : ℤ) := (zpow_natCast 10 309).symm
    _ ≤ 10 ^ d.exponent := zpow_le_zpow_right₀ (by norm_num) he.le
    _ ≤ d.coefficient * 10 ^ d.exponent := le_mul_of_one_le_left (by positivity) hc

/-- The shortcuts for very small and very large exponents agree with the rounding. -/
theorem nearest_eq (d : Decimal) : d.nearest = .nearest d.num d.den := by
  unfold nearest
  split
  · next h =>
    refine Magnitude.eq_of_rank_eq (((Magnitude.nearest_rank_eq_iff _ d.den_pos ?_).mpr ?_).symm)
    · decide
    · rw [num_div_den]
      have hlt := toRat_lt_of_isNegligible h
      have h0 : 0 ≤ d.toRat * unitsInOne := mul_nonneg d.toRat_nonneg (Nat.cast_nonneg _)
      show RoundsTo _ 0
      rw [RoundsTo, if_pos rfl, Nat.zero_sub, Nat.zero_add, show unitsOfRank 0 = 0 from rfl,
        show unitsOfRank 1 = 1 from rfl, Nat.cast_zero, Nat.cast_one]
      constructor <;> linarith
  · split
    · next h =>
      have hle := le_toRat_of_isExcessive h
      rw [← num_div_den] at hle
      exact (Magnitude.nearest_eq_infinity d.den_pos hle).symm
    · rfl

/-- A decimal rounds to a finite double exactly if its value lies in the rounding interval. -/
theorem nearest_rank_eq_iff (d : Decimal) {k : ℕ} (hk : k < infiniteRank) :
    d.nearest.rank = k ↔ RoundsTo (d.toRat * unitsInOne) k := by
  rw [nearest_eq, Magnitude.nearest_rank_eq_iff _ d.den_pos hk, num_div_den]

/-- A decimal that does not overflow lies in the interval of the double that it rounds to. -/
theorem roundsTo_nearest (d : Decimal) (h : d.nearest.rank < infiniteRank) :
    RoundsTo (d.toRat * unitsInOne) d.nearest.rank :=
  (d.nearest_rank_eq_iff h).mp rfl

/-- Only zero rounds to a double from a coefficient without digits. -/
theorem coefficient_ne_zero_of_roundsTo {d : Decimal} {k : ℕ} (hk : k ≠ 0)
    (h : RoundsTo (d.toRat * unitsInOne) k) : d.coefficient ≠ 0 := by
  intro h0
  rw [toRat, h0, Nat.cast_zero, zero_mul, zero_mul] at h
  exact hk (h.unique (.self 0))

/-- A decimal below the middle between the largest double and infinity does not overflow. -/
theorem nearest_rank_lt (d : Decimal)
    (h : 2 * (d.toRat * unitsInOne) < unitsOfRank (infiniteRank - 1) + unitsOfRank infiniteRank) :
    d.nearest.rank < infiniteRank := by
  rw [nearest_eq]
  rw [← num_div_den] at h
  exact Magnitude.nearest_rank_lt d.den_pos h

/-- A larger decimal does not round to an earlier double. -/
theorem nearest_rank_mono {d d' : Decimal} (h : d.toRat ≤ d'.toRat) :
    d.nearest.rank ≤ d'.nearest.rank := by
  rw [nearest_eq, nearest_eq]
  refine Magnitude.nearest_rank_mono d.den_pos d'.den_pos ?_
  rw [num_div_den, num_div_den]
  exact mul_le_mul_of_nonneg_right h (Nat.cast_nonneg _)

/-- Decimals of the same value round to the same double. -/
theorem nearest_congr {d d' : Decimal} (h : d.toRat = d'.toRat) : d.nearest = d'.nearest := by
  rw [nearest_eq, nearest_eq]
  refine Magnitude.nearest_congr d.den_pos d'.den_pos ?_
  rw [num_div_den, num_div_den, h]

/-- The zeros that a coefficient loses at its end are counted by the exponent. -/
theorem exists_reduce (d : Decimal) : ∃ j : ℕ,
    d.reduce.exponent = d.exponent + j ∧ d.coefficient = d.reduce.coefficient * 10 ^ j := by
  fun_induction reduce d with
  | case1 d h ih =>
    obtain ⟨j, hj, hc⟩ := ih
    dsimp only at hj hc
    refine ⟨j + 1, by push_cast; omega, ?_⟩
    rw [pow_succ, ← mul_assoc, ← hc]
    omega
  | case2 d h => exact ⟨0, (Int.add_zero _).symm, by rw [pow_zero, Nat.mul_one]⟩

/-- No zero is left at the end of a coefficient. -/
theorem coefficient_reduce_mod_ten {d : Decimal} (h : d.coefficient ≠ 0) :
    d.reduce.coefficient % 10 ≠ 0 := by
  fun_induction reduce d with
  | case1 d hd ih =>
    refine ih ?_
    dsimp only
    omega
  | case2 d hd => exact fun hmod => hd ⟨h, hmod⟩

/-- Without the zeros at its end a decimal has the same value. -/
theorem toRat_reduce (d : Decimal) : d.reduce.toRat = d.toRat := by
  obtain ⟨j, hj, hc⟩ := d.exists_reduce
  rw [toRat, toRat, hj, hc, zpow_add₀ (by norm_num), zpow_natCast]
  push_cast
  ring

end Decimal

end PocketCalc
