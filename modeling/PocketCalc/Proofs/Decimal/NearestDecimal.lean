import PocketCalc.Proofs.Decimal.Significant

/-!
# The nearest decimal

`IsNearestDecimal n x d` says that `d` is the correctly rounded decimal of `n` significant digits of
a number `x`, which it determines (`IsNearestDecimal.unique`). The significant digits of a magnitude
are this decimal (`Magnitude.isNearestDecimal_significant`): on the grid of the last digit's place no
multiple is nearer, and decimals off the grid are too small to be near. With the sign in front this
holds of doubles (`Binary64.isNearestDecimal_significant`).
-/

namespace PocketCalc

/-- The number `d` is the decimal of `n` significant digits nearest to `x`, and of two that are
equally near the one with the even last digit. -/
structure IsNearestDecimal (n : ℕ) (x d : ℚ) : Prop where
  /-- The digits count the place `n - 1` digits behind the first one of `x`, where a carry may lead up
  to the next power of ten. If `x` is half a step of that place away, the last digit is even. -/
  digits : ∃ c e : ℤ, 10 ^ e ≤ |x| ∧ |x| < 10 ^ (e + 1) ∧ |c| ≤ 10 ^ n ∧
    d = c * 10 ^ (e + 1 - n) ∧ (2 * |d - x| = 10 ^ (e + 1 - n) → Even c)
  /-- No decimal of `n` digits is nearer. -/
  nearest : ∀ c e : ℤ, |c| ≤ 10 ^ n → |d - x| ≤ |c * 10 ^ e - x|

/-- Rounding to significant digits does not depend on the sign. -/
theorem IsNearestDecimal.neg {n : ℕ} {x d : ℚ} (h : IsNearestDecimal n x d) :
    IsNearestDecimal n (-x) (-d) := by
  have hdist (y : ℚ) : |y - -x| = |-y - x| := by rw [← abs_neg, neg_sub', neg_neg]
  constructor
  · obtain ⟨c, e, hlow, hhigh, hc, hd, hties⟩ := h.digits
    refine ⟨-c, e, by rwa [abs_neg], by rwa [abs_neg], by rwa [abs_neg], ?_, ?_⟩
    · rw [hd]
      push_cast
      ring
    · rw [hdist, neg_neg, even_neg]
      exact hties
  · intro c e hc
    have hnearest := h.nearest (-c) e (by rwa [abs_neg])
    rw [hdist, hdist, neg_neg, ← neg_mul]
    exact_mod_cast hnearest

/-- There is at most one nearest decimal. -/
theorem IsNearestDecimal.unique {n : ℕ} {x d d' : ℚ} (h : IsNearestDecimal n x d)
    (h' : IsNearestDecimal n x d') : d = d' := by
  obtain ⟨c, e, hlow, hhigh, hc, hd, hties⟩ := h.digits
  obtain ⟨c', e', hlow', hhigh', hc', hd', hties'⟩ := h'.digits
  -- Both count the same place, since `x` has one first digit.
  obtain rfl : e = e' := by
    have hlt := hlow.trans_lt hhigh'
    have hgt := hlow'.trans_lt hhigh
    rw [zpow_lt_zpow_iff_right₀ (by norm_num)] at hlt hgt
    omega
  wlog hle : c ≤ c' generalizing c c' d d'
  · exact (this h' h c' hc' hd' hties' c hc hd hties (le_of_not_ge hle)).symm
  rcases hle.eq_or_lt with rfl | hlt
  · rw [hd, hd']
  exfalso
  have hw : (0 : ℚ) < 10 ^ (e + 1 - n) := by positivity
  have hnear := h.nearest (c + 1) (e + 1 - n) (abs_le.mpr (by
    have h1 := abs_le.mp hc
    have h2 := abs_le.mp hc'
    omega))
  have hsame : |d - x| = |d' - x| :=
    le_antisymm (hd' ▸ h.nearest c' _ hc') (hd ▸ h'.nearest c _ hc)
  generalize (10 : ℚ) ^ (e + 1 - n) = w at *
  have hcast : (c : ℚ) + 1 ≤ c' := by exact_mod_cast hlt
  have hdd : d + w ≤ d' := by
    have hmul := mul_le_mul_of_nonneg_right hcast hw.le
    rw [hd, hd']
    linarith
  -- So `x` is the middle of the two, half a step away from both if they are neighbours.
  have hmiddle : 2 * x = d + d' := by
    rcases abs_eq_abs.mp hsame with heq | heq <;> linarith
  rcases (Int.add_one_le_of_lt hlt).eq_or_lt with heq | hfar
  · have hstep : d' = d + w := by
      rw [hd, hd', ← heq]
      push_cast
      ring
    have hhalf : 2 * |d - x| = w := by
      rw [abs_of_nonpos (by linarith)]
      linarith
    have heven := hties hhalf
    have heven' := hties' (hsame ▸ hhalf)
    rw [← heq, Int.even_add_one] at heven'
    exact heven' heven
  · have hcast' : (c : ℚ) + 1 + 1 ≤ c' := by exact_mod_cast hfar
    have hmul := mul_le_mul_of_nonneg_right hcast' hw.le
    have hbetween : |((c + 1 : ℤ) : ℚ) * w - x| < |d - x| := by
      rw [abs_of_nonpos (show d - x ≤ 0 by linarith), abs_lt]
      push_cast
      constructor <;> linarith
    exact absurd hnear (not_le.mpr hbetween)

namespace Magnitude

variable {a : Magnitude} {n : ℕ}

/-- No multiple of the last digit's place is nearer than the significant digits. -/
theorem abs_toRat_significant_sub_le (n : ℕ) (a : Magnitude) (c : ℕ) :
    |(a.significant n).toRat - a.toRat| ≤ |c * 10 ^ (a.decimalExponent + 1 - n) - a.toRat| := by
  obtain ⟨r, hr, hround⟩ := significant_spec n a
  have hnearest := hround.abs_sub_le_abs_sub c
  rw [hr, Decimal.toRat]
  dsimp only
  have hw : (0 : ℚ) < 10 ^ (a.decimalExponent + 1 - n) := by positivity
  generalize (10 : ℚ) ^ (a.decimalExponent + 1 - n) = w at *
  have hscale (z : ℚ) : |z * w - a.toRat| = |z - a.toRat / w| * w := by
    rw [← abs_of_pos hw, ← abs_mul, abs_of_pos hw, sub_mul, div_mul_cancel₀ _ hw.ne']
  rw [hscale, hscale]
  exact mul_le_mul_of_nonneg_right hnearest hw.le

/-- Where the last of the significant digits stands for half a step it is even. -/
theorem even_coefficient_significant (n : ℕ) (a : Magnitude)
    (h : 2 * |(a.significant n).toRat - a.toRat| = 10 ^ (a.decimalExponent + 1 - n)) :
    Even (a.significant n).coefficient := by
  obtain ⟨r, hr, hround⟩ := significant_spec n a
  rw [hr] at h ⊢
  rw [Decimal.toRat] at h
  dsimp only at h ⊢
  have hw : (0 : ℚ) < 10 ^ (a.decimalExponent + 1 - n) := by positivity
  generalize (10 : ℚ) ^ (a.decimalExponent + 1 - n) = w at *
  by_contra hodd
  rw [RoundsHalfEven, if_neg (by rwa [← Nat.even_iff])] at hround
  -- An odd number of steps is strictly less than half a step away.
  have hlt : 2 * |r * w - a.toRat| < w := by
    have h1 := mul_lt_mul_of_pos_right hround.1 hw
    have h2 := mul_lt_mul_of_pos_right hround.2 hw
    have hx : a.toRat / w * w = a.toRat := div_mul_cancel₀ _ hw.ne'
    rw [← lt_div_iff₀' (by norm_num), abs_lt]
    constructor <;> linarith
  exact hlt.ne h

/-- The significant digits of a magnitude are the decimal nearest to it. -/
theorem isNearestDecimal_significant (ha : a.rank ≠ 0) (hn : 0 < n) :
    IsNearestDecimal n a.toRat (a.significant n).toRat := by
  obtain ⟨hlow, hhigh⟩ := decimalExponent_spec ha
  have hpos : 0 < a.toRat := lt_of_lt_of_le (by positivity) hlow
  have hgrid := abs_toRat_significant_sub_le n a
  have hdown {y : ℚ} (hy : y ≤ 10 ^ a.decimalExponent) :
      |(a.significant n).toRat - a.toRat| ≤ |y - a.toRat| := by
    have h := hgrid (10 ^ (n - 1))
    rw [← Decimal.ten_zpow_eq_cast_mul _ hn,
      abs_of_nonpos (show (10 : ℚ) ^ a.decimalExponent - a.toRat ≤ 0 by linarith)] at h
    rw [abs_of_nonpos (show y - a.toRat ≤ 0 by linarith)]
    linarith
  constructor
  · refine ⟨(a.significant n).coefficient, a.decimalExponent, ?_, ?_, ?_, ?_, ?_⟩
    · rwa [abs_of_pos hpos]
    · rwa [abs_of_pos hpos]
    · rw [Nat.abs_cast]
      exact_mod_cast coefficient_significant_le ha n
    · rw [Int.cast_natCast]
      rfl
    · exact fun h => (Int.even_coe_nat _).mpr (even_coefficient_significant n a h)
  · intro c e hc
    rcases le_or_gt (a.decimalExponent + 1 - n) e with hle | hlt
    · -- A decimal whose last place is not finer is on the same grid, or negative.
      rcases le_or_gt c 0 with hneg | hcpos
      · refine hdown (le_trans ?_ (show (0 : ℚ) ≤ 10 ^ a.decimalExponent by positivity))
        exact mul_nonpos_of_nonpos_of_nonneg (by exact_mod_cast hneg) (by positivity)
      · obtain ⟨m, rfl⟩ := Int.eq_ofNat_of_zero_le hcpos.le
        obtain ⟨j, rfl⟩ := Int.le.dest hle
        have h := hgrid (m * 10 ^ j)
        rw [add_comm _ (j : ℤ), zpow_add₀ (by norm_num), zpow_natCast, ← mul_assoc]
        exact_mod_cast h
    · -- With a finer last place its digits do not reach the first digit's power of ten.
      have hc' : (c : ℚ) ≤ 10 ^ n := by exact_mod_cast (le_abs_self c).trans hc
      refine hdown ?_
      calc (c : ℚ) * 10 ^ e ≤ 10 ^ n * 10 ^ e := mul_le_mul_of_nonneg_right hc' (by positivity)
        _ = 10 ^ (n + e) := by rw [zpow_add₀ (by norm_num), zpow_natCast]
        _ ≤ 10 ^ a.decimalExponent := zpow_le_zpow_right₀ (by norm_num) (by omega)

end Magnitude

namespace Binary64

/-- The number that a finite double is. -/
def toRat : Binary64 → ℚ
  | nan => 0
  | signed s a => if s then -a.toRat else a.toRat

/-- The sign of a double does not change how large it is. -/
theorem abs_toRat_signed (s : Bool) (a : Magnitude) : |(signed s a).toRat| = a.toRat := by
  have h : 0 ≤ a.toRat := div_nonneg (Nat.cast_nonneg _) (Nat.cast_nonneg _)
  cases s with
  | true => exact (abs_neg _).trans (abs_of_nonneg h)
  | false => exact abs_of_nonneg h

/-- The significant digits of a signed magnitude, behind its sign, are the decimal nearest to it. -/
theorem isNearestDecimal_significant (s : Bool) {a : Magnitude} {n : ℕ} (ha : a.rank ≠ 0)
    (hn : 0 < n) : IsNearestDecimal n (signed s a).toRat
      (if s then -(a.significant n).toRat else (a.significant n).toRat) := by
  have hnearest := Magnitude.isNearestDecimal_significant ha hn
  cases s with
  | true => exact hnearest.neg
  | false => exact hnearest

end Binary64

end PocketCalc
