import PocketCalc.Proofs.Decimal.Monotone
import PocketCalc.Proofs.Decimal.Shortest

/-!
# Decimals of few digits survive doubles

From `2^-1022` on, doubles are so close to each other that no two decimals of at most fifteen digits
round to the same one (`toRat_eq_of_roundsTo`). The shortest decimal of a double has no more digits
than any decimal that rounds to it (`length_digits_shortest_le`). So a decimal of at most fifteen
digits comes back from the double nearest to it as the shortest decimal (`toRat_shortest_of_roundsTo`).

Rounding to twelve digits yields such decimals, of at most twelve digits for every double
(`length_digits_shortest_significant_le`) and exactly the rounded decimal for those that are not
subnormal (`toRat_shortest_significant`).
-/

namespace PocketCalc

/-- No two multiples of a step round to one double that is not subnormal, if one of them counts at
most `10^15` steps. -/
theorem multiples_eq_of_roundsTo {k p q : ℕ} {w : ℚ} (hk : 2 ^ 52 ≤ k) (hw : 0 < w)
    (hp : p ≤ 10 ^ 15) (hx : RoundsTo (p * w) k) (hy : RoundsTo (q * w) k) : p = q := by
  by_contra hne
  have hk0 : 0 < k := lt_of_lt_of_le (by norm_num) hk
  have hstep : (2 ^ 52 * unitsOfRank (k + 1) : ℚ) ≤ (2 ^ 52 + 1) * unitsOfRank k := by
    exact_mod_cast two_pow_mul_unitsOfRank_succ_le hk
  have hx' := hx.abs_sub_le hk0
  have hy' := hy.abs_sub_le hk0
  have hfew : (p : ℚ) * w ≤ 10 ^ 15 * w :=
    mul_le_mul_of_nonneg_right (by exact_mod_cast hp) hw.le
  have hapart : w ≤ |p * w - q * w| := by
    have hone : (1 : ℤ) ≤ |(p : ℤ) - q| := Int.one_le_abs (by omega)
    have hone' : (1 : ℚ) ≤ |(p : ℚ) - q| := by exact_mod_cast hone
    rw [← sub_mul, abs_mul, abs_of_pos hw]
    exact le_mul_of_one_le_left hw.le hone'
  -- A step of the multiples is at most one of the doubles, of which the double counts `2^52`.
  have htriangle := abs_sub_le (p * w : ℚ) (unitsOfRank k) (q * w)
  rw [abs_sub_comm (unitsOfRank k : ℚ)] at htriangle
  have hclose := neg_abs_le (p * w - unitsOfRank k : ℚ)
  linarith

namespace Decimal

variable {d d' : Decimal} {k : ℕ}

/-- Decimals of at most fifteen digits that round to one double that is not subnormal are equal. -/
theorem toRat_eq_of_roundsTo (hk : 2 ^ 52 ≤ k) (hd : d.coefficient ≤ 10 ^ 15)
    (hd' : d'.coefficient ≤ 10 ^ 15) (h : RoundsTo (d.toRat * unitsInOne) k)
    (h' : RoundsTo (d'.toRat * unitsInOne) k) : d.toRat = d'.toRat := by
  wlog hle : d.exponent ≤ d'.exponent generalizing d d'
  · exact (this hd' hd h' h (le_of_not_ge hle)).symm
  -- Both are multiples of the finer of their two last places.
  obtain ⟨j, hj⟩ := Int.le.dest hle
  have hmul : d'.toRat = (d'.coefficient * 10 ^ j : ℕ) * 10 ^ d.exponent := by
    rw [toRat, ← hj, add_comm, zpow_add₀ (by norm_num), zpow_natCast, ← mul_assoc]
    push_cast
    rfl
  have hw : (0 : ℚ) < 10 ^ d.exponent * unitsInOne :=
    mul_pos (by positivity) cast_unitsInOne_pos
  rw [toRat, mul_assoc] at h
  rw [hmul, mul_assoc] at h'
  rw [hmul, ← multiples_eq_of_roundsTo hk hw hd h h', toRat]

end Decimal

namespace Magnitude

variable {a : Magnitude} {d : Decimal} {n : ℕ}

/-- The search for the shortest decimal ends with one of at most `n` digits, if such a decimal rounds
to the magnitude. -/
theorem exists_reduce_eq_shortest (ha : a.rank ≠ 0) (hn : 0 < n) (hn' : n ≤ 17)
    (hd : d.coefficient ≤ 10 ^ n) (h : RoundsTo (d.toRat * unitsInOne) a.rank) :
    ∃ d' : Decimal, a.shortest = d'.reduce ∧ d'.coefficient ≤ 10 ^ n ∧
      RoundsTo (d'.toRat * unitsInOne) a.rank := by
  obtain ⟨c, hc⟩ := exists_multiple_of_roundsTo ha hn hd h
  rw [show a.decimalExponent + 1 - n = a.decimalExponent - (n - 1 : ℕ) by omega] at hc
  obtain ⟨d', m, hshortest, hm, hdm⟩ :=
    exists_withDigits ha (by omega) (withDigits_isSome_of_roundsTo hc)
  obtain ⟨hround, -, hle⟩ := withDigits_spec ha hdm
  exact ⟨d', hshortest, hle.trans (Nat.pow_le_pow_right (by norm_num) (by omega)), hround⟩

/-- The shortest decimal has no more digits than a decimal that rounds to the magnitude. -/
theorem length_digits_shortest_le (ha : a.rank ≠ 0) (hn : 0 < n) (hn' : n ≤ 17)
    (hd : d.coefficient ≤ 10 ^ n) (h : RoundsTo (d.toRat * unitsInOne) a.rank) :
    a.shortest.digits.length ≤ n := by
  obtain ⟨d', hshortest, hle, hround⟩ := exists_reduce_eq_shortest ha hn hn' hd h
  have hmod := Decimal.coefficient_reduce_mod_ten (Decimal.coefficient_ne_zero_of_roundsTo ha hround)
  obtain ⟨j, -, hj⟩ := d'.exists_reduce
  have hle' : d'.reduce.coefficient ≤ 10 ^ n :=
    (Nat.le_mul_of_pos_right _ (Nat.pow_pos (by norm_num))).trans (hj ▸ hle)
  -- The power of ten itself would end with a zero.
  have hne : d'.reduce.coefficient ≠ 10 ^ n := by
    intro heq
    rw [heq, ← Nat.sub_add_cancel hn, pow_succ, Nat.mul_mod_left] at hmod
    exact hmod rfl
  rw [hshortest, Decimal.digits, Nat.length_toDigits_le_iff (by norm_num) hn]
  exact Nat.lt_of_le_of_ne hle' hne

/-- A decimal of at most fifteen digits that rounds to a magnitude that is not subnormal is the
shortest decimal of that magnitude. -/
theorem toRat_shortest_of_roundsTo (hk : 2 ^ 52 ≤ a.rank) (hd : d.coefficient ≤ 10 ^ 15)
    (h : RoundsTo (d.toRat * unitsInOne) a.rank) : a.shortest.toRat = d.toRat := by
  have ha : a.rank ≠ 0 := by omega
  obtain ⟨d', hshortest, hle, hround⟩ :=
    exists_reduce_eq_shortest ha (by norm_num) (by norm_num) hd h
  rw [hshortest, Decimal.toRat_reduce]
  exact Decimal.toRat_eq_of_roundsTo hk hle hd hround h

/-- After rounding to twelve digits the shortest decimal has no more than these. -/
theorem length_digits_shortest_significant_le (ha : a.rank ≠ 0) (hfin : a.rank < infiniteRank) :
    (a.significant 12).nearest.shortest.digits.length ≤ 12 := by
  have hzero := nearest_significant_rank_ne_zero ha (show 0 < 12 by norm_num)
  have hlt := nearest_significant_rank_lt ha hfin
  have hcoefficient := coefficient_significant_le ha 12
  generalize a.significant 12 = d at *
  exact length_digits_shortest_le hzero (by norm_num) (by norm_num) hcoefficient
    (d.roundsTo_nearest hlt)

/-- From `2^-1022` on, a magnitude is not subnormal. -/
theorem normal_of_le_toRat (h : 2 ^ (-1022 : ℤ) ≤ a.toRat) :
    2 ^ 52 ≤ a.rank := by
  by_contra hlt
  have hbinade : binadeSize = 2 ^ 52 := Nat.pow_eq
  have hunits : a.units < 2 ^ 52 := by
    rw [units, unitsOfRank, if_pos (by omega)]
    omega
  have hone : (2 : ℚ) ^ (-1022 : ℤ) * unitsInOne = 2 ^ 52 := by
    rw [unitsInOne_eq, Nat.cast_pow, Nat.cast_ofNat, ← zpow_natCast, ← zpow_add₀ (by norm_num)]
    norm_num
  rw [toRat, le_div_iff₀ cast_unitsInOne_pos, hone] at h
  exact hunits.not_ge (by exact_mod_cast h)

/-- A magnitude that is not subnormal is not rounded to one that is. -/
theorem normal_nearest_significant (hk : 2 ^ 52 ≤ a.rank) :
    2 ^ 52 ≤ (a.significant 12).nearest.rank := by
  have hfirst : 2 ^ 52 ≤ ((⟨2 ^ 52, by decide⟩ : Magnitude).significant 12).nearest.rank := by
    decide +kernel
  refine hfirst.trans (Decimal.nearest_rank_mono ?_)
  exact toRat_significant_mono (by decide) (by norm_num) hk

/-- After rounding to twelve digits the shortest decimal is the rounded one, unless the magnitude is
subnormal. -/
theorem toRat_shortest_significant (hk : 2 ^ 52 ≤ a.rank) (hfin : a.rank < infiniteRank) :
    (a.significant 12).nearest.shortest.toRat = (a.significant 12).toRat := by
  have ha : a.rank ≠ 0 := by omega
  have hlt := nearest_significant_rank_lt ha hfin
  have hcoefficient := coefficient_significant_le ha 12
  have hnormal := normal_nearest_significant hk
  generalize a.significant 12 = d at *
  exact toRat_shortest_of_roundsTo hnormal (hcoefficient.trans (by norm_num))
    (d.roundsTo_nearest hlt)

end Magnitude

end PocketCalc
