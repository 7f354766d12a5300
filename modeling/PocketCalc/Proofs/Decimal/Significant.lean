import Mathlib.Algebra.Order.Ring.Abs
import PocketCalc.Decimal.Significant
import PocketCalc.Proofs.Decimal.Value

/-!
# Rounding to significant digits is idempotent

`decimalExponent_spec` places a magnitude between two powers of ten, so that `significant n` is the
nearest multiple of the last of `n` digits (`significant_spec`). Rounding to a double afterwards may
move the value again, but some multiple of the place of the double's own `n`-th digit rounds to it
(`exists_multiple_of_roundsTo`). `nearest_significant_of_roundsTo` shows that a double which such a
multiple of at most fifteen digits rounds to is a fixed point of both roundings together, so that
every result of theirs is one (`nearest_significant_idem`). Twelve digits never overflow
(`nearest_significant_rank_lt`), and no number of digits turns a magnitude into zero
(`nearest_significant_rank_ne_zero`). The last section states these facts for signed doubles.
-/

namespace PocketCalc

/-- A natural number other than zero lies between the powers of ten that its digits count. -/
theorem length_toDigits_spec {n : ℕ} (hn : 0 < n) :
    10 ^ ((Nat.toDigits 10 n).length - 1) ≤ n ∧ n < 10 ^ (Nat.toDigits 10 n).length := by
  obtain ⟨l, hl⟩ : ∃ l, (Nat.toDigits 10 n).length = l + 1 :=
    ⟨_, (Nat.sub_add_cancel Nat.length_toDigits_pos).symm⟩
  rw [hl, Nat.add_sub_cancel]
  constructor
  · rcases Nat.eq_zero_or_pos l with rfl | hpos
    · exact hn
    · rw [← not_lt, ← Nat.length_toDigits_le_iff (by norm_num) hpos]
      omega
  · exact (Nat.length_toDigits_le_iff (by norm_num) l.succ_pos).mp hl.le

/-- With enough places to make it at least one, a fraction shows its first digit in the number of
digits of its whole part. -/
theorem length_toDigits_div_spec {num den p : ℕ} (hnum : 0 < num) (hden : 0 < den)
    (hp : den ≤ Nat.pow 10 p) :
    (10 : ℚ) ^ ((Nat.toDigits 10 (num * Nat.pow 10 p / den)).length - 1 - p : ℤ) ≤ num / den ∧
      (num / den : ℚ) < 10 ^ ((Nat.toDigits 10 (num * Nat.pow 10 p / den)).length - p : ℤ) := by
  rw [Nat.pow_eq] at *
  have hd : (0 : ℚ) < den := by exact_mod_cast hden
  have hpos : 0 < num * 10 ^ p / den :=
    Nat.div_pos (hp.trans (Nat.le_mul_of_pos_left _ hnum)) hden
  have hfloor : ((num * 10 ^ p / den : ℕ) : ℚ) ≤ num / den * 10 ^ p := by
    rw [div_mul_eq_mul_div]
    exact_mod_cast Nat.cast_div_le (α := ℚ) (m := num * 10 ^ p) (n := den)
  have hceil : (num / den * 10 ^ p : ℚ) < (num * 10 ^ p / den : ℕ) + 1 := by
    rw [div_mul_eq_mul_div, div_lt_iff₀ hd]
    exact_mod_cast Nat.lt_mul_of_div_lt (Nat.lt_succ_self _) hden
  -- The fraction is less than one above its whole part, and a whole number below the power of ten.
  obtain ⟨hlow, hhigh⟩ := length_toDigits_spec hpos
  have hlen : 0 < (Nat.toDigits 10 (num * 10 ^ p / den)).length := Nat.length_toDigits_pos
  generalize (Nat.toDigits 10 (num * 10 ^ p / den)).length = l at *
  rw [show (l : ℤ) - 1 = (l - 1 : ℕ) by omega, zpow_sub₀ (by norm_num), zpow_sub₀ (by norm_num),
    zpow_natCast, zpow_natCast, zpow_natCast, div_le_iff₀ (by positivity),
    lt_div_iff₀ (by positivity)]
  constructor
  · exact le_trans (by exact_mod_cast hlow) hfloor
  · exact hceil.trans_le (by exact_mod_cast hhigh)

namespace Magnitude

variable {a b : Magnitude} {n : ℕ}

/-- The number that a finite magnitude stands for. -/
def toRat (a : Magnitude) : ℚ := a.units / unitsInOne

/-- Times the units in one, the number is the units of the rank. -/
theorem toRat_mul_unitsInOne (a : Magnitude) : a.toRat * unitsInOne = unitsOfRank a.rank :=
  div_mul_cancel₀ _ (Nat.cast_ne_zero.mpr unitsInOne_pos.ne')

/-- The distance from a magnitude, in units and in steps of `w`. -/
theorem abs_sub_unitsOfRank (a : Magnitude) {w : ℚ} (hw : 0 < w) (z : ℚ) :
    |z * w * unitsInOne - unitsOfRank a.rank| = |z - a.toRat / w| * (w * unitsInOne) := by
  have hU := cast_unitsInOne_pos
  have h : z * w * unitsInOne - a.toRat * unitsInOne = (z - a.toRat / w) * (w * unitsInOne) := by
    field_simp
  rw [← toRat_mul_unitsInOne, h, abs_mul, abs_of_pos (mul_pos hw hU)]

/-- A grid counts the number in steps of a power of ten. -/
theorem gridNum_div_gridDen (a : Magnitude) (e : ℤ) :
    (a.gridNum e : ℚ) / gridDen e = a.toRat / 10 ^ e := by
  rw [gridNum, gridDen, toRat, Decimal.ten_zpow, Nat.pow_eq, Nat.pow_eq]
  push_cast
  generalize (unitsInOne : ℚ) = U
  field_simp

theorem gridDen_pos (e : ℤ) : 0 < gridDen e :=
  Nat.mul_pos unitsInOne_pos (Nat.pow_pos (by norm_num))

/-- The decimal exponent of a magnitude other than zero is that of its first digit. -/
theorem decimalExponent_spec (ha : a.rank ≠ 0) :
    10 ^ a.decimalExponent ≤ a.toRat ∧ a.toRat < 10 ^ (a.decimalExponent + 1) := by
  have hunits : 0 < a.units := (Nat.pos_of_ne_zero ha).trans_le (le_unitsOfRank _)
  -- No magnitude is below one unit, which 324 places make at least one.
  have h := length_toDigits_div_spec hunits unitsInOne_pos range_bounds.2.le
  rw [decimalExponent]
  generalize (Nat.toDigits 10 (a.units * Nat.pow 10 324 / unitsInOne)).length = l at *
  rw [show (l : ℤ) - 325 = l - 1 - (324 : ℕ) by omega,
    show (l : ℤ) - 1 - (324 : ℕ) + 1 = l - (324 : ℕ) by omega]
  exact h

/-- The first digit of a finite magnitude stands between the places of the smallest and the largest
double. -/
theorem decimalExponent_bounds (ha : a.rank ≠ 0) (hfin : a.rank < infiniteRank) :
    -324 ≤ a.decimalExponent ∧ a.decimalExponent ≤ 308 := by
  constructor
  · have hlen : 0 < (Nat.toDigits 10 (a.units * Nat.pow 10 324 / unitsInOne)).length :=
      Nat.length_toDigits_pos
    rw [decimalExponent]
    omega
  · have hmax : (unitsOfRank infiniteRank : ℚ) < 10 ^ 309 * unitsInOne := by
      exact_mod_cast range_bounds.1
    have hrank := cast_unitsOfRank_lt hfin
    rw [← Int.lt_add_one_iff, ← zpow_lt_zpow_iff_right₀ (show (1 : ℚ) < 10 by norm_num)]
    refine (decimalExponent_spec ha).1.trans_lt ?_
    refine lt_of_mul_lt_mul_right ?_ cast_unitsInOne_pos.le
    rw [toRat_mul_unitsInOne]
    exact hrank.trans hmax

/-- The significant digits count the number in steps of the last one, rounded half to even. -/
theorem significant_spec (n : ℕ) (a : Magnitude) :
    ∃ c, a.significant n = ⟨c, a.decimalExponent + 1 - n⟩ ∧
      RoundsHalfEven (a.toRat / 10 ^ (a.decimalExponent + 1 - n)) c := by
  rw [significant]
  generalize a.decimalExponent + 1 - n = e
  have hden := gridDen_pos e
  have hgrid := gridNum_div_gridDen a e
  generalize gridDen e = den at *
  rw [← hgrid]
  exact ⟨_, rfl, roundsHalfEven_roundHalfEven _ hden⟩

/-- Significant digits may carry to one more digit, but only to the power of ten. -/
theorem coefficient_significant_le (ha : a.rank ≠ 0) (n : ℕ) :
    (a.significant n).coefficient ≤ 10 ^ n := by
  obtain ⟨c, hc, hround⟩ := significant_spec n a
  have hhigh := (decimalExponent_spec ha).2
  rw [Decimal.ten_zpow_eq_mul _ n, ← div_lt_iff₀ (by positivity)] at hhigh
  rw [hc]
  have h : ((2 * c : ℕ) : ℚ) < (2 * 10 ^ n + 1 : ℕ) := by
    push_cast
    linarith [hround.le.1]
  have h : 2 * c < 2 * 10 ^ n + 1 := by exact_mod_cast h
  dsimp only
  omega

/-- The decimal of significant digits is at most the next power of ten. -/
theorem toRat_significant_le (ha : a.rank ≠ 0) (n : ℕ) :
    (a.significant n).toRat ≤ 10 ^ (a.decimalExponent + 1) := by
  have hle := coefficient_significant_le ha n
  rw [Decimal.toRat, Decimal.ten_zpow_eq_mul (a.decimalExponent + 1) n]
  exact mul_le_mul_of_nonneg_right (by exact_mod_cast hle) (by positivity)

/-- If a decimal of at most `n` digits rounds to a double, so does a multiple of the place of the
double's own `n`-th digit. -/
theorem exists_multiple_of_roundsTo (hb : b.rank ≠ 0) (hn : 0 < n) {d : Decimal}
    (hd : d.coefficient ≤ 10 ^ n) (hround : RoundsTo (d.toRat * unitsInOne) b.rank) :
    ∃ c : ℕ, RoundsTo (c * 10 ^ (b.decimalExponent + 1 - n) * unitsInOne) b.rank := by
  have hlow := (decimalExponent_spec hb).1
  have hunits := b.toRat_mul_unitsInOne
  obtain ⟨c, e⟩ := d
  rw [Decimal.toRat] at hround
  dsimp only at hd hround
  generalize b.decimalExponent = e' at *
  rcases le_or_gt (e' + 1 - n) e with hle | hlt
  · -- The place of the decimal's last digit is a multiple of the place asked for.
    obtain ⟨j, hj⟩ := Int.le.dest hle
    refine ⟨c * 10 ^ j, ?_⟩
    rw [← hj, add_comm, zpow_add₀ (by norm_num), zpow_natCast, ← mul_assoc] at hround
    push_cast
    exact hround
  · -- The decimal is below the power of ten of the double's first digit, which is between the two.
    have hcarry : (c : ℚ) * 10 ^ e ≤ 10 ^ e' :=
      calc (c : ℚ) * 10 ^ e ≤ 10 ^ n * 10 ^ e :=
            mul_le_mul_of_nonneg_right (by exact_mod_cast hd) (by positivity)
        _ = 10 ^ (n + e : ℤ) := by rw [zpow_add₀ (by norm_num), zpow_natCast]
        _ ≤ 10 ^ e' := zpow_le_zpow_right₀ (by norm_num) (by omega)
    refine ⟨10 ^ (n - 1), ?_⟩
    rw [← Decimal.ten_zpow_eq_cast_mul e' hn]
    refine hround.between (.self b.rank) ?_ ?_
    · exact mul_le_mul_of_nonneg_right hcarry (Nat.cast_nonneg _)
    · rw [← hunits]
      exact mul_le_mul_of_nonneg_right hlow (Nat.cast_nonneg _)

/-- If a decimal of at most fifteen digits rounds to a double, so does the one that is nearest to
the double among those with the same number of places. -/
theorem nearest_significant_of_roundsTo (hb : b.rank ≠ 0) (hfin : b.rank < infiniteRank)
    (hn : n ≤ 15) {c : ℕ}
    (hc : RoundsTo (c * 10 ^ (b.decimalExponent + 1 - n) * unitsInOne) b.rank) :
    (b.significant n).nearest = b := by
  obtain ⟨r, hr, hround⟩ := significant_spec n b
  refine eq_of_rank_eq ((Decimal.nearest_rank_eq_iff _ hfin).mpr ?_)
  rw [hr, Decimal.toRat]
  have hU := cast_unitsInOne_pos
  have hhigh := (decimalExponent_spec hb).2
  have hunits := b.toRat_mul_unitsInOne
  rw [Decimal.ten_zpow_eq_mul _ n] at hhigh
  have hw : (0 : ℚ) < 10 ^ (b.decimalExponent + 1 - n) := by positivity
  have hdist := b.abs_sub_unitsOfRank hw
  dsimp only at hc ⊢
  generalize (10 : ℚ) ^ (b.decimalExponent + 1 - n) = w at *
  generalize (unitsInOne : ℚ) = U at *
  rcases eq_or_ne c r with rfl | hne
  · exact hc
  -- Two decimals compete, so the decimal step is not above the binary one, and the double has so
  -- few binary steps that its neighbours are equally far: the nearer decimal rounds to it, too.
  have hnearer := hround.abs_sub_le_abs_sub c
  have hapart := hround.one_le_abs_sub hne
  have hk := Nat.pos_of_ne_zero hb
  have hstep : w * U ≤ unitsOfRank (b.rank + 1) - unitsOfRank b.rank := by
    have hclose := hc.abs_sub_le hk
    have h := mul_le_mul_of_nonneg_right hapart (mul_pos hw hU).le
    rw [hdist] at hclose
    linarith
  have hfew : (2 ^ 52 + 1) * unitsOfRank b.rank < 2 ^ 52 * unitsOfRank (b.rank + 1) := by
    have hlt : (unitsOfRank b.rank : ℚ) < 10 ^ 15 * (w * U) :=
      calc (unitsOfRank b.rank : ℚ) = b.toRat * U := hunits.symm
        _ < 10 ^ n * w * U := mul_lt_mul_of_pos_right hhigh hU
        _ = 10 ^ n * (w * U) := mul_assoc _ _ _
        _ ≤ 10 ^ 15 * (w * U) :=
          mul_le_mul_of_nonneg_right (pow_le_pow_right₀ (by norm_num) hn) (mul_pos hw hU).le
    have h : ((2 ^ 52 + 1) * unitsOfRank b.rank : ℚ) < 2 ^ 52 * unitsOfRank (b.rank + 1) := by
      linarith
    exact_mod_cast h
  refine .of_abs_le (unitsOfRank_symm hk hfew) hc ?_
  rw [hdist, hdist]
  exact mul_le_mul_of_nonneg_right hnearer (mul_pos hw hU).le

/-- The double that significant digits round to is a fixed point of both roundings. -/
theorem nearest_significant_idem (ha : a.rank ≠ 0) (hn : 0 < n) (hn' : n ≤ 15)
    (hb : (a.significant n).nearest = b) (hb0 : b.rank ≠ 0) (hfin : b.rank < infiniteRank) :
    (b.significant n).nearest = b := by
  have hround := (Decimal.nearest_rank_eq_iff _ hfin).mp (congrArg rank hb)
  obtain ⟨c, hc⟩ := exists_multiple_of_roundsTo hb0 hn (coefficient_significant_le ha n) hround
  exact nearest_significant_of_roundsTo hb0 hfin hn' hc

/-- Significant digits, one at least, do not make a magnitude vanish. -/
theorem nearest_significant_rank_ne_zero (ha : a.rank ≠ 0) (hn : 0 < n) :
    (a.significant n).nearest.rank ≠ 0 := by
  obtain ⟨c, hc, hround⟩ := significant_spec n a
  have hlow := (decimalExponent_spec ha).1
  have hunits := a.toRat_mul_unitsInOne
  have hone : (1 : ℚ) ≤ unitsOfRank a.rank := by
    exact_mod_cast (Nat.one_le_iff_ne_zero.mpr ha).trans (le_unitsOfRank _)
  have hU := cast_unitsInOne_pos
  have hw : (0 : ℚ) < 10 ^ (a.decimalExponent + 1 - n) := by positivity
  have hx : 1 ≤ a.toRat / 10 ^ (a.decimalExponent + 1 - n) := by
    rw [le_div_iff₀ hw, one_mul]
    exact (zpow_le_zpow_right₀ (by norm_num) (by omega)).trans hlow
  rw [Ne, Decimal.nearest_rank_eq_iff _ (by decide), hc, Decimal.toRat]
  intro hzero
  have hle := hzero.le.2
  rw [Nat.zero_add, show unitsOfRank 0 = 0 from rfl, show unitsOfRank 1 = 1 from rfl, Nat.cast_zero,
    Nat.cast_one, zero_add] at hle
  dsimp only at hle
  generalize (10 : ℚ) ^ (a.decimalExponent + 1 - n) = w at *
  generalize (unitsInOne : ℚ) = U at *
  -- A count of at least one step rounds to more than half of it.
  have hmore : a.toRat / w < 2 * c := by
    have hup := hround.le.2
    have hc1 : (1 : ℚ) ≤ c := by
      have h : ((0 : ℕ) : ℚ) < c := by
        push_cast
        linarith
      exact_mod_cast h
    linarith
  rw [div_lt_iff₀ hw] at hmore
  have h := mul_lt_mul_of_pos_right hmore hU
  linarith

/-- The twelve digits of the largest double: the double is closer to them than to the next ones, and
they are below the middle between it and infinity. -/
theorem largest_significant :
    2 * unitsOfRank (infiniteRank - 1) < (2 * 179769313486 + 1) * 10 ^ 297 * unitsInOne ∧
      2 * (179769313486 * 10 ^ 297 * unitsInOne) <
        unitsOfRank (infiniteRank - 1) + unitsOfRank infiniteRank := by
  decide +kernel

/-- Every finite magnitude is closer to the twelve digits of the largest one than to the next ones,
or below them. -/
theorem two_mul_toRat_lt (hfin : a.rank < infiniteRank) :
    2 * a.toRat < (2 * 179769313486 + 1) * 10 ^ 297 := by
  have hmax := cast_unitsOfRank_le (Nat.le_sub_one_of_lt hfin)
  have hdigits : (2 * unitsOfRank (infiniteRank - 1) : ℚ) <
      (2 * 179769313486 + 1) * 10 ^ 297 * unitsInOne := by
    exact_mod_cast largest_significant.1
  refine lt_of_mul_lt_mul_right (lt_of_le_of_lt ?_ hdigits) cast_unitsInOne_pos.le
  rw [mul_assoc, toRat_mul_unitsInOne]
  exact mul_le_mul_of_nonneg_left hmax (by norm_num)

/-- No finite magnitude rounds to twelve digits above those of the largest one. -/
theorem toRat_significant_twelve_le (ha : a.rank ≠ 0) (hfin : a.rank < infiniteRank) :
    (a.significant 12).toRat ≤ 179769313486 * 10 ^ 297 := by
  have hsmall := two_mul_toRat_lt hfin
  obtain ⟨c, hc, hround⟩ := significant_spec 12 a
  have hcarry := toRat_significant_le ha 12
  have he := (decimalExponent_bounds ha hfin).2
  rw [hc, Decimal.toRat] at hcarry ⊢
  dsimp only at hcarry ⊢
  generalize a.decimalExponent = e at *
  have hp : (0 : ℚ) < 10 ^ 297 := by positivity
  have h297 : (10 : ℚ) ^ (297 : ℤ) = 10 ^ 297 := zpow_natCast 10 297
  have h308 : (10 : ℚ) ^ (308 : ℤ) = 10 ^ 11 * 10 ^ 297 := by
    rw [← h297]
    exact Decimal.ten_zpow_eq_mul 308 11
  generalize (10 : ℚ) ^ 297 = p at *
  rcases Int.lt_or_eq_of_le he with hlt | rfl
  · -- With a smaller exponent even a carry stays below.
    have hpow : (10 : ℚ) ^ (e + 1) ≤ 10 ^ (308 : ℤ) := zpow_le_zpow_right₀ (by norm_num) hlt
    rw [h308] at hpow
    exact (hcarry.trans hpow).trans (by linarith only [hp])
  · -- The last of twelve digits counts `10^297`, and rounding does not reach the next multiple.
    have h297' : (10 : ℚ) ^ (308 + 1 - (12 : ℕ) : ℤ) = p := h297
    rw [h297'] at hround ⊢
    refine mul_le_mul_of_nonneg_right ?_ hp.le
    have hup : a.toRat / p < 179769313486 + 1 / 2 := by
      rw [div_lt_iff₀ hp]
      linarith
    have h : (c : ℚ) < (179769313487 : ℕ) := by
      push_cast
      linarith [hround.le.1]
    have h : c ≤ 179769313486 := Nat.lt_succ_iff.mp (by exact_mod_cast h)
    exact_mod_cast h

/-- Rounding a finite magnitude to twelve digits does not overflow. -/
theorem nearest_significant_rank_lt (ha : a.rank ≠ 0) (hfin : a.rank < infiniteRank) :
    (a.significant 12).nearest.rank < infiniteRank := by
  have hmiddle : (2 * (179769313486 * 10 ^ 297 * unitsInOne) : ℚ) <
      unitsOfRank (infiniteRank - 1) + unitsOfRank infiniteRank := by
    exact_mod_cast largest_significant.2
  refine Decimal.nearest_rank_lt _ (lt_of_le_of_lt ?_ hmiddle)
  refine mul_le_mul_of_nonneg_left (mul_le_mul_of_nonneg_right ?_ (Nat.cast_nonneg _)) (by norm_num)
  exact toRat_significant_twelve_le ha hfin

end Magnitude

namespace Binary64

variable {x : Binary64} {n : ℕ}

/-- Both zeros round to the positive one. -/
theorem roundTo_of_isZero (h : x.isZero = true) : x.roundTo n = zero := by
  cases x with
  | nan => exact absurd h Bool.false_ne_true
  | signed s a => exact if_pos h

/-- What is not finite is not rounded. -/
theorem roundTo_of_not_isFinite (h : x.isFinite = false) : x.roundTo n = x := by
  cases x with
  | nan => rfl
  | signed s a =>
    have hi : a.isInfinite = true := by rwa [isFinite, Bool.not_eq_false'] at h
    have hz : a.isZero = false := by
      refine Magnitude.isZero_eq_false ?_
      rw [(Magnitude.isInfinite_iff a).mp hi]
      decide
    simp only [roundTo, hz, hi, Bool.true_or, Bool.false_eq_true, if_false, if_true]

/-- Rounding keeps the sign of a finite double other than zero. -/
theorem roundTo_signed {s : Bool} {a : Magnitude} (ha : a.rank ≠ 0) (hfin : a.rank < infiniteRank)
    (hn : 0 < n) : (signed s a).roundTo n = signed s (a.significant n).nearest := by
  have hz := Magnitude.isZero_eq_false ha
  have hi := Magnitude.isInfinite_eq_false hfin
  have h0 : (n == 0) = false := beq_false_of_ne hn.ne'
  simp only [roundTo, hz, hi, h0, Bool.or_self, Bool.false_eq_true, if_false]

/-- What rounding meets: a zero, a double that is not finite, or a finite one with a first digit. -/
theorem cases_roundTo (x : Binary64) : x.isZero = true ∨ x.isFinite = false ∨
    ∃ s a, x = signed s a ∧ a.rank ≠ 0 ∧ a.rank < infiniteRank := by
  cases x with
  | nan => exact .inr (.inl rfl)
  | signed s a =>
    by_cases ha : a.rank = 0
    · exact .inl ((Magnitude.isZero_iff a).mpr ha)
    · cases hfin : (signed s a).isFinite with
      | false => exact .inr (.inl rfl)
      | true => exact .inr (.inr ⟨s, a, rfl, ha, (isFinite_signed_iff s a).mp hfin⟩)

/-- Rounding to at most fifteen digits is idempotent. -/
theorem roundTo_idem (hn : 0 < n) (hn' : n ≤ 15) (x : Binary64) :
    (x.roundTo n).roundTo n = x.roundTo n := by
  rcases cases_roundTo x with hz | hi | ⟨s, a, rfl, ha, hfin⟩
  · rw [roundTo_of_isZero hz, roundTo_of_isZero rfl]
  · rw [roundTo_of_not_isFinite hi, roundTo_of_not_isFinite hi]
  · rw [roundTo_signed ha hfin hn]
    have hb := Magnitude.nearest_significant_rank_ne_zero ha hn
    -- With few digits the first rounding may overflow, and then there is nothing left to round.
    cases hfin' : (signed s (a.significant n).nearest).isFinite with
    | false => exact roundTo_of_not_isFinite hfin'
    | true =>
      rw [isFinite_signed_iff] at hfin'
      rw [roundTo_signed hb hfin' hn, Magnitude.nearest_significant_idem ha hn hn' rfl hb hfin']

/-- Without digits nothing but the sign of a zero changes. -/
theorem roundTo_zero (h : x.isZero = false) : x.roundTo 0 = x := by
  cases x with
  | nan => rfl
  | signed s a =>
    have hz : a.isZero = false := h
    simp only [roundTo, hz, BEq.rfl, Bool.or_true, Bool.false_eq_true, if_false, if_true]

/-- Rounding never gives the value that is not a number, unless that is rounded. -/
theorem roundTo_eq_nan_iff : x.roundTo n = nan ↔ x = nan := by
  cases x with
  | nan => exact Iff.rfl
  | signed s a =>
    rw [roundTo]
    split
    · exact ⟨nofun, nofun⟩
    · split <;> exact ⟨nofun, nofun⟩

/-- Rounding to at most fifteen digits a second time changes no bit of any double: of a normal or
subnormal one, of either zero or infinity, or of the value that is not a number, which stays it. -/
theorem roundTo_roundTo (hn : n ≤ 15) (x : Binary64) :
    (x.roundTo n).roundTo n = x.roundTo n ∧ (x.roundTo n = nan ↔ x = nan) := by
  refine ⟨?_, roundTo_eq_nan_iff⟩
  rcases Nat.eq_zero_or_pos n with rfl | hpos
  · cases hz : x.isZero with
    | true => rw [roundTo_of_isZero hz, roundTo_of_isZero rfl]
    | false => rw [roundTo_zero hz, roundTo_zero hz]
  · exact roundTo_idem hpos hn x

/-- To one digit three units become two, which stay two. -/
theorem roundTo_roundTo_subnormal :
    1 ≤ 15 ∧ (signed true ⟨3, by decide⟩).roundTo 1 = signed true ⟨2, by decide⟩ ∧
      (signed true ⟨2, by decide⟩).roundTo 1 = signed true ⟨2, by decide⟩ := by
  have hn : 1 ≤ 15 := by decide
  have hround : (signed true ⟨3, by decide⟩).roundTo 1 = signed true ⟨2, by decide⟩ := by
    decide +kernel
  have h := (roundTo_roundTo hn (signed true ⟨3, by decide⟩)).1
  rw [hround] at h
  exact ⟨hn, hround, h⟩

/-- Rounding a finite double does not give a negative zero. -/
theorem roundTo_ne_neg_zero (hn : 0 < n) (h : x.isFinite = true) :
    x.roundTo n ≠ signed true .zero := by
  rcases cases_roundTo x with hz | hi | ⟨s, a, rfl, ha, hfin⟩
  · rw [roundTo_of_isZero hz]
    exact nofun
  · rw [hi] at h
    exact absurd h Bool.false_ne_true
  · rw [roundTo_signed ha hfin hn]
    intro h
    have hrank := congrArg Magnitude.rank (signed.inj h).2
    exact Magnitude.nearest_significant_rank_ne_zero ha hn hrank

/-- Rounding to twelve digits keeps a finite double finite. -/
theorem isFinite_roundTo_twelve (h : x.isFinite = true) : (x.roundTo 12).isFinite = true := by
  rcases cases_roundTo x with hz | hi | ⟨s, a, rfl, ha, hfin⟩
  · rw [roundTo_of_isZero hz]
    rfl
  · rw [hi] at h
    exact absurd h Bool.false_ne_true
  · rw [roundTo_signed ha hfin (by norm_num), isFinite_signed_iff]
    exact Magnitude.nearest_significant_rank_lt ha hfin

end Binary64

end PocketCalc
