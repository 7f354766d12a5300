import PocketCalc.Decimal.Shortest
import PocketCalc.Proofs.Decimal.Significant

/-!
# The shortest decimal reads back

The test that `Magnitude.shortest` applies to a decimal is the rounding interval of the magnitude
(`roundsFrom_iff`). If any decimal on a grid passes it, so does a neighbour of the magnitude
(`withDigits_isSome_of_roundsTo`), and the search goes no further (`exists_withDigits`). Seventeen
digits are always enough. So the search finds a decimal, and rounding it gives the magnitude again
(`nearest_shortest`). The decimal has few digits and its last place is within a few hundred of the
point (`shortest_bounds`).
-/

namespace PocketCalc

namespace Magnitude

variable {a : Magnitude} {e : ℤ} {c n : ℕ} {d : Decimal}

/-- The test on half units is the rounding interval. -/
theorem roundsFrom_iff (a : Magnitude) (e : ℤ) (c : ℕ) :
    a.roundsFrom e c = true ↔ RoundsTo (c * 10 ^ e * unitsInOne) a.rank := by
  have hp : (0 : ℚ) < 10 ^ (-e).toNat := by positivity
  have hpoint : (2 * (c * 10 ^ e * unitsInOne) * 10 ^ (-e).toNat : ℚ) =
      (2 * c * gridDen e : ℕ) := by
    rw [Decimal.ten_zpow, gridDen, Nat.pow_eq]
    push_cast
    generalize (unitsInOne : ℚ) = U
    field_simp
  have hle (l : ℕ) : l * 10 ^ (-e).toNat ≤ 2 * c * gridDen e ↔
      (l : ℚ) ≤ 2 * (c * 10 ^ e * unitsInOne) := by
    rw [← mul_le_mul_iff_of_pos_right hp, hpoint]
    exact_mod_cast Iff.rfl
  have hge (l : ℕ) : 2 * c * gridDen e ≤ l * 10 ^ (-e).toNat ↔
      2 * (c * 10 ^ e * unitsInOne) ≤ (l : ℚ) := by
    rw [← mul_le_mul_iff_of_pos_right hp, hpoint]
    exact_mod_cast Iff.rfl
  unfold roundsFrom RoundsTo units
  rw [Nat.pow_eq]
  split
  · rw [Bool.and_eq_true, decide_eq_true_eq, decide_eq_true_eq, hle, hge]
    push_cast
    exact Iff.rfl
  · rw [Bool.and_eq_true, decide_eq_true_eq, decide_eq_true_eq, ← not_le, ← not_le, hle, hge,
      not_le, not_le]
    push_cast
    exact Iff.rfl

/-- What the search takes from a grid rounds to the magnitude and is a neighbour of it. -/
theorem onGrid_spec (h : a.onGrid e = some c) :
    RoundsTo (c * 10 ^ e * unitsInOne) a.rank ∧ c ≤ a.gridNum e / gridDen e + 1 := by
  rw [← roundsFrom_iff]
  unfold onGrid at h
  generalize a.gridNum e / gridDen e = floor at *
  dsimp only at h
  split at h
  · next h0 h1 =>
    split at h <;> cases h
    · exact ⟨h1, le_rfl⟩
    · exact ⟨h0, Nat.le_succ _⟩
  · next h0 h1 =>
    cases h
    exact ⟨h0, Nat.le_succ _⟩
  · next h0 h1 =>
    cases h
    exact ⟨h1, le_rfl⟩
  · cases h

/-- If a neighbour on the grid rounds to the magnitude, the search takes something from the grid. -/
theorem onGrid_isSome (h : c = a.gridNum e / gridDen e ∨ c = a.gridNum e / gridDen e + 1)
    (hc : RoundsTo (c * 10 ^ e * unitsInOne) a.rank) : (a.onGrid e).isSome := by
  rw [← roundsFrom_iff] at hc
  unfold onGrid
  generalize a.gridNum e / gridDen e = floor at *
  dsimp only
  rcases h with rfl | rfl
  · rw [hc]
    cases a.roundsFrom e (c + 1) <;> rfl
  · rw [hc]
    cases a.roundsFrom e floor <;> rfl

/-- If some multiple on the grid of `n + 1` digits rounds to the magnitude, so does a neighbour of it
on that grid, and the search takes something from there. -/
theorem withDigits_isSome_of_roundsTo
    (hc : RoundsTo (c * 10 ^ (a.decimalExponent - n) * unitsInOne) a.rank) :
    (a.withDigits n).isSome := by
  rw [withDigits, Option.isSome_map]
  have hunits := a.toRat_mul_unitsInOne
  have hU := cast_unitsInOne_pos
  have hgrid := gridNum_div_gridDen a (a.decimalExponent - n)
  have hden := gridDen_pos (a.decimalExponent - n)
  have hself : RoundsTo (unitsOfRank a.rank) a.rank := .self _
  generalize a.decimalExponent - n = e at *
  have hw : (0 : ℚ) < 10 ^ e := by positivity
  rw [← hunits] at hself
  have hfloor : ((a.gridNum e / gridDen e : ℕ) : ℚ) * 10 ^ e ≤ a.toRat := by
    rw [← le_div_iff₀ hw, ← hgrid]
    exact Nat.cast_div_le
  have hceil : a.toRat ≤ ((a.gridNum e / gridDen e + 1 : ℕ) : ℚ) * 10 ^ e := by
    rw [← div_le_iff₀ hw, ← hgrid, div_le_iff₀ (by exact_mod_cast hden)]
    exact_mod_cast (Nat.lt_mul_of_div_lt (Nat.lt_succ_self _) hden).le
  -- The neighbour on the multiple's side lies between the multiple and the magnitude.
  have hmul {p q : ℚ} (h : p ≤ q) : p * unitsInOne ≤ q * unitsInOne :=
    mul_le_mul_of_nonneg_right h hU.le
  rcases Nat.lt_or_ge (a.gridNum e / gridDen e) c with hlt | hge
  · refine onGrid_isSome (.inr rfl) (hself.between hc (hmul hceil) (hmul ?_))
    exact mul_le_mul_of_nonneg_right (by exact_mod_cast hlt) hw.le
  · refine onGrid_isSome (.inl rfl) (hc.between hself (hmul ?_) (hmul hfloor))
    exact mul_le_mul_of_nonneg_right (by exact_mod_cast hge) hw.le

/-- Seventeen digits always suffice. -/
theorem withDigits_sixteen_isSome (ha : a.rank ≠ 0) : (a.withDigits 16).isSome := by
  obtain ⟨c, -, hround⟩ := significant_spec 17 a
  have hlow := (decimalExponent_spec ha).1
  have hunits := a.toRat_mul_unitsInOne
  have hU := cast_unitsInOne_pos
  rw [show a.decimalExponent + 1 - (17 : ℕ) = a.decimalExponent - (16 : ℕ) by omega] at hround
  rw [Decimal.ten_zpow_eq_mul _ 16] at hlow
  refine withDigits_isSome_of_roundsTo (c := c) ?_
  generalize a.decimalExponent - (16 : ℕ) = e at *
  have hw : (0 : ℚ) < 10 ^ e := by positivity
  -- The decimal is within half a step, and a step is at most one part in `10^16`.
  refine .of_close (Nat.pos_of_ne_zero ha) ?_
  obtain ⟨h1, h2⟩ := hround.le
  have hhalf : 2 * |c - a.toRat / 10 ^ e| ≤ 1 := by
    rw [← le_div_iff₀' (by norm_num), abs_le]
    constructor <;> linarith
  rw [a.abs_sub_unitsOfRank hw]
  generalize |(c : ℚ) - a.toRat / 10 ^ e| = distance at *
  generalize (unitsInOne : ℚ) = U at *
  calc 2 * 10 ^ 16 * (distance * (10 ^ e * U)) = 2 * distance * (10 ^ 16 * 10 ^ e * U) := by ring
    _ ≤ 1 * (10 ^ 16 * 10 ^ e * U) := mul_le_mul_of_nonneg_right hhalf (by positivity)
    _ = 10 ^ 16 * 10 ^ e * U := one_mul _
    _ ≤ a.toRat * U := mul_le_mul_of_nonneg_right hlow hU.le
    _ = unitsOfRank a.rank := hunits

/-- The search for the shortest decimal goes no further than a number of digits that is enough. -/
theorem exists_withDigits (ha : a.rank ≠ 0) (hn : n < 17) (h : (a.withDigits n).isSome) :
    ∃ d m, a.shortest = d.reduce ∧ m ≤ n ∧ a.withDigits m = some d := by
  have hz := isZero_eq_false ha
  have hsome : ((List.range 17).findSome? a.withDigits).isSome :=
    List.findSome?_isSome_iff.mpr ⟨n, List.mem_range.mpr hn, h⟩
  obtain ⟨d, hd⟩ := Option.isSome_iff_exists.mp hsome
  have hshortest : a.shortest = d.reduce := by
    rw [shortest, hz, hd]
    rfl
  obtain ⟨before, m, after, hrange, hdm, hnone⟩ := List.findSome?_eq_some_iff.mp hd
  refine ⟨d, m, hshortest, le_of_not_gt fun hlt => ?_, hdm⟩
  -- A smaller number of digits that is enough would have been tried before.
  have hmem : n ∈ before := by
    have hsorted : (List.range 17).Pairwise (· < ·) := List.pairwise_lt_range
    have hrange' : n ∈ List.range 17 := List.mem_range.mpr hn
    rw [hrange] at hsorted hrange'
    have hafter := (List.pairwise_cons.mp (List.pairwise_append.mp hsorted).2.1).1
    rcases List.mem_append.mp hrange' with hmem | hmem
    · exact hmem
    · rcases List.mem_cons.mp hmem with rfl | hmem
      · exact absurd hlt (lt_irrefl _)
      · exact absurd (hafter n hmem) hlt.asymm
  rw [hnone n hmem] at h
  exact absurd h Bool.false_ne_true

/-- A decimal that the search takes rounds to the magnitude, and its coefficient has as many digits
as asked for, or is the power of ten after them. -/
theorem withDigits_spec (ha : a.rank ≠ 0) (h : a.withDigits n = some d) :
    RoundsTo (d.toRat * unitsInOne) a.rank ∧ d.exponent = a.decimalExponent - n ∧
      d.coefficient ≤ 10 ^ (n + 1) := by
  obtain ⟨c, hc, rfl⟩ := Option.map_eq_some_iff.mp h
  obtain ⟨hround, hle⟩ := onGrid_spec hc
  refine ⟨hround, rfl, hle.trans ?_⟩
  have hhigh := (decimalExponent_spec ha).2
  have hplace : a.decimalExponent + 1 - (n + 1 : ℕ) = a.decimalExponent - n := by omega
  rw [Decimal.ten_zpow_eq_mul _ (n + 1), hplace, ← div_lt_iff₀ (by positivity),
    ← gridNum_div_gridDen] at hhigh
  have hfloor := Nat.cast_div_le (α := ℚ) (m := a.gridNum (a.decimalExponent - n))
    (n := gridDen (a.decimalExponent - n))
  exact Nat.succ_le_of_lt (by exact_mod_cast hfloor.trans_lt hhigh)

/-- The shortest decimal reads back. -/
theorem nearest_shortest (hfin : a.rank < infiniteRank) : a.shortest.nearest = a := by
  by_cases ha : a.rank = 0
  · rw [shortest, if_pos ((isZero_iff a).mpr ha)]
    exact eq_of_rank_eq ha.symm
  · obtain ⟨d, n, hd, -, hdn⟩ := exists_withDigits ha (by norm_num) (withDigits_sixteen_isSome ha)
    rw [hd, Decimal.nearest_congr d.toRat_reduce]
    exact eq_of_rank_eq ((Decimal.nearest_rank_eq_iff d hfin).mpr (withDigits_spec ha hdn).1)

/-- The shortest decimal has few digits, and its last place is within a few hundred of the point. -/
theorem shortest_bounds (hfin : a.rank < infiniteRank) :
    a.shortest.digits.length ≤ 18 ∧ -340 ≤ a.shortest.exponent ∧ a.shortest.exponent ≤ 325 := by
  by_cases ha : a.rank = 0
  · rw [shortest, if_pos ((isZero_iff a).mpr ha)]
    decide
  · obtain ⟨d, n, hd, hn, hdn⟩ :=
      exists_withDigits ha (by norm_num) (withDigits_sixteen_isSome ha)
    obtain ⟨hround, he, hle⟩ := withDigits_spec ha hdn
    obtain ⟨hmin, hmax⟩ := decimalExponent_bounds ha hfin
    obtain ⟨j, hj, hc⟩ := d.exists_reduce
    have hc17 : d.coefficient ≤ 10 ^ 17 := hle.trans (Nat.pow_le_pow_right (by norm_num) (by omega))
    -- What rounds to a magnitude other than zero is not zero, so that few zeros can be dropped.
    have hc0 := Decimal.coefficient_ne_zero_of_roundsTo ha hround
    have hr0 : 0 < d.reduce.coefficient :=
      Nat.pos_of_ne_zero fun h0 => hc0 (by rw [hc, h0, zero_mul])
    have hj17 : j ≤ 17 := by
      rw [← Nat.pow_le_pow_iff_right (show 1 < 10 by norm_num)]
      exact (Nat.le_mul_of_pos_left _ hr0).trans (hc ▸ hc17)
    have hr17 : d.reduce.coefficient ≤ 10 ^ 17 :=
      (Nat.le_mul_of_pos_right _ (Nat.pow_pos (by norm_num))).trans (hc ▸ hc17)
    rw [hd, hj, he]
    refine ⟨?_, by omega, by omega⟩
    rw [Decimal.digits, Nat.length_toDigits_le_iff (by norm_num) (by norm_num)]
    exact hr17.trans_lt (by norm_num)

end Magnitude

end PocketCalc
