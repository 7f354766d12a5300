import Mathlib.Algebra.Ring.Periodic
import Mathlib.Data.Rat.Floor
import PocketCalc.Machine
import PocketCalc.Proofs.Binary64.WholeNumbers

/-!
# Whole quarter turns

The sine and the cosine after whole quarter turns are the two sequences of integers that
`IsQuarterWave` describes. Its equations leave no choice: both have period four, and the three
functions give exactly these values (`Trig.ofAngle_quarterTurns`). Which angles count as whole quarter
turns is a matter of the quotient by one of them alone: it has to be an integer other than zero, up to
noise, and no larger than `10^9` (`AngleUnit.quarterTurns?_eq_some_iff`). The noise is so small that
there is at most one such integer.
-/

namespace PocketCalc

/-- The sine and the cosine as functions of the number of quarter turns: one more of them turns the
cosine into the sine, and the sine into the opposite of the cosine. -/
structure IsQuarterWave (s c : ℤ → ℤ) : Prop where
  /-- No turn has the sine zero. -/
  sine_zero : s 0 = 0
  /-- No turn has the cosine one. -/
  cosine_zero : c 0 = 1
  /-- The sine is the cosine of one quarter turn less. -/
  sine_succ : ∀ k, s (k + 1) = c k
  /-- The cosine is the opposite of the sine of one quarter turn less. -/
  cosine_succ : ∀ k, c (k + 1) = -s k

/-- The sine is one after one quarter turn of four, and minus one after three. -/
def quarterSine (k : ℤ) : ℤ := if k % 4 = 1 then 1 else if k % 4 = 3 then -1 else 0

/-- The cosine is one after no quarter turn of four, and minus one after two. -/
def quarterCosine (k : ℤ) : ℤ := if k % 4 = 0 then 1 else if k % 4 = 2 then -1 else 0

/-- These two are the sine and the cosine. -/
theorem isQuarterWave_quarterSine : IsQuarterWave quarterSine quarterCosine where
  sine_zero := rfl
  cosine_zero := rfl
  sine_succ k := by
    unfold quarterSine quarterCosine
    split_ifs <;> omega
  cosine_succ k := by
    unfold quarterSine quarterCosine
    split_ifs <;> omega

namespace IsQuarterWave

variable {s c : ℤ → ℤ}

/-- The sine repeats after four quarter turns. -/
theorem sine_periodic (h : IsQuarterWave s c) : Function.Periodic s 4 := fun k => by
  rw [show k + 4 = k + 1 + 1 + 1 + 1 by ring, h.sine_succ, h.cosine_succ, h.sine_succ,
    h.cosine_succ, neg_neg]

/-- The sine is the only one that fits the equations. -/
theorem sine_eq (h : IsQuarterWave s c) (k : ℤ) : s k = quarterSine k := by
  have h1 : s 1 = 1 := (h.sine_succ 0).trans h.cosine_zero
  have h2 : s 2 = 0 := by
    rw [show (2 : ℤ) = 0 + 1 + 1 from rfl, h.sine_succ, h.cosine_succ, h.sine_zero, neg_zero]
  have h3 : s 3 = -1 := by
    rw [show (3 : ℤ) = 1 + 1 + 1 from rfl, h.sine_succ, h.cosine_succ, h1]
  have hmod : s k = s (k % 4) := by
    rw [← h.sine_periodic.int_mul (k / 4) (k % 4), Int.cast_id, Int.emod_add_ediv_mul]
  rw [hmod, quarterSine]
  obtain hk | hk | hk | hk : k % 4 = 0 ∨ k % 4 = 1 ∨ k % 4 = 2 ∨ k % 4 = 3 := by omega
  · rw [hk, h.sine_zero]; rfl
  · rw [hk, h1]; rfl
  · rw [hk, h2]; rfl
  · rw [hk, h3]; rfl

/-- The cosine is the only one that fits the equations. -/
theorem cosine_eq (h : IsQuarterWave s c) (k : ℤ) : c k = quarterCosine k := by
  rw [← h.sine_succ, h.sine_eq, isQuarterWave_quarterSine.sine_succ]

end IsQuarterWave

namespace Binary64

theorem ofInt_zero : ofInt 0 = .zero := by decide +kernel

theorem ofInt_one : ofInt 1 = .ofNat 1 := by decide +kernel

theorem ofInt_neg_one : ofInt (-1) = -.ofNat 1 := by decide +kernel

end Binary64

namespace Trig

/-- The sine after whole quarter turns. -/
theorem sin_atQuarterTurns (k : ℤ) : sin.atQuarterTurns k = some (.ofInt (quarterSine k)) := by
  obtain hk | hk | hk | hk : k % 4 = 0 ∨ k % 4 = 1 ∨ k % 4 = 2 ∨ k % 4 = 3 := by omega
  all_goals
    simp [atQuarterTurns, quarterSine, hk, Binary64.ofInt_zero, Binary64.ofInt_one,
      Binary64.ofInt_neg_one]

/-- The cosine after whole quarter turns. -/
theorem cos_atQuarterTurns (k : ℤ) : cos.atQuarterTurns k = some (.ofInt (quarterCosine k)) := by
  obtain hk | hk | hk | hk : k % 4 = 0 ∨ k % 4 = 1 ∨ k % 4 = 2 ∨ k % 4 = 3 := by omega
  all_goals
    simp [atQuarterTurns, quarterCosine, hk, Binary64.ofInt_zero, Binary64.ofInt_one,
      Binary64.ofInt_neg_one]

/-- The tangent after whole quarter turns, which has no value where the cosine is zero. -/
theorem tan_atQuarterTurns (k : ℤ) :
    tan.atQuarterTurns k = if quarterCosine k = 0 then none else some .zero := by
  obtain hk | hk | hk | hk : k % 4 = 0 ∨ k % 4 = 1 ∨ k % 4 = 2 ∨ k % 4 = 3 := by omega
  all_goals simp [atQuarterTurns, quarterCosine, hk]

end Trig

namespace AngleUnit

variable {x : Binary64} {unit : AngleUnit} {k : ℤ}

/-- The whole number next to a magnitude is the integer it rounds to. -/
theorem nearestWhole_eq_round (a : Magnitude) : (nearestWhole a : ℤ) = round a.toRat := by
  have hU := cast_unitsInOne_pos
  have hsum : a.toRat + 1 / 2 = ((2 * a.units + unitsInOne : ℕ) : ℚ) / (2 * unitsInOne : ℕ) := by
    rw [Magnitude.toRat]
    push_cast
    field_simp
  rw [round_eq, hsum, Rat.floor_natCast_div_natCast, nearestWhole, Int.natCast_div]

/-- A magnitude is nearly whole if it differs from the whole number by at most the noise. -/
theorem isNearly_iff (a : Magnitude) (k : ℕ) :
    isNearly a k = true ↔ 2 ^ 49 * |a.toRat - k| ≤ a.toRat := by
  have hU := cast_unitsInOne_pos
  have hdist : |a.toRat - k| = ((a.units : ℤ) - k * unitsInOne).natAbs / unitsInOne := by
    rw [Magnitude.toRat, div_sub' hU.ne', abs_div, abs_of_pos hU, Nat.cast_natAbs, mul_comm]
    push_cast
    rfl
  rw [isNearly, decide_eq_true_iff, hdist, Magnitude.toRat, ← mul_div_assoc,
    div_le_div_iff_of_pos_right hU, mul_comm, Nat.pow_eq, ← Nat.cast_le (α := ℚ), Nat.cast_mul,
    Nat.cast_pow, Nat.cast_ofNat]

/-- The limit counts quarter turns, not units. -/
theorem maxQuarterTurns_lt_iff (a : Magnitude) :
    maxQuarterTurns * unitsInOne < a.units ↔ 10 ^ 9 < a.toRat := by
  rw [Magnitude.toRat, lt_div_iff₀ cast_unitsInOne_pos, maxQuarterTurns, Nat.pow_eq,
    ← Nat.cast_lt (α := ℚ), Nat.cast_mul, Nat.cast_pow, Nat.cast_ofNat]

/-- Below the limit, the noise reaches one integer at most, which is the nearest one. -/
theorem round_eq_of_noise {m : ℚ} (hm : m ≤ 10 ^ 9) (h : 2 ^ 49 * |m - k| ≤ m) : round m = k := by
  obtain ⟨hlow, hhigh⟩ := abs_le.mp (show |m - k| ≤ 1 / 4 by linarith)
  rw [round_eq, Int.floor_eq_iff]
  constructor <;> linarith

/-- What is tested of a magnitude, as a statement on the whole number that it yields. -/
theorem nearestWhole_eq_iff (a : Magnitude) (j : ℤ) :
    (a.isInfinite || decide (maxQuarterTurns * unitsInOne < a.units)) = false ∧
        (decide (nearestWhole a = 0) || !isNearly a (nearestWhole a)) = false ∧
        (nearestWhole a : ℤ) = j ↔
      j ≠ 0 ∧ a.toRat ≤ 10 ^ 9 ∧ 2 ^ 49 * |a.toRat - j| ≤ a.toRat := by
  have hinfinite (h : a.toRat ≤ 10 ^ 9) : a.isInfinite = false := by
    rw [← Bool.not_eq_true]
    intro hinf
    linarith [Magnitude.le_toRat_of_isInfinite hinf]
  simp only [Bool.or_eq_false_iff, decide_eq_false_iff_not, maxQuarterTurns_lt_iff, not_lt,
    Bool.not_eq_false', isNearly_iff]
  constructor
  · rintro ⟨⟨-, hlimit⟩, ⟨hzero, hnoise⟩, rfl⟩
    exact ⟨Int.natCast_ne_zero.mpr hzero, hlimit, hnoise⟩
  · rintro ⟨hj, hlimit, hnoise⟩
    obtain rfl : (nearestWhole a : ℤ) = j :=
      (nearestWhole_eq_round a).trans (round_eq_of_noise hlimit hnoise)
    exact ⟨⟨hinfinite hlimit, hlimit⟩, ⟨Int.natCast_ne_zero.mp hj, hnoise⟩, rfl⟩

/-- A number of quarter turns is found if it is not zero, not too large, and the quotient by a quarter
turn differs from it by at most the noise. -/
theorem quarterTurns?_eq_some_iff :
    unit.quarterTurns? x = some k ↔ k ≠ 0 ∧ |(x / unit.quarterTurn).toRat| ≤ 10 ^ 9 ∧
      2 ^ 49 * |(x / unit.quarterTurn).toRat - k| ≤ |(x / unit.quarterTurn).toRat| := by
  rw [quarterTurns?]
  obtain ⟨⟩ | ⟨s, a⟩ := x / unit.quarterTurn
  · simp [Binary64.toRat]
  -- The sign is put on the whole number, so the distance of the magnitude counts.
  have hdist : |(Binary64.signed s a).toRat - k| = |a.toRat - (if s then -k else k : ℤ)| := by
    cases s with
    | true =>
      rw [← abs_neg, Binary64.toRat, if_pos rfl, if_pos rfl, Int.cast_neg]
      ring_nf
    | false => rfl
  have hzero : k ≠ 0 ↔ (if s then -k else k) ≠ 0 := by
    cases s <;> simp
  rw [hdist, hzero, Binary64.abs_toRat_signed, ← nearestWhole_eq_iff]
  dsimp only
  generalize (a.isInfinite || decide (maxQuarterTurns * unitsInOne < a.units)) = large
  generalize (decide (nearestWhole a = 0) || !isNearly a (nearestWhole a)) = unsuited
  cases large <;> cases unsuited <;> cases s <;> simp [neg_eq_iff_eq_neg]

/-- An angle of exactly so many quarter turns is recognised. -/
theorem quarterTurns?_of_toRat_eq (hk : k ≠ 0) (hk' : |k| ≤ 10 ^ 9)
    (h : (x / unit.quarterTurn).toRat = k) : unit.quarterTurns? x = some k := by
  rw [quarterTurns?_eq_some_iff, h, sub_self, abs_zero, mul_zero]
  exact ⟨hk, by exact_mod_cast hk', abs_nonneg _⟩

/-- An angle that is nearer to no turn than to one quarter of it, or too large, is not. -/
theorem quarterTurns?_eq_none (h : |(x / unit.quarterTurn).toRat| < 1 / 2 ∨
    10 ^ 9 < |(x / unit.quarterTurn).toRat|) : unit.quarterTurns? x = none := by
  rw [Option.eq_none_iff_forall_ne_some]
  intro k hk
  obtain ⟨hzero, hlimit, hnoise⟩ := quarterTurns?_eq_some_iff.mp hk
  rcases h with h | h
  · have hone : (1 : ℚ) ≤ |(k : ℚ)| := by exact_mod_cast Int.one_le_abs hzero
    have htri := abs_sub_abs_le_abs_sub (k : ℚ) (x / unit.quarterTurn).toRat
    rw [abs_sub_comm] at htri
    linarith
  · exact h.not_ge hlimit

/-- In degrees, the multiples of 90 are whole quarter turns: this division is exact. -/
theorem toRat_div_quarterTurn_degrees (hk : k ≠ 0) (hk' : |k| ≤ 10 ^ 9) (h : x.toRat = 90 * k) :
    (x / degrees.quarterTurn).toRat = k := by
  have hquarter : degrees.quarterTurn.toRat = 90 := by
    rw [quarterTurn, ← show Binary64.ofInt 90 = .ofNat 90 by decide +kernel]
    exact Binary64.toRat_ofInt (by decide)
  have hx : x.isFinite = true := by
    refine Binary64.isFinite_of_abs_toRat_lt ?_ ?_
    · have habs : |(k : ℚ)| ≤ 10 ^ 9 := by exact_mod_cast hk'
      rw [h, abs_mul, abs_of_pos (by norm_num)]
      linarith
    · rw [h]
      exact mul_ne_zero (by norm_num) (Int.cast_ne_zero.mpr hk)
  have hk53 : k.natAbs < 2 ^ 53 := by
    have hbounds := abs_le.mp hk'
    omega
  refine Binary64.toRat_div_eq hx (by decide +kernel) (by rw [hquarter]; norm_num) hk53 ?_
  rw [h, hquarter, mul_comm]

end AngleUnit

/-- Whole quarter turns are exact: where the quotient of an angle by a quarter turn is an integer other
than zero and up to `10^9`, forwards or backwards, the sine and the cosine are the integers of the
quarter wave, and the tangent is zero, or undefined where the cosine is zero. In degrees these are all
multiples of 90 up to that size. An angle whose quotient rounds to zero or exceeds `10^9` goes to the
machine's own function. -/
theorem Trig.ofAngle_quarterTurns {s c : ℤ → ℤ} (h : IsQuarterWave s c) (A : Arithmetic) :
    (∀ (unit : AngleUnit) (x : Binary64) (k : ℤ), k ≠ 0 → |k| ≤ 10 ^ 9 →
        (x / unit.quarterTurn).toRat = k →
      sin.ofAngle A unit x = some (.ofInt (s k)) ∧ cos.ofAngle A unit x = some (.ofInt (c k)) ∧
        tan.ofAngle A unit x = if c k = 0 then none else some .zero) ∧
      (∀ (x : Binary64) (k : ℤ), k ≠ 0 → |k| ≤ 10 ^ 9 → x.toRat = 90 * k →
        (x / AngleUnit.degrees.quarterTurn).toRat = k) ∧
      ∀ (unit : AngleUnit) (x : Binary64),
        |(x / unit.quarterTurn).toRat| < 1 / 2 ∨ 10 ^ 9 < |(x / unit.quarterTurn).toRat| →
        ∀ t, ofAngle A unit t x = some (A.trig t (unit.toRadians x)) := by
  refine ⟨fun unit x k hk hk' hx => ?_, fun _ _ => AngleUnit.toRat_div_quarterTurn_degrees,
    fun unit x hx t => ?_⟩
  · have hturns := AngleUnit.quarterTurns?_of_toRat_eq hk hk' hx
    simp only [ofAngle, hturns, h.sine_eq, h.cosine_eq]
    exact ⟨sin_atQuarterTurns k, cos_atQuarterTurns k, tan_atQuarterTurns k⟩
  · rw [ofAngle, AngleUnit.quarterTurns?_eq_none hx]

/-- Three quarter turns back, in degrees, three forwards, in radians, and an angle in degrees that is
too large although it is a whole number of turns. -/
theorem Trig.ofAngle_quarterTurns_three :
    let back := Binary64.ofInt (-270)
    let forwards := .ofNat 3 * .pi / .ofNat 2
    let large := Binary64.ofInt (90 * (2 * 10 ^ 9))
    back.toRat = 90 * (-3 : ℤ) ∧ (forwards / AngleUnit.radians.quarterTurn).toRat = (3 : ℤ) ∧
      10 ^ 9 < |(large / AngleUnit.degrees.quarterTurn).toRat| ∧
      sin.ofAngle .machine .degrees back = some (.ofInt 1) ∧
      cos.ofAngle .machine .degrees back = some (.ofInt 0) ∧
      tan.ofAngle .machine .degrees back = none ∧
      sin.ofAngle .machine .radians forwards = some (.ofInt (-1)) ∧
      sin.ofAngle .machine .degrees large =
        some (Arithmetic.machine.trig .sin (AngleUnit.degrees.toRadians large)) := by
  intro back forwards large
  obtain ⟨hexact, hdegrees, hlarge⟩ :=
    Trig.ofAngle_quarterTurns isQuarterWave_quarterSine .machine
  have hback : back.toRat = 90 * (-3 : ℤ) := by
    rw [Binary64.toRat_ofInt (by decide)]
    norm_num
  have hforwards : (forwards / AngleUnit.radians.quarterTurn).toRat = (3 : ℤ) := by
    rw [show forwards / AngleUnit.radians.quarterTurn = .ofInt 3 by decide +kernel]
    exact Binary64.toRat_ofInt (by decide)
  have hquotient : 10 ^ 9 < |(large / AngleUnit.degrees.quarterTurn).toRat| := by
    rw [show large / AngleUnit.degrees.quarterTurn = .ofInt (2 * 10 ^ 9) by decide +kernel,
      Binary64.toRat_ofInt (by decide)]
    norm_num
  obtain ⟨hsin, hcos, htan⟩ := hexact .degrees back (-3) (by decide) (by decide)
    (hdegrees back (-3) (by decide) (by decide) hback)
  exact ⟨hback, hforwards, hquotient, hsin, hcos, htan,
    (hexact .radians forwards 3 (by decide) (by decide) hforwards).1,
    hlarge .degrees large (.inr hquotient) .sin⟩

end PocketCalc
