import Mathlib.Algebra.Order.Field.Rat
import Mathlib.Algebra.Order.Ring.Abs
import Mathlib.Data.Nat.Cast.Order.Field
import Mathlib.Data.Rat.Cast.Order
import Mathlib.Tactic.FieldSimp
import Mathlib.Tactic.Linarith
import Mathlib.Tactic.Positivity
import PocketCalc.Proofs.Binary64.Ranks

/-!
# Which numbers round to a double

Every double is the nearest one to the numbers of an interval, its rounding interval, which reaches
half way to either neighbour. `RoundsTo x k` says that `x` units lie in the interval of rank `k`.
The intervals are convex (`RoundsTo.between`) and no two of them meet (`RoundsTo.unique`): where
their ends touch, the even rank has the end. `nearest_rank_eq_iff` shows that `Magnitude.nearest`
rounds to a finite double exactly from its interval, and `nearest_rank_lt` that it overflows only
from half a step beyond the largest double.
-/

namespace PocketCalc

theorem cast_unitsOfRank_lt {j k : ℕ} (h : j < k) : (unitsOfRank j : ℚ) < unitsOfRank k :=
  Nat.cast_lt.mpr (unitsOfRank_strictMono h)

theorem cast_unitsOfRank_le {j k : ℕ} (h : j ≤ k) : (unitsOfRank j : ℚ) ≤ unitsOfRank k :=
  Nat.cast_le.mpr (unitsOfRank_strictMono.monotone h)

/-- The number `x` rounds half to even to the natural number `r`. -/
def RoundsHalfEven (x : ℚ) (r : ℕ) : Prop :=
  if r % 2 = 0 then 2 * (r : ℚ) - 1 ≤ 2 * x ∧ 2 * x ≤ 2 * r + 1
  else 2 * (r : ℚ) - 1 < 2 * x ∧ 2 * x < 2 * r + 1

/-- Less than half away is enough, whatever the parity. -/
theorem RoundsHalfEven.of_lt {x : ℚ} {r : ℕ} (h : 2 * (r : ℚ) - 1 < 2 * x)
    (h' : 2 * x < 2 * r + 1) : RoundsHalfEven x r := by
  unfold RoundsHalfEven
  split
  · exact ⟨h.le, h'.le⟩
  · exact ⟨h, h'⟩

/-- A number is at least half below the next natural number after the one it rounds to. -/
theorem RoundsHalfEven.le {x : ℚ} {r : ℕ} (h : RoundsHalfEven x r) :
    2 * (r : ℚ) - 1 ≤ 2 * x ∧ 2 * x ≤ 2 * r + 1 := by
  unfold RoundsHalfEven at h
  split at h
  · exact h
  · exact ⟨h.1.le, h.2.le⟩

/-- Of all natural numbers, the one that a number rounds to is nearest. -/
theorem RoundsHalfEven.abs_sub_le_abs_sub {x : ℚ} {r : ℕ} (h : RoundsHalfEven x r) (c : ℕ) :
    |r - x| ≤ |c - x| := by
  obtain ⟨h1, h2⟩ := h.le
  have hr : |(r : ℚ) - x| ≤ 1 / 2 := abs_le.mpr ⟨by linarith, by linarith⟩
  rcases lt_trichotomy c r with hlt | rfl | hlt
  · have hle : (c : ℚ) + 1 ≤ r := by exact_mod_cast hlt
    exact hr.trans (le_abs.mpr (.inr (by linarith)))
  · exact le_rfl
  · have hle : (r : ℚ) + 1 ≤ c := by exact_mod_cast hlt
    exact hr.trans (le_abs.mpr (.inl (by linarith)))

/-- All other natural numbers are at least half away. -/
theorem RoundsHalfEven.one_le_abs_sub {x : ℚ} {r c : ℕ} (h : RoundsHalfEven x r) (hne : c ≠ r) :
    1 ≤ 2 * |c - x| := by
  have hapart : (1 : ℤ) ≤ |(c : ℤ) - r| := Int.one_le_abs (by omega)
  have hapart' : (1 : ℚ) ≤ |(c : ℚ) - r| := by exact_mod_cast hapart
  have htri := abs_sub_le (c : ℚ) x r
  rw [abs_sub_comm x] at htri
  linarith [h.abs_sub_le_abs_sub c]

/-- A natural number rounds to itself. -/
theorem RoundsHalfEven.self (r : ℕ) : RoundsHalfEven (r : ℚ) r :=
  .of_lt (by linarith) (by linarith)

/-- A larger number does not round to a smaller natural number. -/
theorem RoundsHalfEven.mono {x y : ℚ} {r s : ℕ} (hx : RoundsHalfEven x r)
    (hy : RoundsHalfEven y s) (h : x ≤ y) : r ≤ s := by
  by_contra hlt
  obtain ⟨hlow, -⟩ := hx.le
  obtain ⟨-, hhigh⟩ := hy.le
  have hle : (s : ℚ) + 1 ≤ r := by exact_mod_cast not_le.mp hlt
  -- Both numbers would be the middle between neighbours, of which one is odd.
  have hnext : r = s + 1 := by
    have hnext : (r : ℚ) = (s + 1 : ℕ) := by
      push_cast
      linarith
    exact_mod_cast hnext
  rcases Nat.mod_two_eq_zero_or_one s with hs | hs
  · rw [RoundsHalfEven, if_neg (by omega)] at hx
    linarith [hx.1]
  · rw [RoundsHalfEven, if_neg (by omega)] at hy
    linarith [hy.2]

/-- `roundHalfEven` rounds its fraction half to even. -/
theorem roundsHalfEven_roundHalfEven (num : ℕ) {den : ℕ} (hden : 0 < den) :
    RoundsHalfEven ((num : ℚ) / den) (roundHalfEven num den) := by
  have hd : (0 : ℚ) < den := by exact_mod_cast hden
  -- The fraction is the quotient and a rest below one, which decides the direction.
  obtain ⟨y, hy⟩ : ∃ y : ℚ, y = (num % den : ℕ) / den := ⟨_, rfl⟩
  have hx : (num : ℚ) / den = (num / den : ℕ) + y := by
    rw [hy, add_div' _ _ _ hd.ne', div_left_inj' hd.ne']
    exact_mod_cast (Nat.div_add_mod' num den).symm
  have h0 : 0 ≤ y := by rw [hy]; positivity
  have h1 : y < 1 := by
    rw [hy, div_lt_one hd]
    exact_mod_cast Nat.mod_lt num hden
  have hlt : 2 * (num % den) < den ↔ 2 * y < 1 := by
    rw [hy, ← mul_div_assoc, div_lt_one hd]
    exact_mod_cast Iff.rfl
  have hgt : den < 2 * (num % den) ↔ 1 < 2 * y := by
    rw [hy, ← mul_div_assoc, one_lt_div hd]
    exact_mod_cast Iff.rfl
  rw [hx, roundHalfEven]
  generalize num / den = q
  split
  · next h =>
    have := hlt.mp h
    exact .of_lt (by linarith) (by linarith)
  · next h =>
    have hge := mt hlt.mpr h
    split
    · next h =>
      have := hgt.mp h
      exact .of_lt (by push_cast; linarith) (by push_cast; linarith)
    · next h =>
      have hhalf : 2 * y = 1 := le_antisymm (not_lt.mp (mt hgt.mpr h)) (not_lt.mp hge)
      rcases Nat.mod_two_eq_zero_or_one q with hq | hq
      · rw [hq, Nat.add_zero, RoundsHalfEven, if_pos hq]
        constructor <;> linarith
      · rw [hq, RoundsHalfEven, if_pos (by omega)]
        push_cast
        constructor <;> linarith

/-- The number of `x` units is nearest to the double of rank `k`. -/
def RoundsTo (x : ℚ) (k : ℕ) : Prop :=
  if k % 2 = 0 then
    (unitsOfRank (k - 1) + unitsOfRank k : ℚ) ≤ 2 * x ∧ 2 * x ≤ unitsOfRank k + unitsOfRank (k + 1)
  else
    (unitsOfRank (k - 1) + unitsOfRank k : ℚ) < 2 * x ∧ 2 * x < unitsOfRank k + unitsOfRank (k + 1)

namespace RoundsTo

variable {x y z : ℚ} {j k : ℕ}

/-- Inside the ends a number rounds to the double, whatever its rank. -/
theorem of_lt (h : (unitsOfRank (k - 1) + unitsOfRank k : ℚ) < 2 * x)
    (h' : 2 * x < unitsOfRank k + unitsOfRank (k + 1)) : RoundsTo x k := by
  unfold RoundsTo
  split
  · exact ⟨h.le, h'.le⟩
  · exact ⟨h, h'⟩

/-- A number that rounds to a double is not outside the ends of its interval. -/
theorem le (h : RoundsTo x k) : (unitsOfRank (k - 1) + unitsOfRank k : ℚ) ≤ 2 * x ∧
    2 * x ≤ unitsOfRank k + unitsOfRank (k + 1) := by
  unfold RoundsTo at h
  split at h
  · exact h
  · exact ⟨h.1.le, h.2.le⟩

/-- What lies between two numbers that round to a double rounds to it, too. -/
theorem between (hx : RoundsTo x k) (hy : RoundsTo y k) (h : x ≤ z) (h' : z ≤ y) :
    RoundsTo z k := by
  unfold RoundsTo at *
  split at hx
  · next hk =>
    rw [if_pos hk] at hy ⊢
    exact ⟨by linarith [hx.1], by linarith [hy.2]⟩
  · next hk =>
    rw [if_neg hk] at hy ⊢
    exact ⟨by linarith [hx.1], by linarith [hy.2]⟩

/-- A double rounds to itself. -/
theorem self (k : ℕ) : RoundsTo (unitsOfRank k) k := by
  have hsucc := cast_unitsOfRank_lt k.lt_succ_self
  rcases Nat.eq_zero_or_pos k with rfl | hk
  · rw [RoundsTo, if_pos rfl]
    exact ⟨by rw [Nat.zero_sub, two_mul], by linarith⟩
  · have hpred := cast_unitsOfRank_lt (Nat.sub_lt hk Nat.one_pos)
    exact .of_lt (by linarith) (by linarith)

/-- What rounds to a double is at most half way to the farther neighbour away. -/
theorem abs_sub_le (hk : 0 < k) (h : RoundsTo x k) :
    2 * |x - unitsOfRank k| ≤ unitsOfRank (k + 1) - unitsOfRank k := by
  have hfar : (2 * unitsOfRank k : ℚ) ≤ unitsOfRank (k - 1) + unitsOfRank (k + 1) := by
    exact_mod_cast two_mul_unitsOfRank_le hk
  obtain ⟨h1, h2⟩ := h.le
  rw [← le_div_iff₀' (by norm_num), abs_le]
  constructor <;> linarith

/-- What differs from a double by at most one part in `2 * 10^16` rounds to it. -/
theorem of_close (hk : 0 < k) (h : 2 * 10 ^ 16 * |x - unitsOfRank k| ≤ unitsOfRank k) :
    RoundsTo x k := by
  obtain ⟨m, step, hm, hup, hlt, hdown⟩ := exists_steps hk
  have hstep : (0 : ℚ) < step := by
    have hpos : 0 < unitsOfRank k := hk.trans_le (le_unitsOfRank k)
    exact_mod_cast Nat.pos_of_mul_pos_left (hm ▸ hpos)
  have hm' : (unitsOfRank k : ℚ) = m * step := by exact_mod_cast hm
  have hup' : (unitsOfRank (k + 1) : ℚ) = (m + 1) * step := by exact_mod_cast hup
  rw [← le_div_iff₀' (by norm_num), abs_le] at h
  obtain ⟨h1, h2⟩ := h
  have hfew : (m * step : ℚ) < 2 ^ 53 * step :=
    mul_lt_mul_of_pos_right (by exact_mod_cast hlt) hstep
  -- One part in `2 * 10^16` is less than a quarter of a step, and the lower end may be that near.
  refine .of_lt ?_ (by linarith)
  rcases hdown with hdown | ⟨rfl, hdown⟩
  · have hdown' : (unitsOfRank (k - 1) + step : ℚ) = unitsOfRank k := by exact_mod_cast hdown
    linarith
  · have hdown' : (2 * unitsOfRank (k - 1) + step : ℚ) = 2 * unitsOfRank k := by
      exact_mod_cast hdown
    push_cast at hm'
    linarith

/-- Where both neighbours are equally far, what is not farther from the double than a number that
rounds to it rounds to it, too. -/
theorem of_abs_le (hsymm : unitsOfRank (k - 1) + unitsOfRank (k + 1) = 2 * unitsOfRank k)
    (hy : RoundsTo y k) (h : |x - unitsOfRank k| ≤ |y - unitsOfRank k|) : RoundsTo x k := by
  have hsymm' : (unitsOfRank (k - 1) + unitsOfRank (k + 1) : ℚ) = 2 * unitsOfRank k := by
    exact_mod_cast hsymm
  unfold RoundsTo at *
  split at hy
  · next hk =>
    have hstep : |y - unitsOfRank k| ≤ (unitsOfRank (k + 1) - unitsOfRank k) / 2 :=
      abs_le.mpr ⟨by linarith [hy.1], by linarith [hy.2]⟩
    obtain ⟨h1, h2⟩ := abs_le.mp (h.trans hstep)
    rw [if_pos hk]
    constructor <;> linarith
  · next hk =>
    have hstep : |y - unitsOfRank k| < (unitsOfRank (k + 1) - unitsOfRank k) / 2 :=
      abs_lt.mpr ⟨by linarith [hy.1], by linarith [hy.2]⟩
    obtain ⟨h1, h2⟩ := abs_lt.mp (h.trans_lt hstep)
    rw [if_neg hk]
    constructor <;> linarith

/-- No number rounds to a double and to a later one. -/
theorem not_lt (hj : RoundsTo x j) (hk : RoundsTo x k) : ¬ j < k := by
  intro hlt
  have h1 := cast_unitsOfRank_le (Nat.succ_le_of_lt hlt)
  have h2 := cast_unitsOfRank_le (Nat.le_sub_one_of_lt hlt)
  -- The intervals can meet only in one point, where neighbours touch, and one of these is odd.
  rcases Nat.eq_or_lt_of_le (Nat.le_sub_one_of_lt hlt) with he | hlt'
  · obtain rfl : k = j + 1 := by omega
    rcases Nat.mod_two_eq_zero_or_one j with hp | hp
    · rw [RoundsTo, if_neg (by omega)] at hk
      linarith [hk.1, hj.le.2]
    · rw [RoundsTo, if_neg (by omega)] at hj
      linarith [hk.le.1, hj.2]
  · have h3 := cast_unitsOfRank_lt hlt'
    linarith [hk.le.1, hj.le.2]

/-- A number rounds to one double only. -/
theorem unique (hj : RoundsTo x j) (hk : RoundsTo x k) : j = k :=
  le_antisymm (le_of_not_gt (hk.not_lt hj)) (le_of_not_gt (hj.not_lt hk))

/-- A larger number does not round to an earlier double. -/
theorem mono (hx : RoundsTo x j) (hy : RoundsTo y k) (h : x ≤ y) : j ≤ k := by
  by_contra hlt
  rw [not_le] at hlt
  have h1 := cast_unitsOfRank_le (Nat.succ_le_of_lt hlt)
  have h2 := cast_unitsOfRank_le (Nat.le_sub_one_of_lt hlt)
  -- The intervals can meet only where they touch, so that both numbers would be that one point.
  have hxy : x = y := le_antisymm h (by linarith [hx.le.1, hy.le.2])
  exact hy.not_lt (hxy ▸ hx) hlt

end RoundsTo

namespace RoundsTo

variable {y : ℚ} {b m : ℕ}

/-- The upper end of the interval of `m` steps is half a step further, or at the end of the binade
the number is below the double itself. -/
theorem upper_of_binade (hm : b = 0 ∨ 2 ^ 52 ≤ m) (hm' : m ≤ 2 ^ 53) (hy : y < 2 ^ 53) :
    2 * (y * 2 ^ b) <
        unitsOfRank (b * binadeSize + m) + unitsOfRank (b * binadeSize + m + 1) ∨
      (unitsOfRank (b * binadeSize + m) + unitsOfRank (b * binadeSize + m + 1) : ℚ) =
        (2 * m + 1) * 2 ^ b := by
  have hk : (unitsOfRank (b * binadeSize + m) : ℚ) = m * 2 ^ b := by
    exact_mod_cast unitsOfRank_binade hm hm'
  -- A number below `2^53` steps may round up to them, but then it lies below that double.
  rcases Nat.eq_or_lt_of_le hm' with he | hlt
  · left
    have h := cast_unitsOfRank_lt (b * binadeSize + m).lt_succ_self
    have hmy : y < m := by rwa [he, Nat.cast_pow, Nat.cast_ofNat]
    have hlt : y * 2 ^ b < m * 2 ^ b := mul_lt_mul_of_pos_right hmy (by positivity)
    linarith
  · right
    rw [hk, Nat.add_assoc, unitsOfRank_binade (by omega) hlt]
    push_cast
    ring

/-- The lower end of the interval of `m` steps is half a step before, or at the start of the binade
the number is not below the double itself. -/
theorem lower_of_binade (hm : b = 0 ∨ 2 ^ 52 ≤ m) (hm' : m ≤ 2 ^ 53) (hy : b = 0 ∨ 2 ^ 52 ≤ y) :
    (unitsOfRank (b * binadeSize + m - 1) + unitsOfRank (b * binadeSize + m) : ℚ) <
        2 * (y * 2 ^ b) ∨
      (unitsOfRank (b * binadeSize + m - 1) + unitsOfRank (b * binadeSize + m) : ℚ) =
        (2 * m - 1) * 2 ^ b ∨
      b * binadeSize + m = 0 := by
  have hk : (unitsOfRank (b * binadeSize + m) : ℚ) = m * 2 ^ b := by
    exact_mod_cast unitsOfRank_binade hm hm'
  -- The lower neighbour of the first double of a binade is nearer, and so is the end, but the
  -- number does not reach below that double.
  by_cases hlt : b = 0 ∧ 0 < m ∨ 2 ^ 52 < m
  · right; left
    rw [hk, Nat.add_sub_assoc (by omega), unitsOfRank_binade (by omega) (by omega)]
    push_cast [show 1 ≤ m by omega]
    ring
  · rcases Nat.eq_zero_or_pos (b * binadeSize + m) with h0 | hpos
    · exact .inr (.inr h0)
    · left
      have hb0 : b ≠ 0 := by rintro rfl; omega
      have he : m = 2 ^ 52 := by omega
      have h := cast_unitsOfRank_lt (Nat.sub_lt hpos Nat.one_pos)
      have hmy : (m : ℚ) ≤ y := by
        rw [he, Nat.cast_pow, Nat.cast_ofNat]
        exact hy.resolve_left hb0
      have hle : m * 2 ^ b ≤ y * 2 ^ b := mul_le_mul_of_nonneg_right hmy (by positivity)
      linarith

/-- A number of steps within a binade, rounded half to even, is a rank whose interval holds it. -/
theorem of_binade (hr : RoundsHalfEven y m) (hy : 0 ≤ y) (hlow : b = 0 ∨ 2 ^ 52 ≤ y)
    (hhigh : y < 2 ^ 53) : RoundsTo (y * 2 ^ b) (b * binadeSize + m) := by
  obtain ⟨hr1, hr2⟩ := hr.le
  have hb : (0 : ℚ) < 2 ^ b := by positivity
  have hm : b = 0 ∨ 2 ^ 52 ≤ m := by
    refine hlow.imp_right fun h => ?_
    have h' : (2 ^ 53 : ℚ) ≤ (2 * m + 1 : ℕ) := by push_cast; linarith
    have h' : 2 ^ 53 ≤ 2 * m + 1 := by exact_mod_cast h'
    omega
  have hm' : m ≤ 2 ^ 53 := by
    have h' : ((2 * m : ℕ) : ℚ) < (2 ^ 54 + 1 : ℕ) := by push_cast; linarith
    have h' : 2 * m < 2 ^ 54 + 1 := by exact_mod_cast h'
    omega
  have hup := upper_of_binade hm hm' hhigh
  have hdown := lower_of_binade hm hm' hlow
  have hparity : (b * binadeSize + m) % 2 = m % 2 := by
    rw [Nat.add_mod, Nat.mul_mod, binadeSize_mod_two, Nat.mul_zero, Nat.zero_mod, Nat.zero_add,
      Nat.mod_mod]
  -- Rank and steps have the same parity, so that both roundings own the same ends.
  rw [RoundsTo, hparity]
  unfold RoundsHalfEven at hr
  split at hr
  · next he =>
    have h1 := mul_le_mul_of_nonneg_right hr.1 hb.le
    have h2 := mul_le_mul_of_nonneg_right hr.2 hb.le
    rw [if_pos he]
    constructor
    · rcases hdown with h | h | h
      · exact h.le
      · linarith
      · rw [h, Nat.zero_sub, show unitsOfRank 0 = 0 from rfl, Nat.cast_zero, add_zero]
        exact mul_nonneg (by norm_num) (mul_nonneg hy hb.le)
    · rcases hup with h | h
      · exact h.le
      · linarith
  · next ho =>
    have h1 := mul_lt_mul_of_pos_right hr.1 hb
    have h2 := mul_lt_mul_of_pos_right hr.2 hb
    rw [if_neg ho]
    constructor
    · rcases hdown with h | h | h
      · exact h
      · linarith
      · rw [h] at hparity
        omega
    · rcases hup with h | h
      · exact h
      · linarith

end RoundsTo

namespace Magnitude

/-- The rank of the nearest double if there were no largest one. -/
def nearestRank (num den : ℕ) : ℕ :=
  binadeOf num den * binadeSize + roundHalfEven num (den * Nat.pow 2 (binadeOf num den))

/-- The nearest magnitude has the nearest rank, or that of infinity. -/
theorem rank_nearest (num den : ℕ) :
    (nearest num den).rank = min infiniteRank (nearestRank num den) := rfl

/-- The binade of a fraction is the one that holds it. -/
theorem binadeOf_spec (num : ℕ) {den : ℕ} (hden : 0 < den) :
    (binadeOf num den = 0 ∨ 2 ^ 52 * 2 ^ binadeOf num den ≤ (num : ℚ) / den) ∧
      (num : ℚ) / den < 2 ^ 53 * 2 ^ binadeOf num den := by
  have hd : (0 : ℚ) < den := by exact_mod_cast hden
  have hle : ((num / den : ℕ) : ℚ) ≤ (num : ℚ) / den := Nat.cast_div_le
  have hlt : (num : ℚ) / den < (num / den : ℕ) + 1 := by
    rw [div_lt_iff₀ hd]
    exact_mod_cast Nat.lt_mul_of_div_lt (Nat.lt_succ_self (num / den)) hden
  -- The binade depends on the whole part only: no power of two lies between it and the fraction.
  unfold binadeOf
  generalize num / den = q at *
  have hq : q + 1 ≤ 2 ^ (q.log2 + 1) := Nat.lt_log2_self
  constructor
  · rcases Nat.eq_zero_or_pos (q.log2 - 52) with h0 | hpos
    · exact .inl h0
    · right
      have h : 2 ^ 52 * 2 ^ (q.log2 - 52) ≤ q := by
        rw [← pow_add, show 52 + (q.log2 - 52) = q.log2 by omega]
        exact Nat.log2_self_le (by rintro rfl; simp at hpos)
      exact le_trans (by exact_mod_cast h) hle
  · have h : q + 1 ≤ 2 ^ 53 * 2 ^ (q.log2 - 52) := by
      rw [← pow_add]
      exact hq.trans (Nat.pow_le_pow_right Nat.two_pos (by omega))
    exact hlt.trans_le (by exact_mod_cast h)

/-- The nearest rank is the one whose interval holds the fraction. -/
theorem roundsTo_nearestRank (num : ℕ) {den : ℕ} (hden : 0 < den) :
    RoundsTo ((num : ℚ) / den) (nearestRank num den) := by
  obtain ⟨hlow, hhigh⟩ := binadeOf_spec num hden
  unfold nearestRank
  rw [Nat.pow_eq]
  generalize binadeOf num den = b at *
  have hb : (0 : ℚ) < 2 ^ b := by positivity
  -- In steps of the binade, the fraction rounds to a natural number within the binade.
  have hscaled : 0 < den * 2 ^ b := Nat.mul_pos hden (Nat.pow_pos Nat.two_pos)
  have hr := roundsHalfEven_roundHalfEven num hscaled
  obtain ⟨y, hy⟩ : ∃ y : ℚ, (num : ℚ) / den = y * 2 ^ b := ⟨num / den / 2 ^ b, by field_simp⟩
  have hy' : (num : ℚ) / (den * 2 ^ b : ℕ) = y := by
    push_cast
    rw [← div_div, hy, mul_div_cancel_right₀ _ hb.ne']
  have hy0 : 0 ≤ y * 2 ^ b := by
    rw [← hy]
    positivity
  rw [hy'] at hr
  rw [hy] at hlow hhigh ⊢
  exact .of_binade hr (nonneg_of_mul_nonneg_left hy0 hb)
    (hlow.imp_right fun h => le_of_mul_le_mul_right h hb) (lt_of_mul_lt_mul_right hhigh hb.le)

/-- A fraction of units rounds to a finite double exactly if it lies in its interval. -/
theorem nearest_rank_eq_iff (num : ℕ) {den k : ℕ} (hden : 0 < den) (hk : k < infiniteRank) :
    (nearest num den).rank = k ↔ RoundsTo ((num : ℚ) / den) k := by
  -- The interval of infinity plays no part, as ranks below it are not cut off.
  have h := roundsTo_nearestRank num hden
  rw [rank_nearest]
  constructor
  · intro he
    rwa [show k = nearestRank num den by omega]
  · intro hx
    rw [h.unique hx]
    exact Nat.min_eq_right hk.le

/-- Below the middle between the largest double and infinity nothing overflows. -/
theorem nearest_rank_lt {num den : ℕ} (hden : 0 < den)
    (h : 2 * ((num : ℚ) / den) < unitsOfRank (infiniteRank - 1) + unitsOfRank infiniteRank) :
    (nearest num den).rank < infiniteRank := by
  rw [rank_nearest, min_lt_iff]
  right
  by_contra hge
  rw [not_lt] at hge
  have h1 := cast_unitsOfRank_le hge
  have h2 := cast_unitsOfRank_le (Nat.sub_le_sub_right hge 1)
  linarith [(roundsTo_nearestRank num hden).le.1]

/-- What would be infinity or more on the list of doubles overflows. -/
theorem nearest_eq_infinity {num den : ℕ} (hden : 0 < den)
    (h : (unitsOfRank infiniteRank : ℚ) ≤ (num : ℚ) / den) : nearest num den = infinity := by
  refine eq_of_rank_eq ?_
  rw [rank_nearest]
  refine Nat.min_eq_left (le_of_not_gt fun hlt => ?_)
  have h1 := cast_unitsOfRank_le (Nat.succ_le_of_lt hlt)
  have h2 := cast_unitsOfRank_lt (nearestRank num den).lt_succ_self
  linarith [(roundsTo_nearestRank num hden).le.2]

/-- A larger fraction does not round to an earlier double. -/
theorem nearest_rank_mono {num den num' den' : ℕ} (hden : 0 < den) (hden' : 0 < den')
    (h : (num : ℚ) / den ≤ (num' : ℚ) / den') :
    (nearest num den).rank ≤ (nearest num' den').rank := by
  have hrank := (roundsTo_nearestRank num hden).mono (roundsTo_nearestRank num' hden') h
  rw [rank_nearest, rank_nearest]
  exact min_le_min_left _ hrank

/-- Equal fractions round to the same double. -/
theorem nearest_congr {num den num' den' : ℕ} (hden : 0 < den) (hden' : 0 < den')
    (h : (num : ℚ) / den = (num' : ℚ) / den') : nearest num den = nearest num' den' := by
  refine eq_of_rank_eq ?_
  have hr := roundsTo_nearestRank num hden
  rw [h] at hr
  rw [rank_nearest, rank_nearest, hr.unique (roundsTo_nearestRank num' hden')]

end Magnitude

end PocketCalc
