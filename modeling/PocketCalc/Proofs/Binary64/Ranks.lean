import Mathlib.Order.Monotone.Basic
import Mathlib.Tactic.NormNum
import Mathlib.Tactic.Ring
import PocketCalc.Binary64.Rounding

/-!
# The list of doubles

`unitsOfRank` lists the non-negative doubles in order (`unitsOfRank_strictMono`). Within a binade
the list is arithmetic: the rank `b * binadeSize + m` holds `m` steps of `2^b` units
(`unitsOfRank_binade`), and every rank has that form with `m` below `2^53`, and with `m` at least
`2^52` unless the step is one unit (`exists_binade`). So a double is below `2^53` of its steps
(`exists_steps`), which is what precision means here.
-/

namespace PocketCalc

theorem binadeSize_eq : binadeSize = 2 ^ 52 := rfl

/-- A binade holds an even number of doubles, so that every binade starts with an even rank. -/
theorem binadeSize_mod_two : binadeSize % 2 = 0 := by decide

/-- Each double is above the one before it. -/
theorem unitsOfRank_lt_succ (k : ℕ) : unitsOfRank k < unitsOfRank (k + 1) := by
  rw [unitsOfRank_succ]
  exact Nat.lt_add_of_pos_right (Nat.pow_pos Nat.two_pos)

/-- The list of doubles is increasing. -/
theorem unitsOfRank_strictMono : StrictMono unitsOfRank :=
  strictMono_nat_of_lt_succ unitsOfRank_lt_succ

/-- No rank holds fewer units than its number. -/
theorem le_unitsOfRank (k : ℕ) : k ≤ unitsOfRank k := unitsOfRank_strictMono.le_apply

/-- Up to the end of the binade, the rank counts steps of `2^b` units. -/
theorem unitsOfRank_binade {b m : ℕ} (hm : b = 0 ∨ 2 ^ 52 ≤ m) (hm' : m ≤ 2 ^ 53) :
    unitsOfRank (b * binadeSize + m) = m * 2 ^ b := by
  rw [unitsOfRank, binadeSize_eq]
  split
  · next h =>
    obtain rfl : b = 0 := by omega
    rw [Nat.zero_mul, Nat.zero_add, pow_zero, Nat.mul_one]
  · next h =>
    rcases Nat.eq_or_lt_of_le hm' with rfl | hlt
    · -- The end of the binade is the start of the next one.
      rw [show (b * 2 ^ 52 + 2 ^ 53) / 2 ^ 52 = b + 2 by omega,
        show (b * 2 ^ 52 + 2 ^ 53) % 2 ^ 52 = 0 by omega, Nat.pow_eq,
        show b + 2 - 1 = b + 1 from rfl, pow_succ]
      ring
    · rw [show (b * 2 ^ 52 + m) / 2 ^ 52 = b + 1 by omega,
        show 2 ^ 52 + (b * 2 ^ 52 + m) % 2 ^ 52 = m by omega, Nat.pow_eq, Nat.add_sub_cancel]

/-- Every rank lies in a binade. -/
theorem exists_binade (k : ℕ) :
    ∃ b m, k = b * binadeSize + m ∧ (b = 0 ∨ 2 ^ 52 ≤ m) ∧ m < 2 ^ 53 := by
  refine ⟨k / 2 ^ 52 - 1, k - (k / 2 ^ 52 - 1) * 2 ^ 52, ?_, ?_, ?_⟩
  · rw [binadeSize_eq]
    omega
  · omega
  · omega

/-- A double counts fewer than `2^53` of the steps to its upper neighbour. Its lower neighbour is as
far away, or half as far where a binade starts, and there the double counts `2^52` steps. -/
theorem exists_steps {k : ℕ} (hk : 0 < k) :
    ∃ m step : ℕ, unitsOfRank k = m * step ∧ unitsOfRank (k + 1) = (m + 1) * step ∧ m < 2 ^ 53 ∧
      (unitsOfRank (k - 1) + step = unitsOfRank k ∨
        m = 2 ^ 52 ∧ 2 * unitsOfRank (k - 1) + step = 2 * unitsOfRank k) := by
  obtain ⟨b, m, rfl, hm, hm'⟩ := exists_binade k
  refine ⟨m, 2 ^ b, unitsOfRank_binade hm hm'.le, ?_, hm', ?_⟩
  · rw [Nat.add_assoc]
    exact unitsOfRank_binade (by omega) hm'
  · -- The lower neighbour is in the same binade, unless the double is the first one of its own.
    by_cases hlt : b = 0 ∨ 2 ^ 52 < m
    · left
      have hpos : 1 ≤ m := by rcases hlt with rfl | h <;> omega
      rw [Nat.add_sub_assoc hpos, unitsOfRank_binade (by omega) (by omega),
        unitsOfRank_binade hm hm'.le, ← Nat.succ_mul, Nat.succ_eq_add_one, Nat.sub_add_cancel hpos]
    · right
      obtain ⟨b, rfl⟩ : ∃ c, b = c + 1 := ⟨b - 1, by omega⟩
      obtain rfl : m = 2 ^ 52 := by omega
      have h : (b + 1) * binadeSize + 2 ^ 52 - 1 = b * binadeSize + (2 ^ 53 - 1) := by
        rw [binadeSize_eq]
        omega
      rw [h, unitsOfRank_binade (.inr (by norm_num)) (by norm_num), unitsOfRank_binade hm hm'.le]
      refine ⟨rfl, ?_⟩
      rw [pow_succ]
      omega

/-- The upper neighbour of a double is at least as far away as the lower one. -/
theorem two_mul_unitsOfRank_le {k : ℕ} (hk : 0 < k) :
    2 * unitsOfRank k ≤ unitsOfRank (k - 1) + unitsOfRank (k + 1) := by
  obtain ⟨m, step, hm, hup, -, hdown⟩ := exists_steps hk
  rw [Nat.succ_mul] at hup
  omega

/-- A double of fewer than `2^52` steps is in the middle of its neighbours. -/
theorem unitsOfRank_symm {k : ℕ} (hk : 0 < k)
    (h : (2 ^ 52 + 1) * unitsOfRank k < 2 ^ 52 * unitsOfRank (k + 1)) :
    unitsOfRank (k - 1) + unitsOfRank (k + 1) = 2 * unitsOfRank k := by
  obtain ⟨m, step, hm, hup, -, hdown⟩ := exists_steps hk
  rw [Nat.succ_mul] at hup
  rcases hdown with hdown | ⟨rfl, -⟩
  · omega
  · omega

/-- From the second binade on, a double has at least `2^52` of the steps to its upper neighbour. -/
theorem two_pow_mul_unitsOfRank_succ_le {k : ℕ} (hk : 2 ^ 52 ≤ k) :
    2 ^ 52 * unitsOfRank (k + 1) ≤ (2 ^ 52 + 1) * unitsOfRank k := by
  obtain ⟨b, m, rfl, hm, hm'⟩ := exists_binade k
  have hm52 : 2 ^ 52 ≤ m := by
    rcases hm with rfl | h
    · rwa [Nat.zero_mul, Nat.zero_add] at hk
    · exact h
  rw [Nat.add_assoc, unitsOfRank_binade (.inr (by omega)) hm', unitsOfRank_binade hm hm'.le]
  calc 2 ^ 52 * ((m + 1) * 2 ^ b) = (2 ^ 52 * m + 2 ^ 52) * 2 ^ b := by ring
    _ ≤ (2 ^ 52 * m + m) * 2 ^ b := Nat.mul_le_mul_right _ (Nat.add_le_add_left hm52 _)
    _ = (2 ^ 52 + 1) * (m * 2 ^ b) := by ring

namespace Magnitude

/-- Magnitudes of the same rank are the same. -/
theorem eq_of_rank_eq {a b : Magnitude} (h : a.rank = b.rank) : a = b := by
  obtain ⟨k, hk⟩ := a
  obtain ⟨j, hj⟩ := b
  obtain rfl : k = j := h
  rfl

@[simp] theorem isZero_iff (a : Magnitude) : a.isZero = true ↔ a.rank = 0 := beq_iff_eq

@[simp] theorem isInfinite_iff (a : Magnitude) : a.isInfinite = true ↔ a.rank = infiniteRank :=
  beq_iff_eq

theorem isZero_eq_false {a : Magnitude} (h : a.rank ≠ 0) : a.isZero = false := beq_false_of_ne h

theorem isInfinite_eq_false {a : Magnitude} (h : a.rank < infiniteRank) : a.isInfinite = false :=
  beq_false_of_ne h.ne

end Magnitude

/-- A signed magnitude is finite exactly if it comes before infinity. -/
theorem Binary64.isFinite_signed_iff (s : Bool) (a : Magnitude) :
    (signed s a).isFinite = true ↔ a.rank < infiniteRank := by
  have h := a.rank_le
  rw [isFinite, Bool.not_eq_true', ← Bool.not_eq_true, Magnitude.isInfinite_iff]
  omega

end PocketCalc
