/-!
# Doubles as exact data

The calculator computes with the doubles of IEEE 754. This module gives them as data on which one
can reason: a `Magnitude` is the place of a non-negative double in the increasing list of all of
them, zero first and infinity last, and a `Binary64` is a signed magnitude or the one not-a-number.

Every finite magnitude is a whole number of units of `2^-1074`, the smallest positive double.
`unitsOfRank` counts them, and `unitsOfRank_succ` says how far apart neighbours are. The rank of a
double is also the pattern of its 63 low bits, so that `toBits` and `ofBits` only move the sign.
-/

namespace PocketCalc

/-- How many doubles a binade holds: `2^52`. -/
def binadeSize : Nat := Nat.pow 2 52

/-- The rank of infinity, one past the rank of the largest finite double. -/
def infiniteRank : Nat := 2047 * binadeSize

/-- The magnitude of a double, as its rank among the non-negative doubles. -/
structure Magnitude where
  /-- How many smaller non-negative doubles there are. -/
  rank : Nat
  /-- The list ends with infinity. -/
  rank_le : rank ≤ infiniteRank := by decide
deriving DecidableEq

/-- How many units of `2^-1074` make one. -/
def unitsInOne : Nat := Nat.pow 2 1074

/-- How many units of `2^-1074` the double of a given rank holds: the first binade counts in steps of
one unit, and the step doubles after each further binade but the first. -/
def unitsOfRank (rank : Nat) : Nat :=
  if rank < binadeSize then rank
  else (binadeSize + rank % binadeSize) * Nat.pow 2 (rank / binadeSize - 1)

/-- From one rank to the next, the units grow by one step of the binade. -/
theorem unitsOfRank_succ (rank : Nat) :
    unitsOfRank (rank + 1) = unitsOfRank rank + Nat.pow 2 (rank / binadeSize - 1) := by
  have hb : binadeSize = 4503599627370496 := rfl
  unfold unitsOfRank
  by_cases h : rank < binadeSize
  · have h0 : rank / binadeSize = 0 := Nat.div_eq_of_lt h
    by_cases h1 : rank + 1 < binadeSize
    · rw [if_pos h, if_pos h1, h0]
    · have h2 : rank + 1 = binadeSize := by omega
      rw [if_pos h, if_neg h1, h0, h2, Nat.mod_self, Nat.div_self (by omega)]
      exact Nat.mul_one _
  · have hn : ¬ rank + 1 < binadeSize := by omega
    rw [if_neg h, if_neg hn, hb]
    obtain ⟨k, hk⟩ : ∃ k, rank / 4503599627370496 = k + 1 :=
      ⟨rank / 4503599627370496 - 1, by omega⟩
    by_cases hc : (rank + 1) % 4503599627370496 = 0
    · have hd : (rank + 1) / 4503599627370496 = k + 2 := by omega
      have hm : rank % 4503599627370496 = 4503599627370495 := by omega
      rw [hd, hk, hc, hm, Nat.add_sub_cancel, show k + 2 - 1 = k + 1 by omega]
      simp only [Nat.pow_eq, Nat.pow_succ]
      omega
    · have hd : (rank + 1) / 4503599627370496 = k + 1 := by omega
      have hm : (rank + 1) % 4503599627370496 = rank % 4503599627370496 + 1 := by omega
      rw [hd, hk, hm, Nat.add_sub_cancel, ← Nat.add_assoc, Nat.add_mul (_ + _) 1, Nat.one_mul]

namespace Magnitude

/-- The magnitude zero. -/
def zero : Magnitude where rank := 0

/-- The magnitude infinity. -/
def infinity : Magnitude where rank := infiniteRank

/-- Whether the magnitude is zero. -/
def isZero (a : Magnitude) : Bool := a.rank == 0

/-- Whether the magnitude is infinity. -/
def isInfinite (a : Magnitude) : Bool := a.rank == infiniteRank

/-- The exact value of a finite magnitude, in units of `2^-1074`. -/
def units (a : Magnitude) : Nat := unitsOfRank a.rank

instance : LE Magnitude := ⟨fun a b => a.rank ≤ b.rank⟩

instance : LT Magnitude := ⟨fun a b => a.rank < b.rank⟩

instance (a b : Magnitude) : Decidable (a ≤ b) := inferInstanceAs (Decidable (a.rank ≤ b.rank))

instance (a b : Magnitude) : Decidable (a < b) := inferInstanceAs (Decidable (a.rank < b.rank))

end Magnitude

/-- A double: a signed magnitude, or the one value that is not a number. -/
inductive Binary64
  /-- The result of an operation that has none. -/
  | nan
  /-- A zero, a finite number or an infinity, each of them with a sign. -/
  | signed (negative : Bool) (magnitude : Magnitude)
deriving DecidableEq

namespace Binary64

/-- Positive zero. -/
def zero : Binary64 := signed false .zero

instance : Inhabited Binary64 := ⟨zero⟩

/-- Whether the double is a number other than an infinity. -/
def isFinite : Binary64 → Bool
  | nan => false
  | signed _ a => !a.isInfinite

/-- Whether the double is one of the two zeros. -/
def isZero : Binary64 → Bool
  | nan => false
  | signed _ a => a.isZero

/-- The double with its sign changed. -/
def neg : Binary64 → Binary64
  | nan => nan
  | signed s a => signed (!s) a

instance : Neg Binary64 := ⟨neg⟩

/-- The weight of the sign among the 64 bits of a double: `2^63`. -/
def signWeight : Nat := Nat.pow 2 63

/-- The 64 bits of a double: the sign on top, the rank below it. The value that is not a number
has the pattern of a positive quiet one. -/
def toBits : Binary64 → UInt64
  | nan => 0x7FF8000000000000
  | signed s a => .ofNat ((if s then signWeight else 0) + a.rank)

/-- The double of 64 bits. A rank past infinity stands for the value that is not a number. -/
def ofBits (bits : UInt64) : Binary64 :=
  if h : bits.toNat % signWeight ≤ infiniteRank then
    signed (signWeight ≤ bits.toNat) ⟨bits.toNat % signWeight, h⟩
  else
    nan

end Binary64

end PocketCalc
