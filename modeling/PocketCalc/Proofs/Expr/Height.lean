import PocketCalc.Expr.Evaluation
import PocketCalc.Expr.Printer
import PocketCalc.Proofs.Expr.Spine
import PocketCalc.Proofs.Expr.Understanding

/-!
# How deep a walk over an expression nests

A walk along spines calls itself once for each expression below a spine: for the right operands of
its links, and for the arguments or the operand that its base holds (`foldSpine_eq`). The evaluator and
the printer are such walks, and `Expr.height` is how many of these calls are open at once. It does not
grow with the length of a chain, but a right operand adds to it without adding to the nesting that the
reader counts.

Between two brackets or signs a tree has at most one link of a sum and one of a term on its way
down, so that each of them is worth three calls. The grammar shows this rule by rule, for any budget
(`IsSum.height_le`), and so everything that is read stays within `3 * maxNesting + 3`
(`height_le_of_ofTokens`), which is 771. No smaller bound holds of the grammar (`exists_height_eq`).
-/

namespace PocketCalc

variable {α β : Type}

/-! ## The calls of a walk -/

/-- The values below a base. -/
def Base.below : Base α → List α
  | number _ => []
  | constant _ => []
  | call _ args => args
  | negation x => [x]

/-- The values below a link. -/
def Link.below : Link α → List α
  | binary _ right => [right]
  | percent => []

/-- The expressions below a spine. -/
def Spine.below (s : Spine) : List Expr := s.base.below ++ s.links.flatMap Link.below

/-- The function is applied to each value below a base. -/
theorem Base.below_map (f : α → β) (base : Base α) : (base.map f).below = base.below.map f := by
  cases base <;> rfl

/-- The function is applied to the value below a link. -/
theorem Link.below_map (f : α → β) (link : Link α) : (link.map f).below = link.below.map f := by
  cases link <;> rfl

namespace Expr

variable {x a b : Expr} {op : BinaryOp} {name : String} {args : List Expr} {n : Nat}

/-! ## The height of an expression -/

/-- The calls that are open at once on a spine, over those below it: one for the spine itself, and
as many as below it at most. -/
def spineHeight (base : Base Nat) (links : List (Link Nat)) : Nat :=
  (base.below ++ links.flatMap Link.below).foldr max 0 + 1

/-- How many calls of a walk over the expression are open at once. -/
def height (x : Expr) : Nat := x.foldSpine spineHeight

/-- The height of an expression is one more than the greatest height of what is below its spine. -/
theorem height_eq (x : Expr) : x.height = (x.spine.below.map height).foldr max 0 + 1 := by
  have hlinks (links : List (Link Expr)) :
      (links.map (Link.map height)).flatMap Link.below = (links.flatMap Link.below).map height := by
    simp only [List.flatMap_map, List.map_flatMap, Link.below_map]
  show x.foldSpine spineHeight = _
  rw [foldSpine_eq, spineHeight, Base.below_map, Spine.below, List.map_append]
  exact congrArg (fun l => (x.spine.base.below.map height ++ l).foldr max 0 + 1) (hlinks _)

/-- An expression is as high as one more than what is below its spine. -/
theorem height_le_succ_iff : x.height ≤ n + 1 ↔ ∀ y ∈ x.spine.below, y.height ≤ n := by
  have hmax (xs : List Expr) : (xs.map height).foldr max 0 ≤ n ↔ ∀ y ∈ xs, y.height ≤ n := by
    induction xs with
    | nil => simp
    | cons y ys ih => rw [List.map_cons, List.foldr_cons, Nat.max_le, ih, List.forall_mem_cons]
  rw [height_eq, Nat.add_le_add_iff_right, hmax]

/-- What is below the spine of an expression is lower than the expression. -/
theorem height_lt_of_mem_below {y : Expr} (h : y ∈ x.spine.below) : y.height < x.height := by
  obtain ⟨m, hm⟩ : ∃ m, x.height = m + 1 := ⟨_, x.height_eq⟩
  rw [hm]
  exact Nat.lt_succ_of_le (height_le_succ_iff.mp (Nat.le_of_eq hm) y h)

/-- A number makes one call. -/
theorem height_number_le (v : Binary64) : (number v).height ≤ n + 1 :=
  height_le_succ_iff.mpr nofun

/-- A constant makes one call. -/
theorem height_constant_le (name : String) : (constant name).height ≤ n + 1 :=
  height_le_succ_iff.mpr nofun

/-- A call is one higher than its arguments. -/
theorem height_call_le (h : ∀ y ∈ args, y.height ≤ n) : (call name args).height ≤ n + 1 := by
  have hbelow : (call name args).spine.below = args := List.append_nil args
  rw [height_le_succ_iff, hbelow]
  exact h

/-- A negation is one higher than its operand. -/
theorem height_negation_le (h : x.height ≤ n) : (negation x).height ≤ n + 1 := by
  have hbelow : (negation x).spine.below = [x] := rfl
  rw [height_le_succ_iff, hbelow, List.forall_mem_singleton]
  exact h

/-- An operation is as high as its left operand, and one higher than its right one. -/
theorem height_binary_le (ha : a.height ≤ n + 1) (hb : b.height ≤ n) :
    (binary op a b).height ≤ n + 1 := by
  have hbelow : (binary op a b).spine.below = a.spine.below ++ [b] := by
    rw [spine, spineBelow, spineBelow_eq, Spine.below, List.flatMap_append, ← List.append_assoc]
    rfl
  rw [height_le_succ_iff, hbelow, List.forall_mem_append, List.forall_mem_singleton]
  exact ⟨height_le_succ_iff.mp ha, hb⟩

/-- A percentage is as high as its operand. -/
theorem height_percent (x : Expr) : (percent x).height = x.height := by
  have hbelow : (percent x).spine.below = x.spine.below := by
    rw [spine, spineBelow, spineBelow_eq, Spine.below, List.flatMap_append]
    exact congrArg (x.spine.base.below ++ ·) (List.append_nil _)
  rw [height_eq, hbelow, ← height_eq]

end Expr

namespace Grammar

open PocketCalc.Expr

mutual

/-- A sum is higher by one than its highest term. -/
theorem IsSum.height_le : ∀ {n ts x}, IsSum n ts x → x.height ≤ 3 * n + 3
  | _, _, _, .term h => Nat.le_succ_of_le h.height_le
  | _, _, _, .join _ ha hb => height_binary_le ha.height_le hb.height_le

/-- A term is higher by one than its highest operand. -/
theorem IsTerm.height_le : ∀ {n percent ts x}, IsTerm n percent ts x → x.height ≤ 3 * n + 2
  | _, _, _, _, .operand h => Nat.le_succ_of_le h.height_le
  | _, _, _, _, .join _ ha hb => height_binary_le ha.height_le hb.height_le
  | _, _, _, _, .percent h => by
    rw [height_percent]
    exact h.height_le

/-- A negation takes from the budget of an operand. -/
theorem IsOperand.height_le : ∀ {n ts x}, IsOperand n ts x → x.height ≤ 3 * n + 1
  | _, _, _, .negation h => height_negation_le (Nat.le_trans h.height_le (by omega))
  | _, _, _, .rooted h => h.height_le

/-- A root takes from the budget of its primary. -/
theorem IsRooted.height_le : ∀ {n ts x}, IsRooted n ts x → x.height ≤ 3 * n + 1
  | _, _, _, .root h =>
    height_call_le (List.forall_mem_singleton.mpr (Nat.le_trans h.height_le (by omega)))
  | _, _, _, .primary h => h.height_le

/-- A bracket takes from the budget of what it holds, which may be three calls higher than without
one. -/
theorem IsPrimary.height_le : ∀ {n ts x}, IsPrimary n ts x → x.height ≤ 3 * n + 1
  | _, _, _, .number v => height_number_le v
  | _, _, _, .constant name => height_constant_le name
  | _, _, _, .emptyCall _ => height_call_le nofun
  | _, _, _, .call h _ => height_call_le h.height_le
  | _, _, _, .group h => Nat.le_succ_of_le h.height_le

/-- Arguments are as high as sums. -/
theorem IsArguments.height_le : ∀ {n ts args}, IsArguments n ts args →
    ∀ x ∈ args, x.height ≤ 3 * n + 3
  | _, _, _, .first h => List.forall_mem_singleton.mpr h.height_le
  | _, _, _, .next ha hx =>
    List.forall_mem_append.mpr ⟨ha.height_le, List.forall_mem_singleton.mpr hx.height_le⟩

end

/-- No smaller bound holds: a sum whose last term is a product whose last operand is a call is three
higher than the argument of the call, and only the call takes from the budget. -/
theorem exists_height_eq (n : Nat) : ∃ ts x, IsSum n ts x ∧ x.height = 3 * n + 3 := by
  -- The sum and the product add two to the height of a primary, and a call makes it a primary.
  have hsum {n ts} {x : Expr} (hx : IsPrimary n ts x) :
      ∃ ts' y, IsSum n ts' y ∧ x.height + 2 ≤ y.height := by
    have hzero {n} : IsOperand n [.number .zero] (.number .zero) :=
      .rooted (.primary (.number .zero))
    refine ⟨_, _, .join .plus (.term (.operand hzero))
      (.join .times (.operand hzero) (.rooted (.primary hx))), ?_⟩
    have hproduct : x.height < (binary .mul (.number .zero) x).height :=
      height_lt_of_mem_below (List.mem_singleton_self x)
    have hall : (binary .mul (.number .zero) x).height <
        (binary .add (.number .zero) (.binary .mul (.number .zero) x)).height :=
      height_lt_of_mem_below (List.mem_singleton_self _)
    exact Nat.le_trans (Nat.succ_le_succ hproduct) hall
  suffices ∃ ts x, IsSum n ts x ∧ 3 * n + 3 ≤ x.height by
    obtain ⟨ts, x, hx, hheight⟩ := this
    exact ⟨ts, x, hx, Nat.le_antisymm hx.height_le hheight⟩
  induction n with
  | zero => exact hsum (.number .zero)
  | succ n ih =>
    obtain ⟨ts, x, hx, hheight⟩ := ih
    have harity : HasArity "sin" [x] := fun f hf => by cases hf; rfl
    obtain ⟨ts', y, hy, hle⟩ := hsum (.call (.first hx) harity)
    have hcall : x.height < (call "sin" [x]).height :=
      height_lt_of_mem_below (List.mem_singleton_self x)
    exact ⟨ts', y, hy, by omega⟩

end Grammar

namespace Expr

/-- Evaluating an expression and writing its text nest at most 771 calls, however long the tokens
are that it has been read from: both call themselves once for each expression below its spine. -/
theorem height_le_of_ofTokens {tokens : List PlacedToken} {x : Expr}
    (h : ofTokens tokens = .ok x) :
    x.height ≤ 3 * maxNesting + 3 ∧
      (∀ y : Expr, y.height = (y.spine.below.map height).foldr max 0 + 1) ∧
      (∀ (A : Arithmetic) (unit : AngleUnit) (y : Expr), y.evaluate A unit =
        spineValue A unit (y.spine.base.map (evaluate A unit))
          (y.spine.links.map (Link.map (evaluate A unit)))) ∧
      ∀ y : Expr, y.text = spineText (y.spine.base.map text) (y.spine.links.map (Link.map text)) := by
  obtain ⟨r, hr, hfinish⟩ := exists_of_bind_eq_ok h
  have hsum := (Grammar.Understands.start.run hr).finish hfinish
  exact ⟨hsum.height_le, height_eq, fun A unit => foldSpine_eq (spineValue A unit),
    foldSpine_eq spineText⟩

/-- In `1+2*sin(-3)` the right operands, the argument and the operand of the minus sign are four calls
below the first one. -/
theorem height_le_of_ofTokens_sin :
    let tokens : List PlacedToken := [⟨.number (.ofNat 1), 0⟩, ⟨.plus, 1⟩, ⟨.number (.ofNat 2), 2⟩,
      ⟨.times, 3⟩, ⟨.word "sin", 4⟩, ⟨.opening, 7⟩, ⟨.minus, 8⟩, ⟨.number (.ofNat 3), 9⟩,
      ⟨.closing, 10⟩]
    let x : Expr := .binary .add (.number (.ofNat 1))
      (.binary .mul (.number (.ofNat 2)) (.call "sin" [.negation (.number (.ofNat 3))]))
    ofTokens tokens = .ok x ∧ x.height = 5 ∧ x.height ≤ 3 * maxNesting + 3 := by
  intro tokens x
  have h : ofTokens tokens = .ok x := rfl
  exact ⟨h, rfl, (height_le_of_ofTokens h).1⟩

end Expr

end PocketCalc
