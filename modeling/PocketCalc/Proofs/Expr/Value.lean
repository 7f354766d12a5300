import PocketCalc.Expr.Evaluation

/-!
# The value of an expression by plain recursion

`Expr.value` follows the tree: operands before the operation, from left to right, and a check after
every node. `Expr.evaluate` walks spines instead, with the values of all right operands at hand
before it asks for the first of them. `evaluate_eq_value` shows that this makes no difference,
neither to the value nor to the error that is reported. The tree may have any shape, also one that
no entry leads to.

The induction is over the tree, for a spine with any links: what the walk gives is the plain value
with the links applied to it one after the other (`foldBelow_eq`).
-/

namespace PocketCalc

namespace Expr

variable (A : Arithmetic) (unit : AngleUnit)

mutual

/-- The value of an expression, by recursion over the tree. -/
def value : Expr → Evaluation
  | number v => finite v
  | constant name =>
    match Constant.ofName? name with
    | some c => finite c.value
    | none => .error (.unknownIdentifier name)
  | call name args =>
    match Function.ofName? name with
    | some f => do
      match f.apply A unit (← values args) with
      | some v => finite v
      | none => .error .mathError
    | none => .error (.unknownIdentifier name)
  | binary op a b => do
    let x ← value a
    let y ← value b
    finite (A.binary op x y)
  | negation x => do finite (-(← value x))
  | percent x => do finite (A.binary .div (← value x) (.ofNat 100))

/-- The values of some expressions, from the first to the last, or the first error among them. -/
def values : List Expr → Except EvaluationError (List Binary64)
  | [] => .ok []
  | x :: xs => do
    let v ← value x
    let vs ← values xs
    .ok (v :: vs)

end

variable {A unit}

/-- Without links the value of a spine is that of its base. -/
theorem bind_foldlM_nil (v : Evaluation) : (v >>= ([].foldlM (Link.evaluate A) ·)) = v :=
  bind_pure v

mutual

/-- Walking a spine applies its links to the plain value, the innermost first. -/
theorem foldBelow_eq : ∀ (x : Expr) (links : List (Link Evaluation)),
    foldBelow (spineValue A unit) x links = x.value A unit >>= links.foldlM (Link.evaluate A)
  | number v, links => rfl
  | constant name, links => rfl
  | call name args, links => by
    rw [foldBelow, value, spineValue, Base.evaluate, mapM_foldAll args]
    cases Function.ofName? name <;> rfl
  | negation x, links => by
    rw [foldBelow, value, spineValue, Base.evaluate, foldBelow_eq x [], bind_foldlM_nil]
  -- The operation becomes the first link of the left operand, so that it runs right after it.
  | binary op a b, links => by
    rw [foldBelow, value, foldBelow_eq a, foldBelow_eq b [], bind_foldlM_nil]
    simp only [List.foldlM_cons, Link.evaluate, bind_assoc]
  | percent x, links => by
    rw [foldBelow, value, foldBelow_eq x]
    simp only [List.foldlM_cons, Link.evaluate, bind_assoc]

/-- The values below a call are those of its arguments, or the first error among them. -/
theorem mapM_foldAll : ∀ xs : List Expr,
    (foldAll (spineValue A unit) xs).mapM id = values A unit xs
  | [] => rfl
  | x :: xs => by
    rw [foldAll, values, List.mapM_cons, mapM_foldAll xs, id, foldBelow_eq x [], bind_foldlM_nil]
    rfl

end

/-- Walking the spines of an expression, with no links above it, gives the plain value. -/
theorem foldSpine_spineValue (x : Expr) : x.foldSpine (spineValue A unit) = x.value A unit := by
  rw [foldSpine, foldBelow_eq, bind_foldlM_nil]

/-- The result of an expression is its plain value, rounded. -/
theorem result_eq (A : Arithmetic) (unit : AngleUnit) (x : Expr) : x.result A unit =
    (do return (← x.value A unit).roundTo resultDigits) := by
  rw [result, evaluate, foldSpine_spineValue]

/-- Only finite values pass the check. -/
theorem isFinite_of_finite {v w : Binary64} (h : finite v = .ok w) : w.isFinite = true := by
  unfold finite at h
  split at h
  · cases h
    assumption
  · cases h

/-- An expression has no value but a finite one. -/
theorem isFinite_value {x : Expr} {v : Binary64} (h : x.value A unit = .ok v) :
    v.isFinite = true := by
  cases x with
  | number w => exact isFinite_of_finite h
  | constant name =>
    rw [value] at h
    split at h
    · exact isFinite_of_finite h
    · cases h
  | call name args =>
    rw [value] at h
    split at h
    · obtain ⟨vs, -, h⟩ := exists_of_bind_eq_ok h
      split at h
      · exact isFinite_of_finite h
      · cases h
    · cases h
  | binary op a b =>
    rw [value] at h
    obtain ⟨x, -, h⟩ := exists_of_bind_eq_ok h
    obtain ⟨y, -, h⟩ := exists_of_bind_eq_ok h
    exact isFinite_of_finite h
  | negation a =>
    rw [value] at h
    obtain ⟨x, -, h⟩ := exists_of_bind_eq_ok h
    exact isFinite_of_finite h
  | percent a =>
    rw [value] at h
    obtain ⟨x, -, h⟩ := exists_of_bind_eq_ok h
    exact isFinite_of_finite h

/-- Walking the spines of an expression gives its plain value, or the same error. -/
theorem evaluate_eq_value (A : Arithmetic) (unit : AngleUnit) (x : Expr) :
    x.evaluate A unit = x.value A unit := by
  rw [evaluate, foldSpine, foldBelow_eq]
  exact bind_pure _

end Expr

end PocketCalc
