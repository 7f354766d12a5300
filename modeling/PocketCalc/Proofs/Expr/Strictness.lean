import PocketCalc.Machine
import PocketCalc.Proofs.Decimal.Significant
import PocketCalc.Proofs.Expr.Parts
import PocketCalc.Proofs.Expr.Value

/-!
# No error inside an expression is absorbed

An operation on an infinite operand may well have a finite value, and a function ignores arguments that
are too many. Still an expression has a value only where each of its parts has one on its own
(`every_of_value`), because every node is checked before anything is computed from it. So nothing in an
expression with a result fails by itself, and an unknown name that is reported is found in it
(`result_strict`).
-/

namespace PocketCalc

/-- The constants of the table are `pi` and `e`. -/
theorem Constant.ofName?_eq_none_iff {name : String} :
    ofName? name = none ↔ name ≠ "pi" ∧ name ≠ "e" := by
  unfold ofName?
  split <;> simp_all

/-- What does not pass the check is a mathematical error. -/
theorem eq_mathError_of_finite {v : Binary64} {e : EvaluationError} (h : finite v = .error e) :
    e = .mathError := by
  unfold finite at h
  split at h
  · cases h
  · exact (Except.error.inj h).symm

namespace Expr

variable {A : Arithmetic} {unit : AngleUnit} {x y : Expr} {v : Binary64} {name : String}

/-- The expression has a finite value on its own, and its name is known, if it has one. -/
structure IsSound (A : Arithmetic) (unit : AngleUnit) (x : Expr) : Prop where
  /-- There is a finite value before rounding. -/
  value : ∃ v, x.evaluate A unit = .ok v ∧ v.isFinite = true
  /-- Rounding leaves it finite. -/
  result : ∃ v, x.result A unit = .ok v ∧ v.isFinite = true
  /-- A constant is one of the two that there are. -/
  constant : ∀ name, x = constant name → name = "pi" ∨ name = "e"
  /-- A function is in the table. -/
  call : ∀ name args, x = call name args → ∃ f, Function.ofName? name = some f

/-- The expression is the use of a name that is not known. -/
inductive IsUnknown (name : String) : Expr → Prop
  /-- A constant that is neither of the two. -/
  | constant : name ≠ "pi" → name ≠ "e" → IsUnknown name (constant name)
  /-- A function that is not in the table. -/
  | call (args : List Expr) : Function.ofName? name = none → IsUnknown name (call name args)

/-! ## Where there is a value -/

mutual

/-- Where an expression has a value, so has every node of it. -/
theorem every_of_value : ∀ {x : Expr} {v : Binary64}, x.value A unit = .ok v →
    x.Every fun y => ∃ w, y.value A unit = .ok w
  | number _, _, h => every_number.mpr ⟨_, h⟩
  | constant _, _, h => every_constant.mpr ⟨_, h⟩
  | call name args, _, h => by
    refine every_call.mpr ⟨⟨_, h⟩, ?_⟩
    rw [value] at h
    split at h
    · obtain ⟨vs, hvs, -⟩ := exists_of_bind_eq_ok h
      exact every_of_values hvs
    · cases h
  | binary op a b, _, h => by
    refine every_binary.mpr ⟨⟨_, h⟩, ?_⟩
    rw [value] at h
    obtain ⟨va, ha, h⟩ := exists_of_bind_eq_ok h
    obtain ⟨vb, hb, -⟩ := exists_of_bind_eq_ok h
    exact ⟨every_of_value ha, every_of_value hb⟩
  | negation y, _, h => by
    refine every_negation.mpr ⟨⟨_, h⟩, ?_⟩
    rw [value] at h
    obtain ⟨vy, hy, -⟩ := exists_of_bind_eq_ok h
    exact every_of_value hy
  | percent y, _, h => by
    refine every_percent.mpr ⟨⟨_, h⟩, ?_⟩
    rw [value] at h
    obtain ⟨vy, hy, -⟩ := exists_of_bind_eq_ok h
    exact every_of_value hy

/-- Where some expressions have values, so has every node of them. -/
theorem every_of_values : ∀ {xs : List Expr} {vs : List Binary64}, values A unit xs = .ok vs →
    ∀ x ∈ xs, x.Every fun y => ∃ w, y.value A unit = .ok w
  | [], _, _ => by simp
  | x :: xs, _, h => by
    rw [values] at h
    obtain ⟨v, hv, h⟩ := exists_of_bind_eq_ok h
    obtain ⟨vs, hvs, -⟩ := exists_of_bind_eq_ok h
    exact List.forall_mem_cons.mpr ⟨every_of_value hv, every_of_values hvs⟩

end

/-- An expression with a value is sound. -/
theorem isSound_of_value (h : x.value A unit = .ok v) : x.IsSound A unit where
  value := ⟨v, by rw [evaluate, foldSpine_spineValue, h], isFinite_value h⟩
  result := ⟨v.roundTo resultDigits, by rw [result_eq, h]; rfl,
    Binary64.isFinite_roundTo_twelve (isFinite_value h)⟩
  constant name hx := by
    rw [hx, Expr.value] at h
    split at h
    · next c hc =>
      by_contra hname
      rw [not_or, ← ne_eq, ← ne_eq, ← Constant.ofName?_eq_none_iff, hc] at hname
      cases hname
    · cases h
  call name args hx := by
    rw [hx, Expr.value] at h
    split at h
    · next f hf => exact ⟨f, hf⟩
    · cases h

/-! ## Where a name is unknown -/

/-- A part of an operand or an argument with an unknown name is a part of the expression. -/
theorem exists_isUnknown_of_child (hy : y ∈ x.children)
    (h : ∃ z, IsPart z y ∧ z.IsUnknown name) : ∃ z, IsPart z x ∧ z.IsUnknown name := by
  obtain ⟨z, hz, hname⟩ := h
  exact ⟨z, .child hz hy, hname⟩

mutual

/-- A name that is reported as unknown is used in the expression. -/
theorem exists_isUnknown_of_value : ∀ {x : Expr}, x.value A unit = .error (.unknownIdentifier name) →
    ∃ y, IsPart y x ∧ y.IsUnknown name
  | number _, h => nomatch eq_mathError_of_finite h
  | constant n, h => by
    rw [value] at h
    split at h
    · cases eq_mathError_of_finite h
    · next hn =>
      cases h
      obtain ⟨hpi, he⟩ := Constant.ofName?_eq_none_iff.mp hn
      exact ⟨_, .self, .constant hpi he⟩
  | call n args, h => by
    rw [value] at h
    split at h
    · rcases eq_error_or_exists_of_bind_eq_error h with h | ⟨vs, -, h⟩
      · obtain ⟨y, hy, hname⟩ := exists_isUnknown_of_values h
        exact exists_isUnknown_of_child hy hname
      · split at h
        · cases eq_mathError_of_finite h
        · cases h
    · next hn =>
      cases h
      exact ⟨_, .self, .call args hn⟩
  | binary op a b, h => by
    rw [value] at h
    rcases eq_error_or_exists_of_bind_eq_error h with h | ⟨va, -, h⟩
    · exact exists_isUnknown_of_child (by simp [children]) (exists_isUnknown_of_value h)
    · rcases eq_error_or_exists_of_bind_eq_error h with h | ⟨vb, -, h⟩
      · exact exists_isUnknown_of_child (by simp [children]) (exists_isUnknown_of_value h)
      · cases eq_mathError_of_finite h
  | negation y, h => by
    rw [value] at h
    rcases eq_error_or_exists_of_bind_eq_error h with h | ⟨v, -, h⟩
    · exact exists_isUnknown_of_child (by simp [children]) (exists_isUnknown_of_value h)
    · cases eq_mathError_of_finite h
  | percent y, h => by
    rw [value] at h
    rcases eq_error_or_exists_of_bind_eq_error h with h | ⟨v, -, h⟩
    · exact exists_isUnknown_of_child (by simp [children]) (exists_isUnknown_of_value h)
    · cases eq_mathError_of_finite h

/-- A name that is reported as unknown is used in one of the expressions. -/
theorem exists_isUnknown_of_values : ∀ {xs : List Expr},
    values A unit xs = .error (.unknownIdentifier name) →
    ∃ x ∈ xs, ∃ y, IsPart y x ∧ y.IsUnknown name
  | x :: xs, h => by
    rw [values] at h
    rcases eq_error_or_exists_of_bind_eq_error h with h | ⟨v, -, h⟩
    · exact ⟨x, List.mem_cons_self, exists_isUnknown_of_value h⟩
    · rcases eq_error_or_exists_of_bind_eq_error h with h | ⟨vs, -, h⟩
      · obtain ⟨y, hy, hname⟩ := exists_isUnknown_of_values h
        exact ⟨y, List.mem_cons_of_mem x hy, hname⟩
      · cases h

end

/-- If an expression has a result, every part of it has a finite value on its own, and every name in
it is known. If a name is reported as unknown, the expression has a part that uses it. -/
theorem result_strict (A : Arithmetic) (unit : AngleUnit) (x : Expr) :
    (∀ v, x.result A unit = .ok v → ∀ y, IsPart y x → y.IsSound A unit) ∧
      ∀ name, x.result A unit = .error (.unknownIdentifier name) →
        ∃ y, IsPart y x ∧ y.IsUnknown name := by
  rw [result_eq]
  refine ⟨fun v h y hy => ?_, fun name h => ?_⟩
  · obtain ⟨w, hw, -⟩ := exists_of_bind_eq_ok h
    obtain ⟨u, hu⟩ := (every_of_value hw).of_isPart hy
    exact isSound_of_value hu
  · rcases eq_error_or_exists_of_bind_eq_error h with h | ⟨w, -, h⟩
    · exact exists_isUnknown_of_value h
    · cases h

/-- The logarithm of one is zero, also with an argument too many, and that argument has a value. An
unknown function is reported before its argument, a division by zero. -/
theorem result_strict_ln :
    let A : Arithmetic := { Arithmetic.machine with ln := fun _ => .zero }
    let logarithm := call "ln" [number (.ofNat 1), percent (number (.ofNat 5))]
    let quotient := call "f" [binary .div (number (.ofNat 1)) (number .zero)]
    (logarithm.result A .degrees = .ok .zero ∧
        ∀ y, IsPart y logarithm → y.IsSound A .degrees) ∧
      quotient.result A .degrees = .error (.unknownIdentifier "f") ∧
        ∃ y, IsPart y quotient ∧ y.IsUnknown "f" := by
  intro A logarithm quotient
  have hlogarithm : logarithm.result A .degrees = .ok .zero := by decide +kernel
  have hquotient : quotient.result A .degrees = .error (.unknownIdentifier "f") := by
    decide +kernel
  exact ⟨⟨hlogarithm, (result_strict A .degrees logarithm).1 .zero hlogarithm⟩, hquotient,
    (result_strict A .degrees quotient).2 "f" hquotient⟩

end Expr

end PocketCalc
