import PocketCalc.Proofs.Calculation
import PocketCalc.Proofs.Expr.Parts

/-!
# Where the unit of angle matters

The unit is handed down through a whole calculation, but only the functions of `angleFunctionNames`
read it (`Function.apply_congr_unit`). So an expression that calls none of them has the same value, or
the same error, in both units (`Expr.value_congr_unit`), whatever else it calls: unknown names, and
functions with too few or too many arguments. Tokens and expression of an entry do not depend on the
unit at all. `angleUnit_reach` states both for two calculations side by side.
-/

namespace PocketCalc

/-- The names of the functions of an angle, and of those with an angle as their value. -/
def angleFunctionNames : List String := ["sin", "cos", "tan", "asin", "acos", "atan"]

/-- The node is no call of one of these functions. -/
def Expr.CallsNoAngleFunction : Expr → Prop
  | call name _ => name ∉ angleFunctionNames
  | _ => True

variable {A : Arithmetic} {unit unit' : AngleUnit}

namespace Function

/-- Whether the function is one of an angle, or has an angle as its value. -/
def readsUnit : Function → Bool
  | trig _ => true
  | arc _ => true
  | _ => false

/-- The functions that read the unit are those with these names. -/
theorem readsUnit_iff_of_ofName? {name : String} {f : Function} (h : ofName? name = some f) :
    f.readsUnit = true ↔ name ∈ angleFunctionNames := by
  unfold ofName? at h
  split at h
  case h_11 => cases h
  all_goals
    cases h
    decide

/-- A function that does not read the unit has the same value in both units. -/
theorem apply_congr_unit {f : Function} (h : f.readsUnit = false) (args : List Binary64) :
    f.apply A unit args = f.apply A unit' args := by
  cases f with
  | trig t => cases h
  | arc t => cases h
  | _ => rfl

end Function

namespace Expr

/-- Expressions that each have one value in both units have one list of values. -/
theorem values_congr_unit {xs : List Expr} (h : ∀ x ∈ xs, x.value A unit = x.value A unit') :
    values A unit xs = values A unit' xs := by
  induction xs with
  | nil => rfl
  | cons x xs ih =>
    rw [List.forall_mem_cons] at h
    rw [values, values, h.1, ih h.2]

/-- An expression that calls no function of an angle has the same value or error in both units. -/
theorem value_congr_unit {x : Expr} (h : x.Every CallsNoAngleFunction) :
    x.value A unit = x.value A unit' := by
  induction h with
  | @node x hx _ ih =>
    cases x with
    | number v => rfl
    | constant name => rfl
    | call name args =>
      rw [value, value]
      split
      · next f hf =>
        have hargs : values A unit args = values A unit' args := values_congr_unit ih
        have hf' : f.readsUnit = false := by
          rw [← Bool.not_eq_true, Function.readsUnit_iff_of_ofName? hf]
          exact hx
        have happly (vs : List Binary64) : f.apply A unit vs = f.apply A unit' vs :=
          Function.apply_congr_unit hf' vs
        simp only [hargs, happly]
      · rfl
    | binary op a b => rw [value, value, ih a (by simp [children]), ih b (by simp [children])]
    | negation y => rw [value, value, ih y (by simp [children])]
    | percent y => rw [value, value, ih y (by simp [children])]

end Expr

/-- Two calculations that differ in the unit at most: the trace shows the same tokens and the same
expression, and if one of them ends before the evaluation, so does the other, with the same error. -/
structure Calculation.AgreesBeforeEvaluation (c c' : Calculation) : Prop where
  /-- The tokens are the same. -/
  tokens : c.trace.tokens = c'.trace.tokens
  /-- The expression is the same. -/
  expression : c.trace.expression = c'.trace.expression
  /-- Lexical errors are the same. -/
  lexical : ∀ e, c.result = .error (.lexical e) ↔ c'.result = .error (.lexical e)
  /-- Syntax errors are the same. -/
  grammatical : ∀ e, c.result = .error (.grammatical e) ↔ c'.result = .error (.grammatical e)

/-- Before the evaluation, a calculation does not depend on the unit. -/
theorem calculate_agreesBeforeEvaluation (A : Arithmetic) (unit unit' : AngleUnit)
    (entry : String) :
    (calculate A unit entry).AgreesBeforeEvaluation (calculate A unit' entry) := by
  unfold calculate
  cases tokenize (trim entry.toList) with
  | error e => exact ⟨rfl, rfl, fun _ => Iff.rfl, fun _ => Iff.rfl⟩
  | ok tokens =>
    dsimp only
    cases Expr.ofTokens tokens with
    | error e => exact ⟨rfl, rfl, fun _ => Iff.rfl, fun _ => Iff.rfl⟩
    | ok x =>
      dsimp only
      cases x.result A unit <;> cases x.result A unit' <;> constructor <;> simp

/-- The unit of angle reaches only the functions of an angle and their inverses: without a call of one
of them, an expression has the same result or the same error in both units. The tokens and the
expression of an entry, and the errors in them, are the same in both units for every entry. -/
theorem angleUnit_reach (A : Arithmetic) (unit unit' : AngleUnit) :
    (∀ x : Expr, x.Every Expr.CallsNoAngleFunction → x.result A unit = x.result A unit') ∧
      ∀ entry, (calculate A unit entry).AgreesBeforeEvaluation (calculate A unit' entry) := by
  refine ⟨fun x hx => ?_, calculate_agreesBeforeEvaluation A unit unit'⟩
  rw [Expr.result_eq, Expr.result_eq, Expr.value_congr_unit hx]

/-- A power without an exponent and a call of an unknown function have one result or error in both
units, and so has a call of the sine in an entry that ends too early. -/
theorem angleUnit_reach_pow :
    let x := Expr.binary .add (.call "pow" [.number (.ofNat 2)]) (.call "f" [.constant "tau"])
    x.Every Expr.CallsNoAngleFunction ∧
      x.result .machine .degrees = x.result .machine .radians ∧
      (calculate .machine .degrees "sin(30)+").result = .error (.grammatical .unexpectedEnd) ∧
      (calculate .machine .radians "sin(30)+").result = .error (.grammatical .unexpectedEnd) := by
  intro x
  have hx : x.Every Expr.CallsNoAngleFunction := by
    simp [x, Expr.CallsNoAngleFunction, angleFunctionNames]
  have hentry : (calculate .machine .degrees "sin(30)+").result =
      .error (.grammatical .unexpectedEnd) := by decide +kernel
  obtain ⟨hresult, hcalculate⟩ := angleUnit_reach .machine .degrees .radians
  exact ⟨hx, hresult x hx, hentry, ((hcalculate "sin(30)+").grammatical _).mp hentry⟩

end PocketCalc
