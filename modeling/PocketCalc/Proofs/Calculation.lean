import PocketCalc.Calculation
import PocketCalc.Machine
import PocketCalc.Proofs.Display
import PocketCalc.Proofs.Expr.Value

/-!
# How a calculation ends

`Outcome` lists the four ways in which the calculation of an entry may end, each with the display
and the trace that go with it: a result that is finite and already rounded, or an error of one of
the three stages. There is no other way, whatever the operations and functions return
(`calculate_outcome`), and the rounding of the result cannot overflow (`calculate_agrees`).

A number that is displayed may be entered again. Its text is read back to the last bit, before any
rounding (`evaluate_numberText`). So the text of a rounded number calculates to that number
(`calculate_numberText`), and the display does not change any more (`displayOf_displayOf`).
-/

namespace PocketCalc

open Binary64 (signed)

variable {A : Arithmetic} {unit : AngleUnit} {entry : String} {x : Expr} {v : Binary64}

/-- A result is a finite number that is not a negative zero and has no digits left to round. -/
theorem Expr.result_spec (h : x.result A unit = .ok v) :
    v.isFinite = true ∧ v ≠ signed true .zero ∧ v.roundTo resultDigits = v := by
  rw [result_eq] at h
  obtain ⟨w, hw, h⟩ := exists_of_bind_eq_ok h
  cases h
  -- The value before rounding has passed the check of its last node.
  have hfin := isFinite_value hw
  exact ⟨Binary64.isFinite_roundTo_twelve hfin, Binary64.roundTo_ne_neg_zero (by decide) hfin,
    Binary64.roundTo_idem (by decide) (by decide) w⟩

/-- The ways in which the calculation of an entry may end, with what the display then shows. The
result of the calculation tells them apart. -/
inductive Outcome (A : Arithmetic) (unit : AngleUnit) (entry : String) :
    Calculation → Display → Prop
  /-- There is a result, and the trace is complete. -/
  | finished {tokens x v} : tokenize (trim entry.toList) = .ok tokens →
      Expr.ofTokens tokens = .ok x → x.result A unit = .ok v →
      v.isFinite = true → v ≠ signed true .zero → v.roundTo resultDigits = v →
      Outcome A unit entry ⟨.ok v, ⟨Token.textOfAll tokens, x.text, .finished⟩⟩
        ⟨Display.numberText v, false⟩
  /-- The entry does not divide into tokens, and the trace holds none. -/
  | lexical {e} : tokenize (trim entry.toList) = .error e →
      Outcome A unit entry ⟨.error (.lexical e), ⟨"", "", .tokens⟩⟩ ⟨"Entrée invalide", true⟩
  /-- The tokens form no expression, and the trace ends with them. -/
  | grammatical {tokens e} : tokenize (trim entry.toList) = .ok tokens →
      Expr.ofTokens tokens = .error e →
      Outcome A unit entry ⟨.error (.grammatical e), ⟨Token.textOfAll tokens, "", .expression⟩⟩
        ⟨"Entrée invalide", true⟩
  /-- The expression has no value, and the trace ends with it. -/
  | evaluation {tokens x e} : tokenize (trim entry.toList) = .ok tokens →
      Expr.ofTokens tokens = .ok x → x.result A unit = .error e →
      Outcome A unit entry
        ⟨.error (.evaluation e), ⟨Token.textOfAll tokens, x.text, .evaluation⟩⟩
        ⟨if e = .mathError then "Erreur math" else "Entrée invalide", true⟩

/-- Every calculation ends in one of these ways. -/
theorem calculate_outcome (A : Arithmetic) (unit : AngleUnit) (entry : String) :
    Outcome A unit entry (calculate A unit entry) (displayOf A unit entry) := by
  unfold displayOf calculate
  cases ht : tokenize (trim entry.toList) with
  | error e => exact .lexical ht
  | ok tokens =>
    dsimp only
    cases hx : Expr.ofTokens tokens with
    | error e => exact .grammatical ht hx
    | ok x =>
      dsimp only
      cases hv : x.result A unit with
      | error e =>
        have h := Outcome.evaluation ht hx hv
        cases e <;> exact h
      | ok v =>
        obtain ⟨hfin, hzero, hround⟩ := Expr.result_spec hv
        have h := Outcome.finished ht hx hv hfin hzero hround
        rw [Calculation.display, Display.ofResult, if_pos hfin]
        exact h

/-- Every calculation ends with a finite result or with the error of a stage, and display and trace
agree with it; the rounding of a result never overflows. -/
theorem calculate_agrees (A : Arithmetic) (unit : AngleUnit) (entry : String) :
    Outcome A unit entry (calculate A unit entry) (displayOf A unit entry) ∧
      ∀ v : Binary64, (v.roundTo resultDigits).isFinite = v.isFinite := by
  refine ⟨calculate_outcome A unit entry, fun v => ?_⟩
  cases hfin : v.isFinite with
  | true => exact Binary64.isFinite_roundTo_twelve hfin
  | false => rw [Binary64.roundTo_of_not_isFinite hfin, hfin]

/-- A number is evaluated to itself, and so is a minus sign and a number to the negative number. -/
theorem Expr.evaluate_signed (A : Arithmetic) (unit : AngleUnit) {s : Bool} {a : Magnitude}
    (hfin : (signed s a).isFinite = true) :
    evaluate A unit (if s then .negation (.number (signed false a)) else .number (signed false a)) =
      .ok (signed s a) := by
  have habs : finite (signed false a) = .ok (signed false a) := if_pos hfin
  rw [evaluate, foldSpine_spineValue]
  cases s with
  | true =>
    rw [if_pos rfl, value, value, habs]
    exact if_pos hfin
  | false => exact habs

/-- A number is read as itself, and a minus sign and a number as the negation of the number. -/
theorem Expr.ofTokens_signed (s : Bool) (a : Magnitude) :
    ofTokens (if s then [⟨.minus, 0⟩, ⟨.number (signed false a), 1⟩]
      else [⟨.number (signed false a), 0⟩]) =
      .ok (if s then .negation (.number (signed false a)) else .number (signed false a)) := by
  cases s <;> rfl

/-- A zero that is not the negative one has no sign. -/
theorem eq_false_of_rank_eq_zero {s : Bool} {a : Magnitude} (h : signed s a ≠ signed true .zero)
    (h0 : a.rank = 0) : s = false := by
  rw [← Bool.not_eq_true]
  rintro rfl
  exact h (congrArg (signed true) (Magnitude.eq_of_rank_eq h0))

/-- The text of a finite number other than a negative zero divides into its magnitude, behind a minus
sign if the number is negative, and these tokens are evaluated to the number itself. -/
theorem evaluate_numberText {s : Bool} {a : Magnitude} (hfin : (signed s a).isFinite = true)
    (hzero : signed s a ≠ signed true .zero) :
    ∃ tokens x, tokenize (Display.numberText (signed s a)).toList = .ok tokens ∧
      tokens.map (·.token) = (if s then [.minus] else []) ++ [.number (signed false a)] ∧
      Expr.ofTokens tokens = .ok x ∧
      ∀ (A : Arithmetic) (unit : AngleUnit), x.evaluate A unit = .ok (signed s a) := by
  have hrank := (Binary64.isFinite_signed_iff s a).mp hfin
  refine ⟨_, _, Display.tokenize_numberText hrank (eq_false_of_rank_eq_zero hzero), ?_,
    Expr.ofTokens_signed s a, fun A unit => Expr.evaluate_signed A unit hfin⟩
  cases s <;> rfl

/-- The text of the lowest double has an exponent and is read back with all its digits. -/
theorem evaluate_numberText_lowest :
    let a : Magnitude := ⟨infiniteRank - 1, Nat.sub_le _ _⟩
    (signed true a).isFinite = true ∧ signed true a ≠ signed true .zero ∧
      Display.numberText (signed true a) = "-1.7976931348623157e308" ∧
      ∃ tokens x, tokenize (Display.numberText (signed true a)).toList = .ok tokens ∧
        tokens.map (·.token) = [.minus, .number (signed false a)] ∧
        Expr.ofTokens tokens = .ok x ∧
        ∀ (A : Arithmetic) (unit : AngleUnit), x.evaluate A unit = .ok (signed true a) := by
  intro a
  have hfin : (signed true a).isFinite = true := by decide
  have hzero : signed true a ≠ signed true .zero := by decide
  exact ⟨hfin, hzero, by decide +kernel, evaluate_numberText hfin hzero⟩

/-- The text of a rounded number calculates to that number. -/
theorem calculate_numberText (A : Arithmetic) (unit : AngleUnit) (hfin : v.isFinite = true)
    (hzero : v ≠ signed true .zero) (hround : v.roundTo resultDigits = v) :
    (calculate A unit (Display.numberText v)).result = .ok v := by
  cases v with
  | nan => cases hfin
  | signed s a =>
    have hrank := (Binary64.isFinite_signed_iff s a).mp hfin
    have hsign := eq_false_of_rank_eq_zero hzero
    -- The tokens are a number, or a minus sign and a number, and the tree follows them.
    rw [calculate, Display.trim_numberText hrank hsign, Display.tokenize_numberText hrank hsign]
    dsimp only
    rw [Expr.ofTokens_signed]
    dsimp only
    rw [Expr.result, Expr.evaluate_signed A unit hfin]
    exact congrArg Except.ok hround

/-- Without an error the display shows a rounded number. -/
theorem Outcome.exists_number {c : Calculation} {d : Display} (h : Outcome A unit entry c d)
    (hd : d.isError = false) : ∃ v : Binary64, v.isFinite = true ∧ v ≠ signed true .zero ∧
      v.roundTo resultDigits = v ∧ d = ⟨Display.numberText v, false⟩ := by
  cases h with
  | finished _ _ _ hfin hzero hround => exact ⟨_, hfin, hzero, hround, rfl⟩
  | lexical => cases hd
  | grammatical => cases hd
  | evaluation => cases hd

/-- A displayed result is a fixed point: entered again, it is displayed as it is. -/
theorem displayOf_displayOf (A A' : Arithmetic) (unit unit' : AngleUnit) (entry : String)
    (h : (displayOf A unit entry).isError = false) :
    displayOf A' unit' (displayOf A unit entry).text = displayOf A unit entry := by
  obtain ⟨v, hfin, hzero, hround, hd⟩ := (calculate_outcome A unit entry).exists_number h
  rw [hd, displayOf, Calculation.display, calculate_numberText A' unit' hfin hzero hround,
    Display.ofResult, if_pos hfin]

/-- A third of a billionth, in scientific form and rounded, is displayed as it is when it is entered
again. -/
theorem displayOf_third :
    displayOf .machine .degrees "1/3e9" = ⟨"3.33333333333e-10", false⟩ ∧
      displayOf .machine .radians "3.33333333333e-10" = ⟨"3.33333333333e-10", false⟩ := by
  have h : displayOf .machine .degrees "1/3e9" = ⟨"3.33333333333e-10", false⟩ := by
    decide +kernel
  have hfixed := displayOf_displayOf .machine .machine .degrees .radians "1/3e9" (by rw [h])
  rw [h] at hfixed
  exact ⟨h, hfixed⟩

end PocketCalc
