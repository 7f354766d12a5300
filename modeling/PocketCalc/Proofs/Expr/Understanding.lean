import PocketCalc.Proofs.Expr.Acceptance

/-!
# What a reading has understood

`Understands r ts` says that the reading `r` is what the tokens `ts` amount to: every tree that it
holds is derived by the grammar from the tokens it stands for, and these, with the brackets and
signs that still wait, make up `ts` in order. One step keeps it (`Understands.step`), so that every
run from the first token keeps it (`Understands.run`), and where the tokens may end it is a
derivation of all of them (`Understands.finish`). With the runs of `Acceptance.lean`, reading is the
grammar (`ofTokens_eq_ok_iff`).

The relations carry the budget `n` that is left inside what they describe. Every bracket passes on
one less than its surroundings have, and the signs before it as many less as there are signs.
-/

namespace PocketCalc

namespace Grammar

open Reading

/-- The tokens of a sum that waits for its next term. -/
inductive SumBefore (n : Nat) : OpenSum → List Token → Prop
  /-- No term has been read. -/
  | none : SumBefore n none []
  /-- A sum with an operation behind it. -/
  | some {ts x} (op : SumOp) : IsSum n ts x → SumBefore n (some (x, op)) (ts ++ [op.token])

/-- The tokens of a term that waits for its next operand. -/
inductive TermBefore (n : Nat) : Option (Expr × TermOp) → List Token → Prop
  /-- No operand has been read. -/
  | none : TermBefore n none []
  /-- A term with an operation behind it. -/
  | some {ts percent x} (op : TermOp) : IsTerm n percent ts x →
      TermBefore n (some (x, op)) (ts ++ [op.token])

/-- The signs that wait for an operand, minus signs before root signs. -/
def signsBefore (left : OpenOperand) : List Token :=
  List.replicate left.negations .minus ++ List.replicate left.roots .root

/-- The tokens to the left of an operand, inside the innermost bracket. -/
inductive OperandBefore (n : Nat) (left : OpenOperand) : List Token → Prop
  /-- A sum, a term and signs, as far as there are any. -/
  | mk {ts us} : SumBefore n left.sum ts → TermBefore n left.term us →
      OperandBefore n left (ts ++ us ++ signsBefore left)

/-- The tokens of the arguments before the current one, given from the last to the first. -/
inductive ArgumentsBefore (n : Nat) : List Expr → List Token → Prop
  /-- The current argument is the first one. -/
  | none : ArgumentsBefore n [] []
  /-- Arguments with a comma behind them. -/
  | some {ts x args} : IsArguments n ts (x :: args).reverse →
      ArgumentsBefore n (x :: args) (ts ++ [.comma])

/-- The tokens up to the innermost open bracket; `n` is the budget inside it. -/
inductive BracketsBefore : Nat → List Bracket → List Token → Prop
  /-- No bracket is open. -/
  | none : BracketsBefore maxNesting [] []
  /-- A parenthesis around a sum. -/
  | group {n m ts us brackets left} : BracketsBefore m brackets ts → OperandBefore m left us →
      n + 1 + left.nesting = m → BracketsBefore n (.group left :: brackets) (ts ++ us ++ [.opening])
  /-- The parenthesis of a call. -/
  | call {n m ts us vs brackets left before} (name : String) : BracketsBefore m brackets ts →
      OperandBefore m left us → n + 1 + left.nesting = m → ArgumentsBefore n before vs →
      BracketsBefore n (.call left name before :: brackets)
        (ts ++ us ++ [.word name, .opening] ++ vs)

/-- The tokens are what the reading has understood. -/
inductive Understands : Reading → List Token → Prop
  /-- Everything before an operand. -/
  | beforeOperand {n ts us brackets left} : BracketsBefore n brackets ts →
      OperandBefore n left us → left.nesting ≤ n →
      Understands (.beforeOperand brackets left) (ts ++ us)
  /-- Everything before an operand, and its name. -/
  | afterName {n ts us brackets left} (name : String) : BracketsBefore n brackets ts →
      OperandBefore n left us → left.nesting ≤ n →
      Understands (.afterName brackets left name) (ts ++ us ++ [.word name])
  /-- Everything before a term, and the term. -/
  | afterTerm {n ts us vs brackets sum term percent} : BracketsBefore n brackets ts →
      SumBefore n sum us → IsTerm n percent vs term →
      Understands (.afterTerm brackets sum term percent) (ts ++ us ++ vs)

variable {n m : Nat} {ts us vs : List Token} {x : Expr} {brackets : List Bracket}
  {left : OpenOperand} {r s : Reading} {p : PlacedToken}

/-- The budget inside the brackets is what their nesting leaves. -/
theorem BracketsBefore.nesting_add (h : BracketsBefore n brackets ts) :
    nesting brackets {} + n = maxNesting := by
  induction h with
  | none => rfl
  | group _ _ hn ih =>
    simp only [nesting, Bracket.nesting]
    omega
  | call _ _ _ hn _ ih =>
    simp only [nesting, Bracket.nesting]
    omega

/-- One more bracket or sign is read only where the signs before it leave some of the budget. -/
theorem BracketsBefore.nesting_lt (h : BracketsBefore n brackets ts)
    (hd : deeper brackets left r = .ok s) : r = s ∧ left.nesting < n := by
  unfold deeper at hd
  split at hd
  · next hlt =>
    have hn := h.nesting_add
    rw [nesting_eq] at hlt
    exact ⟨Except.ok.inj hd, by omega⟩
  · cases hd

/-- A finished term completes the sum before it. -/
theorem SumBefore.close {sum : OpenSum} {percent : Bool} (h : SumBefore n sum ts)
    (hx : IsTerm n percent us x) : IsSum n (ts ++ us) (sum.close x) := by
  cases h with
  | none => exact .term hx
  | some op h =>
    rw [List.append_assoc]
    exact .join op h hx

/-- The roots that wait for a primary apply to it. -/
theorem IsRooted.replicate (h : IsRooted n ts x) (k : Nat) :
    IsRooted (n + k) (List.replicate k .root ++ ts) (Nat.repeat .squareRoot k x) := by
  induction k with
  | zero => exact h
  | succ k ih => exact .root ih

/-- The negations that wait for an operand apply to it. -/
theorem IsOperand.replicate (h : IsOperand n ts x) (k : Nat) :
    IsOperand (n + k) (List.replicate k .minus ++ ts) (Nat.repeat .negation k x) := by
  induction k with
  | zero => exact h
  | succ k ih => exact .negation ih

/-- A primary completes the operand and the term that wait for it. -/
theorem OperandBefore.close (h : OperandBefore m left ts) (hx : IsPrimary n us x)
    (hn : n + left.nesting = m) :
    ∃ vs ws, ts ++ us = vs ++ ws ∧ SumBefore m left.sum vs ∧ IsTerm m false ws (left.close x) := by
  obtain ⟨hsum, hterm⟩ := h
  have hsigned := (IsOperand.rooted ((IsRooted.primary hx).replicate left.roots)).replicate
    left.negations
  rw [Nat.add_assoc, Nat.add_comm left.roots, ← OpenOperand.nesting, hn, ← List.append_assoc,
    ← signsBefore] at hsigned
  -- The term decides whether the operand starts a term or is joined to one.
  revert hterm
  simp only [OpenOperand.close]
  cases left.term with
  | none =>
    intro hterm
    cases hterm
    exact ⟨_, _, by rw [List.append_nil, List.append_assoc], hsum, .operand hsigned⟩
  | some join =>
    intro hterm
    obtain ⟨term, op⟩ := join
    cases hterm with
    | some _ hterm => exact ⟨_, _, by simp, hsum, .join op hterm hsigned⟩

/-- A primary where an operand may start is understood as its last term. -/
theorem Understands.afterPrimary (hb : BracketsBefore m brackets ts)
    (ho : OperandBefore m left us) (hx : IsPrimary n vs x) (hn : n + left.nesting = m) :
    Understands (afterPrimary brackets left x) (ts ++ us ++ vs) := by
  obtain ⟨vs', ws, h, hsum, hterm⟩ := ho.close hx hn
  rw [List.append_assoc, h, ← List.append_assoc]
  exact .afterTerm hb hsum hterm

/-- A call where an operand may start is understood as its last term, if the step reads it. -/
theorem Understands.afterCall {name : String} {args : List Expr} (hb : BracketsBefore m brackets ts)
    (ho : OperandBefore m left us) (hx : HasArity name args → IsPrimary n vs (.call name args))
    (hn : n + left.nesting = m) (h : afterCall brackets left name args = .ok s) :
    Understands s (ts ++ us ++ vs) := by
  unfold Reading.afterCall at h
  split at h
  · next hf =>
    cases h
    exact .afterPrimary hb ho (hx fun f h => by simp [hf] at h) hn
  · next f hf =>
    split at h
    · next ha =>
      cases h
      exact .afterPrimary hb ho (hx fun g h => by rw [hf] at h; cases h; exact ha) hn
    · cases h

/-- One more minus sign waits for the operand, as long as no root does. -/
theorem OperandBefore.negation (h : OperandBefore n left ts) (hr : left.roots = 0) :
    OperandBefore n { left with negations := left.negations + 1 } (ts ++ [.minus]) := by
  obtain ⟨hsum, hterm⟩ := h
  rw [List.append_assoc]
  have h : signsBefore left ++ [.minus] =
      signsBefore { left with negations := left.negations + 1 } := by
    simp [signsBefore, hr, List.replicate_succ']
  rw [h]
  exact .mk hsum hterm

/-- One more root sign waits for the operand. -/
theorem OperandBefore.root (h : OperandBefore n left ts) :
    OperandBefore n { left with roots := left.roots + 1 } (ts ++ [.root]) := by
  obtain ⟨hsum, hterm⟩ := h
  rw [List.append_assoc]
  have h : signsBefore left ++ [.root] = signsBefore { left with roots := left.roots + 1 } := by
    simp [signsBefore, List.replicate_succ']
  rw [h]
  exact .mk hsum hterm

/-- Nothing stands to the left of an operand that starts its bracket. -/
theorem OperandBefore.eq_nil (h : OperandBefore n left ts) (he : left.isEmpty = true) :
    ts = [] := by
  obtain ⟨sum, term, negations, roots⟩ := left
  simp only [OpenOperand.isEmpty, OpenOperand.nesting, Bool.and_eq_true, Option.isNone_iff_eq_none,
    beq_iff_eq, Nat.add_eq_zero_iff] at he
  obtain ⟨⟨rfl, rfl⟩, rfl, rfl⟩ := he
  obtain ⟨⟨⟩, ⟨⟩⟩ := h
  rfl

/-- Nothing stands to the left of the first operand inside a bracket. -/
theorem OperandBefore.nil : OperandBefore n {} [] := @OperandBefore.mk n {} _ _ .none .none

/-- A sum with an operation behind it stands to the left of the next operand. -/
theorem OperandBefore.sum (op : SumOp) (h : IsSum n ts x) :
    OperandBefore n { sum := some (x, op) } (ts ++ [op.token]) := by
  have h := @OperandBefore.mk n { sum := some (x, op) } _ _ (.some op h) .none
  rwa [List.append_nil, signsBefore, List.replicate_zero, List.replicate_zero, List.append_nil,
    List.append_nil] at h

/-- A term with an operation behind it stands to the left of the next operand. -/
theorem OperandBefore.term {sum : OpenSum} {percent : Bool} (op : TermOp) (hs : SumBefore n sum ts)
    (h : IsTerm n percent us x) :
    OperandBefore n { sum, term := some (x, op) } (ts ++ us ++ [op.token]) := by
  have h := @OperandBefore.mk n { sum, term := some (x, op) } _ _ hs (.some op h)
  rwa [signsBefore, List.replicate_zero, List.replicate_zero, List.append_nil, List.append_nil,
    ← List.append_assoc] at h

/-- A finished sum is the last of the arguments before it. -/
theorem ArgumentsBefore.close {before : List Expr} (h : ArgumentsBefore n before ts)
    (hx : IsSum n us x) : IsArguments n (ts ++ us) (x :: before).reverse := by
  cases h with
  | none => exact .first hx
  | some h =>
    rw [List.append_assoc, List.reverse_cons]
    exact .next h hx

/-- A token where an operand has to start is understood. -/
theorem Understands.stepOperand (hb : BracketsBefore n brackets ts) (ho : OperandBefore n left us)
    (hn : left.nesting ≤ n) (h : stepOperand brackets left p = .ok s) :
    Understands s (ts ++ us ++ [p.token]) := by
  unfold Reading.stepOperand at h
  split at h
  · next v hp =>
    cases h
    rw [hp]
    exact .afterPrimary hb ho (.number v) (Nat.sub_add_cancel hn)
  · next name hp =>
    cases h
    rw [hp]
    exact .afterName name hb ho hn
  · next hp =>
    split at h
    · next hr =>
      obtain ⟨rfl, hlt⟩ := hb.nesting_lt h
      rw [hp, List.append_assoc]
      exact .beforeOperand hb (ho.negation hr) (by simp only [OpenOperand.nesting] at *; omega)
    · cases h
  · next hp =>
    obtain ⟨rfl, hlt⟩ := hb.nesting_lt h
    rw [hp, List.append_assoc]
    exact .beforeOperand hb ho.root (by simp only [OpenOperand.nesting] at *; omega)
  · next hp =>
    obtain ⟨rfl, hlt⟩ := hb.nesting_lt h
    rw [hp, ← List.append_nil (_ ++ [_])]
    -- The signs before the parenthesis and the parenthesis itself come off the budget inside.
    exact .beforeOperand (n := n - left.nesting - 1) (.group hb ho (by omega)) .nil (Nat.zero_le _)
  · next hp =>
    split at h
    · next outer name brackets' =>
      split at h
      · next he =>
        -- Nothing stands behind the opening parenthesis, so that this is a call without arguments.
        rw [ho.eq_nil he, List.append_nil, hp]
        cases hb with
        | call _ hb ho hn ha =>
          cases ha
          rw [List.append_nil, List.append_assoc]
          exact .afterCall hb ho .emptyCall hn h
      · cases h
    · cases h
  · cases h

/-- A token behind a term is understood. -/
theorem Understands.stepTerm {sum : OpenSum} {percent : Bool} (hb : BracketsBefore n brackets ts)
    (hs : SumBefore n sum us) (hx : IsTerm n percent vs x)
    (h : stepTerm brackets sum x percent p = .ok s) :
    Understands s (ts ++ us ++ vs ++ [p.token]) := by
  have hsum := hs.close hx
  rw [List.append_assoc ts, List.append_assoc ts]
  -- The operations, in the order of the reader's cases, and then the ends of brackets.
  unfold Reading.stepTerm at h
  split at h
  · next hp =>
    cases h
    rw [hp]
    exact .beforeOperand hb (.sum .plus hsum) (Nat.zero_le _)
  · next hp =>
    cases h
    rw [hp]
    exact .beforeOperand hb (.sum .minus hsum) (Nat.zero_le _)
  · next hp =>
    cases h
    rw [hp]
    exact .beforeOperand hb (.term .times hs hx) (Nat.zero_le _)
  · next hp =>
    cases h
    rw [hp]
    exact .beforeOperand hb (.term .divide hs hx) (Nat.zero_le _)
  · next hp =>
    split at h
    · cases h
    · next hpercent =>
      cases h
      -- The grammar takes a percent sign only behind a term that does not end with one.
      rw [Bool.not_eq_true] at hpercent
      rw [hp, List.append_assoc us, ← List.append_assoc ts]
      exact .afterTerm hb hs (.percent (hpercent ▸ hx))
  · next hp =>
    split at h
    · next outer brackets' =>
      cases h
      rw [hp]
      cases hb with
      | group hb ho hn => simpa using Understands.afterPrimary hb ho (.group hsum) hn
    · next outer name before brackets' =>
      rw [hp]
      cases hb with
      | call _ hb ho hn ha =>
        simpa using Understands.afterCall hb ho (.call (ha.close hsum)) hn h
    · cases h
  · next hp =>
    split at h
    · next outer name before brackets' =>
      cases h
      rw [hp]
      cases hb with
      | call _ hb ho hn ha =>
        have hb := BracketsBefore.call name hb ho hn (.some (ha.close hsum))
        simpa using Understands.beforeOperand hb .nil (Nat.zero_le _)
    · cases h
  · cases h

/-- One more token is understood with those before it. -/
theorem Understands.step (h : Understands r ts) (hs : r.step p = .ok s) :
    Understands s (ts ++ [p.token]) := by
  cases h with
  | beforeOperand hb ho hn => exact .stepOperand hb ho hn hs
  | afterTerm hb hsum hx => exact .stepTerm hb hsum hx hs
  | @afterName n ts us brackets left name hb ho hn =>
    simp only [Reading.step] at hs
    split at hs
    · next hp =>
      obtain ⟨rfl, hlt⟩ := hb.nesting_lt hs
      have hb := BracketsBefore.call (n := n - left.nesting - 1) name hb ho (by omega) .none
      rw [hp]
      simpa using Understands.beforeOperand hb .nil (Nat.zero_le _)
    · -- Behind any other token the name was a constant.
      obtain ⟨vs, ws, h, hsum, hterm⟩ := ho.close (.constant name) (Nat.sub_add_cancel hn)
      rw [List.append_assoc ts, h, ← List.append_assoc]
      exact .stepTerm hb hsum hterm hs

/-- Tokens are understood with those before them. -/
theorem Understands.run {placed : List PlacedToken} (h : Understands r ts)
    (hs : placed.foldlM Reading.step r = .ok s) : Understands s (ts ++ placed.map (·.token)) := by
  induction placed generalizing r ts with
  | nil =>
    cases hs
    simpa using h
  | cons p placed ih =>
    rw [List.foldlM_cons] at hs
    obtain ⟨r', hr, hs⟩ := exists_of_bind_eq_ok hs
    simpa using ih (h.step hr) hs

/-- Before the first token there is nothing to understand. -/
theorem Understands.start : Understands .start [] := .beforeOperand .none .nil (Nat.zero_le _)

/-- Where tokens may end they derive the tree that is read. -/
theorem Understands.finish (h : Understands r ts) (hr : r.finish = .ok x) :
    IsSum maxNesting ts x := by
  unfold Reading.finish at hr
  split at hr
  · next left name =>
    cases hr
    cases h with
    | afterName _ hb ho hn =>
      cases hb
      obtain ⟨vs, ws, h, hsum, hterm⟩ := ho.close (.constant name) (Nat.sub_add_cancel hn)
      rw [List.nil_append, h]
      exact hsum.close hterm
  · next sum term percent =>
    cases hr
    cases h with
    | afterTerm hb hsum hterm =>
      cases hb
      exact hsum.close hterm
  · cases hr

end Grammar

/-- Reading is the grammar: tokens are read as a tree if and only if they derive that tree from a
sum with at most `maxNesting` brackets, negations and roots open at once. -/
theorem ofTokens_eq_ok_iff (tokens : List PlacedToken) (x : Expr) :
    Expr.ofTokens tokens = .ok x ↔ Grammar.IsSum maxNesting (tokens.map (·.token)) x := by
  constructor
  · intro h
    obtain ⟨r, hr, h⟩ := exists_of_bind_eq_ok h
    exact (Grammar.Understands.start.run hr).finish h
  · intro h
    obtain ⟨sum, term, percent, rfl, r, hr, hs⟩ := h.reads [] (Nat.le_refl _)
    unfold Expr.ofTokens
    rw [Reading.start, hr tokens rfl]
    show r.finish = _
    rw [← Reading.finish_settled, hs]
    rfl

end PocketCalc
