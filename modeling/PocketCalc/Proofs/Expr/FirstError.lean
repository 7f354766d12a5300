import PocketCalc.Proofs.Expr.Understanding

/-!
# The first error among tokens

Reading stops at the first token that no expression can have there, or at the end of tokens that are
only the start of one. `Viable` tokens can still become an expression, but for a call with the wrong
number of arguments. Whatever has been understood is viable (`Reading.completes`): a number ends what
waits for an operand, and closing parentheses end the brackets.

`Blames` says why a token is refused behind the tokens before it. Where an error depends on what is
open there, it is stated by left contexts: `BeforeSum` to `BeforePrimary` mirror the rules of the
grammar and describe the tokens behind which each of them may start, and `Opens` the tokens that take
one more from the budget. `ofTokens_eq_error` puts this together.
-/

namespace PocketCalc

namespace Grammar

open Reading

mutual

/-- Tokens behind which a sum may start, with `n` brackets, negations and roots that may still be
opened. -/
inductive BeforeSum : Nat → List Token → Prop
  /-- No tokens. -/
  | start : BeforeSum maxNesting []
  /-- The opening parenthesis of a sum or of a call. -/
  | opening {n ts} : Opens (n + 1) ts .opening → BeforeSum n (ts ++ [.opening])
  /-- A call with some of its arguments and a comma. -/
  | comma {n ts us args} (name : String) : BeforePrimary (n + 1) ts → IsArguments n us args →
      BeforeSum n (ts ++ [.word name, .opening] ++ us ++ [.comma])

/-- Tokens behind which a term may start. -/
inductive BeforeTerm : Nat → List Token → Prop
  /-- The first term of a sum. -/
  | first {n ts} : BeforeSum n ts → BeforeTerm n ts
  /-- A term that is joined to a sum. -/
  | join {n ts us x} (op : SumOp) : BeforeSum n ts → IsSum n us x →
      BeforeTerm n (ts ++ us ++ [op.token])

/-- Tokens behind which an operand may start. -/
inductive BeforeOperand : Nat → List Token → Prop
  /-- The first operand of a term. -/
  | first {n ts} : BeforeTerm n ts → BeforeOperand n ts
  /-- An operand that is joined to a term. -/
  | join {n ts us percent x} (op : TermOp) : BeforeTerm n ts → IsTerm n percent us x →
      BeforeOperand n (ts ++ us ++ [op.token])
  /-- An operand behind a minus sign. -/
  | negation {n ts} : BeforeOperand (n + 1) ts → BeforeOperand n (ts ++ [.minus])

/-- Tokens behind which a primary may start. -/
inductive BeforePrimary : Nat → List Token → Prop
  /-- A primary without root signs. -/
  | operand {n ts} : BeforeOperand n ts → BeforePrimary n ts
  /-- One more root sign. -/
  | root {n ts} : BeforePrimary (n + 1) ts → BeforePrimary n (ts ++ [.root])

/-- Behind tokens that leave a budget of `n`, the token opens one more bracket, negation or root. -/
inductive Opens : Nat → List Token → Token → Prop
  /-- The minus sign of an operand. -/
  | negation {n ts} : BeforeOperand n ts → Opens n ts .minus
  /-- The root sign of a primary. -/
  | root {n ts} : BeforePrimary n ts → Opens n ts .root
  /-- The parenthesis around a sum. -/
  | group {n ts} : BeforePrimary n ts → Opens n ts .opening
  /-- The parenthesis behind the name of a function. -/
  | call {n ts} (name : String) : BeforePrimary n ts → Opens n (ts ++ [.word name]) .opening

end

/-- The tokens are a call of the function but for its closing parenthesis. -/
inductive IsOpenCall (n : Nat) (name : String) : List Token → List Expr → Prop
  /-- A call without arguments. -/
  | empty : IsOpenCall n name [.word name, .opening] []
  /-- A call with arguments. -/
  | arguments {ts args} : IsArguments n ts args →
      IsOpenCall n name ([.word name, .opening] ++ ts) args

/-- Behind the tokens, the placed token is refused with this error. -/
inductive Blames : List Token → PlacedToken → SyntaxError → Prop
  /-- The error names the token and its place. -/
  | unexpectedToken {ts p} : Blames ts p (.unexpectedToken p.token.text p.position)
  /-- The token closes a call of a known function, with a number of arguments that it does not
  take. -/
  | arityMismatch {n ts us name args f p} : BeforePrimary (n + 1) ts → IsOpenCall n name us args →
      p.token = .closing → Function.ofName? name = some f → args.length ≠ f.arity →
      Blames (ts ++ us) p (.arityMismatch name f.arity args.length)
  /-- The token opens one more bracket, negation or root where `maxNesting` are open. -/
  | nestingTooDeep {ts p} : Opens 0 ts p.token → Blames ts p (.nestingTooDeep maxNesting)

variable {n m : Nat} {ts us vs : List Token} {x : Expr} {brackets : List Bracket}
  {left : OpenOperand} {r s : Reading} {p : PlacedToken} {e : SyntaxError}

/-- Minus signs take from the budget of an operand. -/
theorem BeforeOperand.replicate {k : Nat} (h : BeforeOperand (n + k) ts) :
    BeforeOperand n (ts ++ List.replicate k .minus) := by
  induction k generalizing n with
  | zero => simpa using h
  | succ k ih =>
    rw [List.replicate_succ', ← List.append_assoc]
    exact .negation (ih (by rwa [Nat.add_assoc, Nat.add_comm 1]))

/-- Root signs take from the budget of a primary. -/
theorem BeforePrimary.replicate {k : Nat} (h : BeforePrimary (n + k) ts) :
    BeforePrimary n (ts ++ List.replicate k .root) := by
  induction k generalizing n with
  | zero => simpa using h
  | succ k ih =>
    rw [List.replicate_succ', ← List.append_assoc]
    exact .root (ih (by rwa [Nat.add_assoc, Nat.add_comm 1]))

/-- Behind the sum that waits for it a term may start. -/
theorem SumBefore.beforeTerm {sum : OpenSum} (h : SumBefore n sum us) (hb : BeforeSum n ts) :
    BeforeTerm n (ts ++ us) := by
  cases h with
  | none => simpa using BeforeTerm.first hb
  | some op h =>
    rw [← List.append_assoc]
    exact .join op hb h

/-- Behind the term that waits for it an operand may start. -/
theorem TermBefore.beforeOperand {term : Option (Expr × TermOp)} (h : TermBefore n term us)
    (hb : BeforeTerm n ts) : BeforeOperand n (ts ++ us) := by
  cases h with
  | none => simpa using BeforeOperand.first hb
  | some op h =>
    rw [← List.append_assoc]
    exact .join op hb h

/-- Behind what waits for an operand, without root signs, an operand may start. -/
theorem OperandBefore.beforeOperand (h : OperandBefore m left us) (hb : BeforeSum m ts)
    (hr : left.roots = 0) (hn : n + left.nesting = m) : BeforeOperand n (ts ++ us) := by
  obtain ⟨hsum, hterm⟩ := h
  rw [OpenOperand.nesting, hr, Nat.add_zero] at hn
  subst hn
  rw [signsBefore, hr, List.replicate_zero, List.append_nil, ← List.append_assoc,
    ← List.append_assoc]
  exact (hterm.beforeOperand (hsum.beforeTerm hb)).replicate

/-- Behind what waits for an operand a primary may start. -/
theorem OperandBefore.beforePrimary (h : OperandBefore m left us) (hb : BeforeSum m ts)
    (hn : n + left.nesting = m) : BeforePrimary n (ts ++ us) := by
  obtain ⟨hsum, hterm⟩ := h
  rw [OpenOperand.nesting, Nat.add_comm left.negations, ← Nat.add_assoc] at hn
  subst hn
  rw [signsBefore, ← List.append_assoc, ← List.append_assoc, ← List.append_assoc]
  exact (BeforePrimary.operand (hterm.beforeOperand (hsum.beforeTerm hb)).replicate).replicate

/-- Inside the open brackets a sum may start. -/
theorem BracketsBefore.beforeSum (h : BracketsBefore n brackets ts) : BeforeSum n ts := by
  induction h with
  | none => exact .start
  | group _ ho hn ih => exact .opening (.group (ho.beforePrimary ih hn))
  | call name _ ho hn ha ih =>
    have hb := ho.beforePrimary ih hn
    cases ha with
    | none => simpa using BeforeSum.opening (.call name hb)
    | some h => simpa using BeforeSum.comma name hb h

/-- One more bracket or sign is refused only where the signs before it use up the budget. -/
theorem BracketsBefore.eq_nesting (hb : BracketsBefore n brackets ts)
    (hn : left.nesting ≤ n) (h : deeper brackets left r = .error e) :
    n = left.nesting ∧ e = .nestingTooDeep maxNesting := by
  unfold deeper at h
  split at h
  · cases h
  · next hlt =>
    have hadd := hb.nesting_add
    rw [nesting_eq] at hlt
    exact ⟨by omega, (Except.error.inj h).symm⟩

/-- A call is refused only if its function does not take that many arguments. -/
theorem afterCall_eq_error {name : String} {args : List Expr}
    (h : afterCall brackets left name args = .error e) :
    ∃ f, Function.ofName? name = some f ∧ args.length ≠ f.arity ∧
      e = .arityMismatch name f.arity args.length := by
  unfold afterCall at h
  split at h
  · cases h
  · next f hf =>
    split at h
    · cases h
    · next ha => exact ⟨f, hf, ha, (Except.error.inj h).symm⟩

/-- A token that cannot follow is blamed as it is. -/
theorem Blames.of_unexpected (h : unexpected p = .error e) : Blames ts p e := by
  cases h
  exact .unexpectedToken

/-- No token is blamed for the end of the tokens. -/
theorem Blames.ne_unexpectedEnd (h : Blames ts p e) : e ≠ .unexpectedEnd := by
  cases h <;> nofun

/-- The parenthesis that closes a call is blamed if the call is refused. -/
theorem Blames.of_afterCall {name : String} {args : List Expr} (hb : BeforePrimary (n + 1) ts)
    (hc : IsOpenCall n name us args) (hp : p.token = .closing)
    (h : afterCall brackets left name args = .error e) : Blames (ts ++ us) p e := by
  obtain ⟨f, hf, ha, rfl⟩ := afterCall_eq_error h
  exact .arityMismatch hb hc hp hf ha

/-- A token that is refused where an operand has to start is blamed. -/
theorem Blames.of_stepOperand (hb : BracketsBefore n brackets ts) (ho : OperandBefore n left us)
    (hn : left.nesting ≤ n) (h : stepOperand brackets left p = .error e) :
    Blames (ts ++ us) p e := by
  unfold Reading.stepOperand at h
  split at h
  · cases h
  · cases h
  · next hp =>
    split at h
    · next hr =>
      obtain ⟨rfl, rfl⟩ := hb.eq_nesting hn h
      exact .nestingTooDeep (hp ▸ .negation (ho.beforeOperand hb.beforeSum hr (Nat.zero_add _)))
    · exact .of_unexpected h
  · next hp =>
    obtain ⟨rfl, rfl⟩ := hb.eq_nesting hn h
    exact .nestingTooDeep (hp ▸ .root (ho.beforePrimary hb.beforeSum (Nat.zero_add _)))
  · next hp =>
    obtain ⟨rfl, rfl⟩ := hb.eq_nesting hn h
    exact .nestingTooDeep (hp ▸ .group (ho.beforePrimary hb.beforeSum (Nat.zero_add _)))
  · next hp =>
    split at h
    · split at h
      · next he =>
        -- Nothing stands behind the opening parenthesis, so that this is a call without arguments.
        rw [ho.eq_nil he, List.append_nil]
        cases hb with
        | call _ hb ho hn ha =>
          cases ha
          rw [List.append_nil]
          exact .of_afterCall (ho.beforePrimary hb.beforeSum hn) .empty hp h
      · exact .of_unexpected h
    · exact .of_unexpected h
  · exact .of_unexpected h

/-- A token that is refused behind a term is blamed. -/
theorem Blames.of_stepTerm {sum : OpenSum} {percent : Bool} (hb : BracketsBefore n brackets ts)
    (hs : SumBefore n sum us) (hx : IsTerm n percent vs x)
    (h : stepTerm brackets sum x percent p = .error e) : Blames (ts ++ us ++ vs) p e := by
  unfold Reading.stepTerm at h
  split at h
  · cases h
  · cases h
  · cases h
  · cases h
  · split at h
    · exact .of_unexpected h
    · cases h
  · next hp =>
    split at h
    · cases h
    · cases hb with
      | call name hb ho hn ha =>
        have hargs := ha.close (hs.close hx)
        simpa using Blames.of_afterCall (ho.beforePrimary hb.beforeSum hn) (.arguments hargs) hp h
    · exact .of_unexpected h
  · split at h
    · cases h
    · exact .of_unexpected h
  · exact .of_unexpected h

/-- A token that is refused behind what has been understood is blamed. -/
theorem Understands.blames (h : Understands r ts) (he : r.step p = .error e) : Blames ts p e := by
  cases h with
  | beforeOperand hb ho hn => exact .of_stepOperand hb ho hn he
  | afterTerm hb hs hx => exact .of_stepTerm hb hs hx he
  | afterName name hb ho hn =>
    simp only [Reading.step] at he
    split at he
    · next hp =>
      obtain ⟨rfl, rfl⟩ := hb.eq_nesting hn he
      exact .nestingTooDeep (hp ▸ .call name (ho.beforePrimary hb.beforeSum (Nat.zero_add _)))
    · -- Behind any other token the name was a constant.
      obtain ⟨vs, ws, hsplit, hsum, hterm⟩ := ho.close (.constant name) (Nat.sub_add_cancel hn)
      rw [List.append_assoc, hsplit, ← List.append_assoc]
      exact .of_stepTerm hb hsum hterm he

end Grammar

/-- Reading ended with an expression, or at a call of a known function with the wrong number of
arguments. -/
inductive ReadUpToArity : Except SyntaxError Expr → Prop
  /-- An expression. -/
  | ok (x : Expr) : ReadUpToArity (.ok x)
  /-- A wrong number of arguments. -/
  | arityMismatch (name : String) (expected received : Nat) :
      ReadUpToArity (.error (.arityMismatch name expected received))

/-- The tokens can go on so that they form an expression, but for the numbers of arguments. -/
def Viable (tokens : List PlacedToken) : Prop :=
  ∃ rest, ReadUpToArity (Expr.ofTokens (tokens ++ rest))

namespace Reading

variable {r s : Reading} {p : PlacedToken} {e : SyntaxError}

/-- The reading can go on to an expression, but for the numbers of arguments. -/
def Completes (r : Reading) : Prop :=
  ∃ rest : List PlacedToken, ReadUpToArity (rest.foldlM step r >>= finish)

/-- A reading can go on if one of its steps can. -/
theorem Completes.of_step (hs : s.Completes) (h : r.step p = .ok s) : r.Completes := by
  obtain ⟨rest, hrest⟩ := hs
  refine ⟨p :: rest, ?_⟩
  rw [List.foldlM_cons, h]
  exact hrest

/-- A reading can go on with the parenthesis that closes a call, if the call can. -/
theorem Completes.of_afterCall {brackets : List Bracket} {left : OpenOperand} {name : String}
    {args : List Expr} (hs : (afterPrimary brackets left (.call name args)).Completes)
    (h : r.step p = afterCall brackets left name args) : r.Completes := by
  unfold afterCall at h
  split at h
  · exact hs.of_step h
  · split at h
    · exact hs.of_step h
    · refine ⟨[p], ?_⟩
      rw [List.foldlM_cons, h]
      exact .arityMismatch name _ _

/-- Closing parentheses end all brackets behind a term. -/
theorem completes_afterTerm (brackets : List Bracket) (sum : OpenSum) (term : Expr)
    (percent : Bool) : (afterTerm brackets sum term percent).Completes := by
  induction brackets generalizing sum term percent with
  | nil => exact ⟨[], .ok (sum.close term)⟩
  | cons bracket brackets ih =>
    cases bracket with
    | group outer => exact (ih _ _ _).of_step (p := ⟨.closing, 0⟩) rfl
    | call outer name before => exact (ih _ _ _).of_afterCall (p := ⟨.closing, 0⟩) rfl

/-- Every reading can go on to an expression. -/
theorem completes (r : Reading) : r.Completes := by
  cases r with
  | afterTerm brackets sum term percent => exact completes_afterTerm brackets sum term percent
  | beforeOperand brackets left =>
    exact (completes_afterTerm _ _ _ _).of_step (p := ⟨.number .zero, 0⟩) rfl
  | afterName brackets left name =>
    -- A percent sign makes the name a constant.
    exact (completes_afterTerm _ _ _ _).of_step (p := ⟨.percent, 0⟩) rfl

/-- A run is refused at one of its tokens, whatever stands behind that token. -/
theorem exists_of_foldlM_eq_error {tokens : List PlacedToken}
    (h : tokens.foldlM step r = .error e) : ∃ before p after s, tokens = before ++ p :: after ∧
      before.foldlM step r = .ok s ∧ s.step p = .error e := by
  induction tokens generalizing r with
  | nil => cases h
  | cons p tokens ih =>
    rw [List.foldlM_cons] at h
    cases hp : r.step p with
    | error e' =>
      rw [hp] at h
      cases h
      exact ⟨[], p, tokens, r, rfl, rfl, hp⟩
    | ok r' =>
      rw [hp] at h
      obtain ⟨before, q, after, s, rfl, hs, hq⟩ := ih h
      refine ⟨p :: before, q, after, s, rfl, ?_, hq⟩
      rw [List.foldlM_cons, hp]
      exact hs

/-- The tokens of a reading are viable. -/
theorem viable_of_foldlM_eq_ok {tokens : List PlacedToken}
    (h : tokens.foldlM step .start = .ok r) : Viable tokens := by
  obtain ⟨rest, hrest⟩ := r.completes
  refine ⟨rest, ?_⟩
  rw [Expr.ofTokens, List.foldlM_append, h]
  exact hrest

/-- Where the tokens may not end, that is the error. -/
theorem finish_eq_error (h : r.finish = .error e) : e = .unexpectedEnd := by
  unfold finish at h
  split at h
  · cases h
  · cases h
  · exact (Except.error.inj h).symm

end Reading

/-- Reading reports the first error that there is. If tokens end too early, they can still go on. For
any other error there is a token such that the tokens before it can still go on, and that is refused
with this error whatever stands behind it: as a token that cannot follow, as the parenthesis that
closes a call with the wrong number of arguments, or as the one that opens a level too many. -/
theorem ofTokens_eq_error (tokens : List PlacedToken) (e : SyntaxError)
    (h : Expr.ofTokens tokens = .error e) :
    (e = .unexpectedEnd → Viable tokens) ∧
      (e ≠ .unexpectedEnd → ∃ before p after, tokens = before ++ p :: after ∧
        (∀ rest, Expr.ofTokens (before ++ p :: rest) = .error e) ∧ Viable before ∧
        Grammar.Blames (before.map (·.token)) p e) := by
  unfold Expr.ofTokens at h
  cases hr : tokens.foldlM Reading.step .start with
  | ok r =>
    rw [hr] at h
    obtain rfl := Reading.finish_eq_error h
    exact ⟨fun _ => Reading.viable_of_foldlM_eq_ok hr, absurd rfl⟩
  | error e' =>
    rw [hr] at h
    cases h
    obtain ⟨before, p, after, s, rfl, hs, hp⟩ := Reading.exists_of_foldlM_eq_error hr
    have hblames := (Grammar.Understands.start.run hs).blames hp
    refine ⟨fun he => absurd he hblames.ne_unexpectedEnd, fun _ => ⟨before, p, after, rfl,
      fun rest => ?_, Reading.viable_of_foldlM_eq_ok hs, hblames⟩⟩
    rw [Expr.ofTokens, List.foldlM_append, hs]
    show (p :: rest).foldlM Reading.step s >>= Reading.finish = _
    rw [List.foldlM_cons, hp]
    rfl

/-- A power of a single number is refused at its closing parenthesis, before the two signs behind it
are seen. -/
theorem ofTokens_eq_error_pow :
    Expr.ofTokens [⟨.word "pow", 0⟩, ⟨.opening, 3⟩, ⟨.number .zero, 4⟩, ⟨.closing, 5⟩, ⟨.times, 6⟩,
        ⟨.times, 7⟩] = .error (.arityMismatch "pow" 2 1) ∧
      ∃ before p after, [⟨.word "pow", 0⟩, ⟨.opening, 3⟩, ⟨.number .zero, 4⟩, ⟨.closing, 5⟩,
          ⟨.times, 6⟩, ⟨.times, 7⟩] = before ++ p :: after ∧
        (∀ rest, Expr.ofTokens (before ++ p :: rest) = .error (.arityMismatch "pow" 2 1)) ∧
        Viable before ∧ Grammar.Blames (before.map (·.token)) p (.arityMismatch "pow" 2 1) := by
  have h : Expr.ofTokens [⟨.word "pow", 0⟩, ⟨.opening, 3⟩, ⟨.number .zero, 4⟩, ⟨.closing, 5⟩,
      ⟨.times, 6⟩, ⟨.times, 7⟩] = .error (.arityMismatch "pow" 2 1) := rfl
  exact ⟨h, (ofTokens_eq_error _ _ h).2 nofun⟩

end PocketCalc
