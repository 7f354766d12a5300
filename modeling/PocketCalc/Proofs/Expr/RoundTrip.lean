import PocketCalc.Proofs.Expr.Acceptance
import PocketCalc.Proofs.Expr.Writing

/-!
# What the text of an expression is read as

The printer puts parentheses around the four operations only. A percent sign stands behind the text
of its operand, whatever that ends with, and a minus sign before it. In the grammar a percent sign
takes all of the term before it, so that an operand whose text ends with one may be taken apart:
`4%` behind a division gives the percentage to the quotient, and behind a minus sign to the negation.
Two percent signs in a row are refused.

`Expr.reread` is the expression that the text is read as, if no percent sign takes more of a term or
follows another (`EnclosesPercent`): each percent sign behind minus signs applies last
(`ofTokens_tokens`). It is the expression itself if no percentage is negated, either
(`IsUnambiguous`), and then parsing undoes printing (`ofTokens_text`).
-/

namespace PocketCalc

namespace Expr

/-- Whether the expression is a percentage. -/
def isPercent : Expr → Bool
  | percent _ => true
  | _ => false

/-- Whether the text of the expression ends with a percent sign. -/
def endsWithPercent : Expr → Bool
  | percent _ => true
  | negation x => x.endsWithPercent
  | _ => false

/-- The node keeps the percent signs of its operands: no right operand of a product or a quotient
and no operand of a percentage ends with one. -/
def EnclosesPercent : Expr → Prop
  | binary op _ b => op = .mul ∨ op = .div → b.endsWithPercent = false
  | percent x => x.endsWithPercent = false
  | _ => True

/-- No operand of a negation or of a percentage is a percentage, and no right operand of a product or
a quotient. -/
def IsUnambiguous : Expr → Prop
  | binary op _ b => op = .mul ∨ op = .div → b.isPercent = false
  | negation x => x.isPercent = false
  | percent x => x.isPercent = false
  | _ => True

/-- The negation of an expression as its text is read: a percent sign applies last. -/
def negated : Expr → Expr
  | percent x => percent (negation x)
  | x => negation x

mutual

/-- The expression as its text is read: in a negated percentage the percent sign applies last. -/
def reread : Expr → Expr
  | number v => number v
  | constant name => constant name
  | call name args => call name (rereadAll args)
  | binary op a b => binary op (reread a) (reread b)
  | negation x => (reread x).negated
  | percent x => percent (reread x)

/-- Some expressions as their texts are read. -/
def rereadAll : List Expr → List Expr
  | [] => []
  | x :: xs => reread x :: rereadAll xs

end

mutual

/-- How many brackets and signs of the text are open at once. -/
def depth : Expr → ℕ
  | number _ => 0
  | constant _ => 0
  | call _ args => depthOfAll args + 1
  | binary _ a b => max (depth a) (depth b) + 1
  | negation x => depth x + 1
  | percent x => depth x

/-- The greatest depth of some expressions. -/
def depthOfAll : List Expr → ℕ
  | [] => 0
  | x :: xs => max (depth x) (depthOfAll xs)

end

variable {x : Expr}

/-- Some expressions are reread one by one. -/
theorem rereadAll_eq_map (xs : List Expr) : rereadAll xs = xs.map reread := by
  induction xs with
  | nil => rfl
  | cons x xs ih => rw [rereadAll, ih, List.map_cons]

/-- None of some expressions is deeper than their greatest depth. -/
theorem depth_le_depthOfAll {xs : List Expr} (hx : x ∈ xs) : x.depth ≤ depthOfAll xs := by
  induction xs with
  | nil => simp at hx
  | cons y ys ih =>
    rw [depthOfAll]
    rcases List.mem_cons.mp hx with rfl | hx
    · exact Nat.le_max_left ..
    · exact (ih hx).trans (Nat.le_max_right ..)

/-- Only a percentage is negated otherwise than by a minus sign before it. -/
theorem negated_eq (h : x.isPercent = false) : x.negated = negation x := by
  cases x <;> first | rfl | cases h

/-- Negation keeps what ends with a percent sign. -/
theorem isPercent_negated (x : Expr) : x.negated.isPercent = x.isPercent := by
  cases x <;> rfl

/-- An expression is read as a percentage exactly if its text ends with a percent sign. -/
theorem isPercent_reread : ∀ x : Expr, x.reread.isPercent = x.endsWithPercent
  | number _ | constant _ | call _ _ | binary _ _ _ | percent _ => rfl
  | negation x => by rw [reread, isPercent_negated, isPercent_reread x, endsWithPercent]

/-- Where no percentage is negated, a text ends with a percent sign only if it is a percentage. -/
theorem endsWithPercent_eq_isPercent (h : x.Every IsUnambiguous) :
    x.endsWithPercent = x.isPercent := by
  induction h with
  | @node x hx _ ih =>
    cases x with
    | negation y =>
      rw [endsWithPercent, ih y (by simp [children])]
      exact hx
    | _ => rfl

/-- Where no percent sign is ambiguous, each stays with its operand. -/
theorem every_enclosesPercent (h : x.Every IsUnambiguous) : x.Every EnclosesPercent := by
  induction h with
  | @node x hx hchildren ih =>
    refine .node ?_ ih
    cases x with
    | binary op a b =>
      intro hop
      rw [endsWithPercent_eq_isPercent (hchildren b (by simp [children]))]
      exact hx hop
    | percent y =>
      rw [EnclosesPercent, endsWithPercent_eq_isPercent (hchildren y (by simp [children]))]
      exact hx
    | _ => trivial

/-- Where no percent sign is ambiguous, an expression is read as itself. -/
theorem reread_eq_self (h : x.Every IsUnambiguous) : x.reread = x := by
  induction h with
  | @node x hx _ ih =>
    cases x with
    | number v => rfl
    | constant name => rfl
    | call name args =>
      have hargs : args.map reread = args := (List.map_congr_left ih).trans (List.map_id' args)
      rw [reread, rereadAll_eq_map, hargs]
    | binary op a b =>
      simp only [children, List.forall_mem_cons] at ih
      rw [reread, ih.1, ih.2.1]
    | negation y => rw [reread, ih y (by simp [children]), negated_eq hx]
    | percent y => rw [reread, ih y (by simp [children])]

end Expr

namespace Grammar

open PocketCalc.Expr

/-- Tokens that form an operand, perhaps with a percent sign behind it; the flag says whether there
is one. -/
inductive IsFactor (n : ℕ) : Bool → List Token → Expr → Prop
  /-- An operand alone. -/
  | operand {ts x} : IsOperand n ts x → IsFactor n false ts x
  /-- An operand and its percent sign. -/
  | percent {ts x} : IsOperand n ts x → IsFactor n true (ts ++ [.percent]) (.percent x)

variable {x a b : Expr} {op : BinaryOp} {n : ℕ} {percent : Bool} {ts us : List Token}

/-- A factor is a term. -/
theorem IsFactor.isTerm (h : IsFactor n percent ts x) : IsTerm n percent ts x := by
  rcases h with h | h
  · exact .operand h
  · exact .percent (.operand h)

/-- A factor without a percent sign is an operand. -/
theorem IsFactor.isOperand (h : IsFactor n false ts x) : IsOperand n ts x := by
  cases h
  assumption

/-- A minus sign before a factor goes to the operand. -/
theorem IsFactor.negated (h : IsFactor n percent ts x) (hx : x.isPercent = percent) :
    IsFactor (n + 1) percent (.minus :: ts) x.negated := by
  rcases h with h | h
  · rw [negated_eq hx]
    exact .operand (.negation h)
  · exact .percent (.negation h)

/-- An operation between factors is an operand in its parentheses, unless it takes a percent sign
away from its right operand. -/
theorem IsFactor.binary {p : Bool} (ha : IsFactor n p ts a) (hb : IsFactor n percent us b)
    (h : op = .mul ∨ op = .div → percent = false) :
    IsFactor (n + 1) false (.opening :: (ts ++ op.token :: (us ++ [.closing])))
      (.binary op a b) := by
  have hsum : IsSum n (ts ++ op.token :: us) (.binary op a b) := by
    cases op with
    | add => exact .join .plus (.term ha.isTerm) hb.isTerm
    | sub => exact .join .minus (.term ha.isTerm) hb.isTerm
    | mul =>
      cases h (.inl rfl)
      exact .term (.join .times ha.isTerm hb.isOperand)
    | div =>
      cases h (.inr rfl)
      exact .term (.join .divide ha.isTerm hb.isOperand)
  have hgroup := IsPrimary.group hsum
  rw [List.cons_append, List.append_assoc, List.cons_append] at hgroup
  exact .operand (.rooted (.primary hgroup))

/-- Sums behind arguments, with commas between them, are arguments. -/
theorem IsArguments.intercalate {α : Type} {tokens : α → List Token} {trees : α → Expr}
    {args : List Expr} {xs : List α} (hargs : IsArguments n ts args)
    (h : ∀ x ∈ xs, IsSum n (tokens x) (trees x)) :
    IsArguments n ([.comma].intercalate (ts :: xs.map tokens)) (args ++ xs.map trees) := by
  induction xs generalizing ts args with
  | nil => simpa using hargs
  | cons x xs ih =>
    rw [List.forall_mem_cons] at h
    have hnext := ih (.next hargs h.1) h.2
    -- The first two lists of tokens are one list in the induction hypothesis.
    have hshift : [Token.comma].intercalate ((ts ++ .comma :: tokens x) :: xs.map tokens) =
        [Token.comma].intercalate (ts :: tokens x :: xs.map tokens) := by
      rcases xs.map tokens with _ | ⟨us, uss⟩ <;> simp
    rw [hshift, List.append_assoc] at hnext
    simpa using hnext

/-- A call with its arguments in parentheses is an operand. -/
theorem IsFactor.call {α : Type} {tokens : α → List Token} {trees : α → Expr} {xs : List α}
    {name : String} (harity : HasArity name (xs.map trees))
    (h : ∀ x ∈ xs, IsSum n (tokens x) (trees x)) :
    IsFactor (n + 1) false
      (.word name :: .opening :: ([.comma].intercalate (xs.map tokens) ++ [.closing]))
      (.call name (xs.map trees)) := by
  refine .operand (.rooted (.primary ?_))
  rcases xs with _ | ⟨x, xs⟩
  · exact .emptyCall harity
  · rw [List.forall_mem_cons] at h
    exact .call (IsArguments.intercalate (.first h.1) h.2) harity

/-- The tokens of an expression form what its text is read as. -/
theorem isFactor_tokens (ha : x.Every (IsMadeOf Token.IsPlain)) (he : x.Every EnclosesPercent) :
    ∀ n, x.depth ≤ n → IsFactor n x.endsWithPercent x.tokens x.reread := by
  induction ha with
  | @node x hx _ ih =>
    intro n hn
    obtain ⟨hex, hes⟩ := every_iff.mp he
    cases x with
    | number v => exact .operand (.rooted (.primary (.number v)))
    | constant name => exact .operand (.rooted (.primary (.constant name)))
    | call name args =>
      rw [depth] at hn
      obtain ⟨m, rfl⟩ : ∃ m, n = m + 1 := ⟨n - 1, by omega⟩
      have harity : HasArity name (args.map reread) := fun f hf => by
        rw [List.length_map]
        exact hx.2 f hf
      have hsums : ∀ y ∈ args, IsSum m y.tokens y.reread := fun y hy =>
        .term (ih y hy (hes y hy) m ((depth_le_depthOfAll hy).trans (by omega))).isTerm
      rw [tokens, reread, tokensOfAll_eq_map, rereadAll_eq_map]
      exact .call harity hsums
    | binary op a b =>
      rw [depth] at hn
      obtain ⟨m, rfl⟩ : ∃ m, n = m + 1 := ⟨n - 1, by omega⟩
      simp only [children, List.forall_mem_cons] at ih hes
      exact .binary (ih.1 hes.1 m (by omega)) (ih.2.1 hes.2.1 m (by omega)) hex
    | negation y =>
      rw [depth] at hn
      obtain ⟨m, rfl⟩ : ∃ m, n = m + 1 := ⟨n - 1, by omega⟩
      have hy := ih y (by simp [children]) (hes y (by simp [children])) m (by omega)
      exact hy.negated (isPercent_reread y)
    | percent y =>
      have hy := ih y (by simp [children]) (hes y (by simp [children])) n hn
      rw [show y.endsWithPercent = false from hex] at hy
      exact .percent hy.isOperand

end Grammar

namespace Expr

variable {x : Expr}

/-- The tokens of an expression are read as the expression that its text means, unless they nest too
deep. -/
theorem ofTokens_tokens (ha : x.Every (IsMadeOf Token.IsPlain)) (he : x.Every EnclosesPercent)
    {placed : List PlacedToken} (hp : placed.map (·.token) = x.tokens) :
    ofTokens placed = .ok x.reread ∨ ofTokens placed = .error (.nestingTooDeep maxNesting) := by
  have h := (Grammar.isFactor_tokens ha he x.depth le_rfl).isTerm
  rw [← hp] at h
  exact ofTokens_of_isSum (.term h)

/-- Parsing undoes printing where no percent sign is ambiguous: the text of an expression is too long
for an entry, or it is divided into tokens, and these are read as the expression or nest too deep. -/
theorem ofTokens_text (hmade : x.Every (IsMadeOf Token.IsPlain)) (hclear : x.Every IsUnambiguous) :
    tokenize x.text.toList = .error (.inputTooLong maxEntryLength) ∨
      ∃ placed, tokenize x.text.toList = .ok placed ∧
        (ofTokens placed = .ok x ∨ ofTokens placed = .error (.nestingTooDeep maxNesting)) := by
  refine (tokenize_text hmade).imp_right ?_
  rintro ⟨placed, htokens, hplaced⟩
  have h := ofTokens_tokens hmade (every_enclosesPercent hclear) hplaced
  rw [reread_eq_self hclear] at h
  exact ⟨placed, htokens, h⟩

/-- A percentage of a sum, and a call behind a minus sign with a negative argument, are printed and
parsed again. -/
theorem ofTokens_text_pow :
    let x := binary .sub (percent (binary .add (number (.ofNat 1)) (constant "pi")))
      (call "pow" [constant "e", negation (number (.ofNat 2))])
    x.Every (IsMadeOf Token.IsPlain) ∧ x.Every IsUnambiguous ∧ x.text = "((1 + π)% - pow(e, -2))" ∧
      (tokenize x.text.toList = .error (.inputTooLong maxEntryLength) ∨
        ∃ placed, tokenize x.text.toList = .ok placed ∧
          (ofTokens placed = .ok x ∨ ofTokens placed = .error (.nestingTooDeep maxNesting))) := by
  intro x
  have hmade : x.Every (IsMadeOf Token.IsPlain) := by
    have hone : Token.IsPlain (.number (.ofNat 1)) := ⟨by decide +kernel, _, rfl⟩
    have htwo : Token.IsPlain (.number (.ofNat 2)) := ⟨by decide +kernel, _, rfl⟩
    have hpi : Token.IsPlain (.word "pi") := (by decide : IsName "pi")
    have he : Token.IsPlain (.word "e") := (by decide : IsName "e")
    have hpow : Token.IsPlain (.word "pow") := (by decide : IsName "pow")
    have harity : Grammar.HasArity "pow" [constant "e", negation (number (.ofNat 2))] := by
      intro f hf
      cases hf
      rfl
    simp [x, IsMadeOf, hone, htwo, hpi, he, hpow, harity]
  have hclear : x.Every IsUnambiguous := by simp [x, IsUnambiguous, isPercent]
  exact ⟨hmade, hclear, by decide +kernel, ofTokens_text hmade hclear⟩

end Expr

end PocketCalc
