import PocketCalc.Proofs.Expr.Grammar

/-!
# What the grammar derives is read

`IsSum.leads`, with one lemma for each rule of the grammar, runs the reading over the tokens of a
derivation: from a reading that waits for an operand, whatever brackets are open, it leads to the
reading that holds the derived tree in its place. Where the budget of the derivation and the nesting
so far add up to at most `maxNesting`, no bracket or sign is refused (`IsSum.reads`). Where they may
add up to more, the proposition `deep` holds, and the run may be refused for that one reason. So
tokens that derive a tree with any budget are read as this tree or nest too deep
(`ofTokens_of_isSum`).

A name that has just been read may still become a call. `Reading.settled` takes it for a constant,
as every token but an opening parenthesis does, and the lemmas compare readings through it.
-/

namespace PocketCalc

namespace Reading

variable {r s t : Reading} {ts us : List Token} {brackets : List Bracket} {left : OpenOperand}
  {deep : Prop} {n : Nat}

/-- The reading in which a name that has just been read is a constant. -/
def settled : Reading → Reading
  | afterName brackets left name => afterPrimary brackets left (.constant name)
  | r => r

/-- Only an opening parenthesis tells a name from a constant. -/
theorem step_settled {p : PlacedToken} (hp : p.token ≠ .opening) : r.settled.step p = r.step p := by
  cases r with
  | beforeOperand brackets left => rfl
  | afterTerm brackets sum term percent => rfl
  | afterName brackets left name =>
    simp only [settled, afterPrimary, step]

/-- At the end of the tokens a name is a constant. -/
theorem finish_settled : r.settled.finish = r.finish := by
  cases r with
  | beforeOperand brackets left => rfl
  | afterTerm brackets sum term percent => rfl
  | afterName brackets left name => cases brackets <;> rfl

/-- The signs that wait for an operand add to the nesting of the brackets around it. -/
theorem nesting_eq (brackets : List Bracket) (left : OpenOperand) :
    nesting brackets left = nesting brackets {} + left.nesting := by
  induction brackets with
  | nil => simp [nesting, OpenOperand.nesting]
  | cons bracket brackets ih => rw [nesting, nesting, ih, Nat.add_right_comm]

/-- The outcome is a reading, or where `deep` holds perhaps the refusal of nesting too deep. -/
def Gives (deep : Prop) (outcome : Except SyntaxError Reading) (r : Reading) : Prop :=
  outcome = .ok r ∨ deep ∧ outcome = .error (.nestingTooDeep maxNesting)

/-- Unless `deep` holds, the limit leaves room for `n` more brackets and signs. -/
def HasRoom (deep : Prop) (brackets : List Bracket) (left : OpenOperand) (n : Nat) : Prop :=
  ¬ deep → nesting brackets left + n ≤ maxNesting

/-- Where there is room one more bracket or sign is read. -/
theorem HasRoom.deeper (h : HasRoom deep brackets left (n + 1)) :
    Gives deep (deeper brackets left r) r := by
  unfold Reading.deeper Gives
  split
  · exact .inl rfl
  · next hlt =>
    refine .inr ⟨Classical.byContradiction fun hd => ?_, rfl⟩
    have := h hd
    omega

/-- One more sign takes some of the room. -/
theorem HasRoom.sign {left' : OpenOperand} (h : HasRoom deep brackets left (n + 1))
    (hl : left'.nesting = left.nesting + 1) : HasRoom deep brackets left' n := by
  intro hd
  have := h hd
  rw [nesting_eq] at this ⊢
  omega

/-- A sum and a term take no room. -/
theorem HasRoom.congr {left' : OpenOperand} (h : HasRoom deep brackets left n)
    (hl : left'.nesting = left.nesting) : HasRoom deep brackets left' n := by
  intro hd
  have := h hd
  rw [nesting_eq] at this ⊢
  omega

/-- One more bracket takes some of the room, and what stands to the left of it the same as before. -/
theorem HasRoom.bracket {bracket : Bracket} (h : HasRoom deep brackets left (n + 1))
    (hb : bracket.nesting = left.nesting + 1) : HasRoom deep (bracket :: brackets) {} n := by
  intro hd
  have := h hd
  rw [nesting_eq] at this
  simp only [nesting]
  omega

/-- The tokens lead from one reading to the other, wherever they stand in the entry. -/
def Leads (deep : Prop) (r : Reading) (ts : List Token) (s : Reading) : Prop :=
  ∀ placed : List PlacedToken, placed.map (·.token) = ts → Gives deep (placed.foldlM step r) s

/-- The tokens lead to a reading that is the given one once its last name is a constant. -/
def LeadsTo (deep : Prop) (r : Reading) (ts : List Token) (s : Reading) : Prop :=
  ∃ r', Leads deep r ts r' ∧ r'.settled = s

/-- One token is one step. -/
theorem Leads.single {token : Token}
    (h : ∀ p : PlacedToken, p.token = token → Gives deep (r.step p) s) :
    Leads deep r [token] s := by
  intro placed hp
  obtain ⟨p, rfl, ht⟩ := List.map_eq_singleton_iff.mp hp
  simpa using h p ht

/-- Tokens are read one after the other, up to a refusal. -/
theorem Leads.append (h : Leads deep r ts s) (h' : Leads deep s us t) :
    Leads deep r (ts ++ us) t := by
  intro placed hp
  obtain ⟨ps, qs, rfl, hps, hqs⟩ := List.map_eq_append_iff.mp hp
  rw [List.foldlM_append]
  rcases h ps hps with hs | ⟨hdeep, hs⟩
  · rw [hs]
    exact h' qs hqs
  · rw [hs]
    exact .inr ⟨hdeep, rfl⟩

/-- A first token and those behind it. -/
theorem Leads.cons {token : Token}
    (h : ∀ p : PlacedToken, p.token = token → Gives deep (r.step p) s) (h' : Leads deep s us t) :
    Leads deep r (token :: us) t :=
  (Leads.single h).append h'

/-- A first token in front of tokens that lead to a reading. -/
theorem LeadsTo.cons {token : Token}
    (h : ∀ p : PlacedToken, p.token = token → Gives deep (r.step p) s) (h' : LeadsTo deep s us t) :
    LeadsTo deep r (token :: us) t := by
  obtain ⟨t', ht, hs⟩ := h'
  exact ⟨t', Leads.cons h ht, hs⟩

/-- Tokens that lead to a reading go on as from that reading, unless a parenthesis opens. -/
theorem LeadsTo.step {token : Token} (h : LeadsTo deep r ts s) (ho : token ≠ .opening)
    (h' : ∀ p : PlacedToken, p.token = token → s.step p = .ok t) :
    Leads deep r (ts ++ [token]) t := by
  obtain ⟨r', hr, rfl⟩ := h
  refine hr.append (Leads.single fun p hp => ?_)
  rw [← step_settled (by rwa [hp])]
  exact .inl (h' p hp)

/-- Two runs with a token between them that opens no parenthesis. -/
theorem LeadsTo.join {token : Token} {u : Reading} (h : LeadsTo deep r ts s) (ho : token ≠ .opening)
    (h' : ∀ p : PlacedToken, p.token = token → s.step p = .ok t) (hu : LeadsTo deep t us u) :
    LeadsTo deep r (ts ++ token :: us) u := by
  obtain ⟨u', hu, hs⟩ := hu
  refine ⟨u', ?_, hs⟩
  rw [← List.singleton_append, ← List.append_assoc]
  exact (h.step ho h').append hu

/-- The operation of a sum joins the term before it to the sum, and the next term starts. -/
theorem step_sumOp (op : SumOp) {sum : OpenSum} {term : Expr} {percent : Bool} (p : PlacedToken)
    (hp : p.token = op.token) :
    (afterTerm brackets sum term percent).step p =
      .ok (.beforeOperand brackets { sum := some (sum.close term, op) }) := by
  cases op <;> simp only [Reading.step, stepTerm, hp, SumOp.token]

/-- The operation of a term keeps the term before it, and the next operand starts. -/
theorem step_termOp (op : TermOp) {sum : OpenSum} {term : Expr} {percent : Bool} (p : PlacedToken)
    (hp : p.token = op.token) :
    (afterTerm brackets sum term percent).step p =
      .ok (.beforeOperand brackets { sum, term := some (term, op) }) := by
  cases op <;> simp only [Reading.step, stepTerm, hp, TermOp.token]

/-- The parenthesis behind a call is read if the function takes that many arguments. -/
theorem afterCall_eq_ok {name : String} {args : List Expr} (h : Grammar.HasArity name args) :
    afterCall brackets left name args = .ok (afterPrimary brackets left (.call name args)) := by
  unfold afterCall
  split
  · rfl
  · next f hf => rw [if_pos (h f hf)]

/-- A name is read where an operand may start. -/
theorem step_name (name : String) (p : PlacedToken) (hp : p.token = .word name) :
    (beforeOperand brackets left).step p = .ok (.afterName brackets left name) := by
  simp only [Reading.step, stepOperand, hp]

/-- Within the limit the parenthesis behind a name opens a call. -/
theorem step_call (h : HasRoom deep brackets left (n + 1)) {name : String}
    (p : PlacedToken) (hp : p.token = .opening) :
    Gives deep ((afterName brackets left name).step p)
      (.beforeOperand (.call left name [] :: brackets) {}) := by
  simp only [Reading.step, hp]
  exact h.deeper

end Reading

namespace OpenOperand

variable {left : OpenOperand}

/-- Applied to a value first, a function is applied once more than without it. -/
theorem repeat_succ {α : Type} (f : α → α) (n : Nat) (x : α) :
    Nat.repeat f (n + 1) x = Nat.repeat f n (f x) := by
  induction n with
  | zero => rfl
  | succ n ih => exact congrArg f ih

/-- One more minus sign before an operand negates it before anything else happens to it. -/
theorem close_negation (hr : left.roots = 0) (x : Expr) :
    ({ left with negations := left.negations + 1 } : OpenOperand).close x =
      left.close (.negation x) := by
  simp only [close, hr, repeat_succ]
  rfl

/-- One more root sign before a primary takes its root before anything else happens to it. -/
theorem close_root (x : Expr) :
    ({ left with roots := left.roots + 1 } : OpenOperand).close x = left.close x.squareRoot := by
  simp only [close, repeat_succ]

end OpenOperand

namespace Grammar

open Reading

variable {deep : Prop}

mutual

/-- A sum is read where an operand may start, up to a last term that completes it. -/
theorem IsSum.leads : ∀ {n ts x}, IsSum n ts x → ∀ (brackets : List Bracket),
    HasRoom deep brackets {} n →
    ∃ sum term percent, OpenSum.close sum term = x ∧
      LeadsTo deep (.beforeOperand brackets {}) ts (.afterTerm brackets sum term percent)
  | _, _, _, .term h, brackets, hn => ⟨none, _, _, rfl, h.leads brackets none hn⟩
  -- The sum before the operation is complete, and becomes the open sum of the last term.
  | _, _, _, .join op ha hb, brackets, hn => by
    obtain ⟨sum, term, percent, rfl, hs⟩ := ha.leads brackets hn
    exact ⟨some (_, op), _, _, rfl,
      hs.join (by cases op <;> nofun) (step_sumOp op) (hb.leads brackets (some (_, op)) hn)⟩

/-- A term is read behind any sum. -/
theorem IsTerm.leads : ∀ {n percent ts x}, IsTerm n percent ts x →
    ∀ (brackets : List Bracket) (sum : OpenSum), HasRoom deep brackets {} n →
    LeadsTo deep (.beforeOperand brackets { sum }) ts (.afterTerm brackets sum x percent)
  | _, _, _, _, .operand h, brackets, sum, hn =>
    h.leads brackets { sum } rfl (hn.congr rfl)
  | _, _, _, _, .join op ha hb, brackets, sum, hn =>
    (ha.leads brackets sum hn).join (by cases op <;> nofun) (step_termOp op)
      (hb.leads brackets { sum, term := some (_, op) } rfl (hn.congr rfl))
  | _, _, _, _, .percent h, brackets, sum, hn =>
    ⟨.afterTerm brackets sum (.percent _) true,
      (h.leads brackets sum hn).step nofun fun p hp => by simp [Reading.step, stepTerm, hp], rfl⟩

/-- An operand is read behind whatever stands to its left, as long as no root waits for it. -/
theorem IsOperand.leads : ∀ {n ts x}, IsOperand n ts x →
    ∀ (brackets : List Bracket) (left : OpenOperand), left.roots = 0 →
    HasRoom deep brackets left n →
    LeadsTo deep (.beforeOperand brackets left) ts
      (.afterTerm brackets left.sum (left.close x) false)
  -- The sign moves from the budget of the derivation to the nesting of the reading.
  | _, _, _, .negation h, brackets, left, hr, hn => by
    rw [← OpenOperand.close_negation hr]
    refine LeadsTo.cons (fun p hp => ?_)
      (h.leads brackets { left with negations := left.negations + 1 } hr (hn.sign ?_))
    · simp only [Reading.step, stepOperand, hp, if_pos hr]
      exact hn.deeper
    · exact Nat.add_right_comm ..
  | _, _, _, .rooted h, brackets, left, hr, hn => h.leads brackets left hn

/-- A primary with its roots is read behind whatever stands to its left. -/
theorem IsRooted.leads : ∀ {n ts x}, IsRooted n ts x →
    ∀ (brackets : List Bracket) (left : OpenOperand), HasRoom deep brackets left n →
    LeadsTo deep (.beforeOperand brackets left) ts
      (.afterTerm brackets left.sum (left.close x) false)
  | _, _, _, .root h, brackets, left, hn => by
    rw [← OpenOperand.close_root]
    refine LeadsTo.cons (fun p hp => ?_)
      (h.leads brackets { left with roots := left.roots + 1 } (hn.sign rfl))
    simp only [Reading.step, stepOperand, hp]
    exact hn.deeper
  | _, _, _, .primary h, brackets, left, hn => h.leads brackets left hn

/-- A primary is read behind whatever stands to its left. -/
theorem IsPrimary.leads : ∀ {n ts x}, IsPrimary n ts x →
    ∀ (brackets : List Bracket) (left : OpenOperand), HasRoom deep brackets left n →
    LeadsTo deep (.beforeOperand brackets left) ts
      (.afterTerm brackets left.sum (left.close x) false)
  | _, _, _, .number v, brackets, left, hn =>
    ⟨afterPrimary brackets left (.number v),
      Leads.single fun p hp => .inl (by simp only [Reading.step, stepOperand, hp]), rfl⟩
  | _, _, _, .constant name, brackets, left, hn =>
    ⟨.afterName brackets left name,
      Leads.single fun p hp => .inl (by simp only [Reading.step, stepOperand, hp]), rfl⟩
  | _, _, _, @IsPrimary.emptyCall n name ha, brackets, left, hn => by
    refine ⟨afterPrimary brackets left (.call name []),
      Leads.cons (fun p hp => .inl (step_name name p hp)) ?_, rfl⟩
    refine Leads.cons (step_call hn) (Leads.single fun p hp => ?_)
    simp only [Reading.step, stepOperand, hp]
    exact .inl (afterCall_eq_ok ha)
  | _, _, _, @IsPrimary.call n ts name args h ha, brackets, left, hn => by
    obtain ⟨before, sum, term, percent, rfl, hr⟩ := h.leads brackets left name hn
    refine ⟨afterPrimary brackets left (.call name _),
      Leads.cons (fun p hp => .inl (step_name name p hp)) ?_, rfl⟩
    refine Leads.cons (step_call hn) (hr.step nofun fun p hp => ?_)
    simp only [Reading.step, stepTerm, hp]
    exact afterCall_eq_ok ha
  -- What stands before the parenthesis waits in its bracket until the closing one.
  | _, _, _, @IsPrimary.group n ts x h, brackets, left, hn => by
    obtain ⟨sum, term, percent, rfl, hr⟩ := h.leads (.group left :: brackets) (hn.bracket rfl)
    refine ⟨afterPrimary brackets left _,
      Leads.cons (fun p hp => ?_) (hr.step nofun fun p hp => ?_), rfl⟩
    · simp only [Reading.step, stepOperand, hp]
      exact hn.deeper
    · simp only [Reading.step, stepTerm, hp]

/-- Arguments are read behind the opening parenthesis of a call, up to a last term that completes
the last of them. -/
theorem IsArguments.leads : ∀ {n ts args}, IsArguments n ts args →
    ∀ (brackets : List Bracket) (left : OpenOperand) (name : String),
    HasRoom deep brackets left (n + 1) →
    ∃ before sum term percent, (OpenSum.close sum term :: before).reverse = args ∧
      LeadsTo deep (.beforeOperand (.call left name [] :: brackets) {}) ts
        (.afterTerm (.call left name before :: brackets) sum term percent)
  | _, _, _, .first h, brackets, left, name, hn => by
    obtain ⟨sum, term, percent, rfl, hr⟩ :=
      h.leads (.call left name [] :: brackets) (hn.bracket rfl)
    exact ⟨[], sum, term, percent, rfl, hr⟩
  | _, _, _, @IsArguments.next n ts us args x ha hx, brackets, left, name, hn => by
    obtain ⟨before, sum, term, percent, rfl, hr⟩ := ha.leads brackets left name hn
    obtain ⟨sum', term', percent', rfl, hr'⟩ :=
      hx.leads (.call left name (sum.close term :: before) :: brackets) (hn.bracket rfl)
    refine ⟨sum.close term :: before, sum', term', percent', by simp,
      hr.join nofun (fun p hp => ?_) hr'⟩
    simp only [Reading.step, stepTerm, hp]

end

/-- Within the budget of the derivation a sum is read. -/
theorem IsSum.reads {n : Nat} {ts : List Token} {x : Expr} (h : IsSum n ts x)
    (brackets : List Bracket) (hn : nesting brackets {} + n ≤ maxNesting) :
    ∃ sum term percent, OpenSum.close sum term = x ∧ ∃ r : Reading,
      (∀ placed : List PlacedToken, placed.map (·.token) = ts →
        placed.foldlM step (.beforeOperand brackets {}) = .ok r) ∧
      r.settled = .afterTerm brackets sum term percent := by
  obtain ⟨sum, term, percent, hx, r, hr, hs⟩ := @IsSum.leads False _ _ _ h brackets fun _ => hn
  exact ⟨sum, term, percent, hx, r, fun placed hp => (hr placed hp).resolve_right (·.1), hs⟩

end Grammar

/-- Tokens that derive a tree, however deep it nests, are read as this tree or nest too deep. -/
theorem ofTokens_of_isSum {n : Nat} {tokens : List PlacedToken} {x : Expr}
    (h : Grammar.IsSum n (tokens.map (·.token)) x) :
    Expr.ofTokens tokens = .ok x ∨ Expr.ofTokens tokens = .error (.nestingTooDeep maxNesting) := by
  obtain ⟨sum, term, percent, rfl, r, hr, hs⟩ := @Grammar.IsSum.leads True _ _ _ h [] nofun
  unfold Expr.ofTokens
  rw [Reading.start]
  rcases hr tokens rfl with hr | ⟨-, hr⟩
  · rw [hr]
    refine .inl ?_
    show r.finish = _
    rw [← Reading.finish_settled, hs]
    rfl
  · rw [hr]
    exact .inr rfl

end PocketCalc
