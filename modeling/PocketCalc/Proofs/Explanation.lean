import PocketCalc.Proofs.Calculation
import PocketCalc.Proofs.Expr.RoundTrip
import PocketCalc.Proofs.Expr.Strictness
import PocketCalc.Proofs.Expr.Understanding

/-!
# The explanation of a calculation

The trace of a calculation shows the text of the expression that was understood. Entered again, this
text is read as `Expr.reread`, which has the same value as the expression, because a quotient changes
its sign with its dividend (`Expr.value_reread`). So the text calculates to the same result, if no
percent sign takes more of a term or follows another (`calculate_explanation`).

This condition is needed. The text of `100/(4%)` is `(100 / 4%)`, where the percent sign takes the
quotient (`explanation_ambiguous`).
-/

namespace PocketCalc

/-! ## Where the nodes of an expression come from -/

namespace Grammar

open PocketCalc.Expr

variable {p : Token → Prop}

mutual

/-- Numbers and names of a sum stand among its tokens. -/
theorem IsSum.isMadeOf (hroot : p (.word "sqrt")) : ∀ {n ts x}, IsSum n ts x → (∀ t ∈ ts, p t) →
    x.Every (IsMadeOf p)
  | _, _, _, .term h, hp => h.isMadeOf hroot hp
  | _, _, _, .join op ha hb, hp => by
    simp only [List.forall_mem_append, List.forall_mem_cons] at hp
    exact every_binary.mpr ⟨trivial, ha.isMadeOf hroot hp.1, hb.isMadeOf hroot hp.2.2⟩

/-- Numbers and names of a term stand among its tokens. -/
theorem IsTerm.isMadeOf (hroot : p (.word "sqrt")) : ∀ {n percent ts x}, IsTerm n percent ts x →
    (∀ t ∈ ts, p t) → x.Every (IsMadeOf p)
  | _, _, _, _, .operand h, hp => h.isMadeOf hroot hp
  | _, _, _, _, .join op ha hb, hp => by
    simp only [List.forall_mem_append, List.forall_mem_cons] at hp
    exact every_binary.mpr ⟨trivial, ha.isMadeOf hroot hp.1, hb.isMadeOf hroot hp.2.2⟩
  | _, _, _, _, .percent h, hp => by
    rw [List.forall_mem_append] at hp
    exact every_percent.mpr ⟨trivial, h.isMadeOf hroot hp.1⟩

/-- Numbers and names of an operand stand among its tokens. -/
theorem IsOperand.isMadeOf (hroot : p (.word "sqrt")) : ∀ {n ts x}, IsOperand n ts x →
    (∀ t ∈ ts, p t) → x.Every (IsMadeOf p)
  | _, _, _, .negation h, hp =>
    every_negation.mpr ⟨trivial, h.isMadeOf hroot (List.forall_mem_cons.mp hp).2⟩
  | _, _, _, .rooted h, hp => h.isMadeOf hroot hp

/-- Numbers and names of a primary with its roots stand among its tokens. -/
theorem IsRooted.isMadeOf (hroot : p (.word "sqrt")) : ∀ {n ts x}, IsRooted n ts x →
    (∀ t ∈ ts, p t) → x.Every (IsMadeOf p)
  | _, _, _, .root h, hp => by
    have hx := h.isMadeOf hroot (List.forall_mem_cons.mp hp).2
    refine every_call.mpr ⟨⟨hroot, fun f hf => ?_⟩, by simpa using hx⟩
    cases hf
    rfl
  | _, _, _, .primary h, hp => h.isMadeOf hroot hp

/-- Numbers and names of a primary stand among its tokens. -/
theorem IsPrimary.isMadeOf (hroot : p (.word "sqrt")) : ∀ {n ts x}, IsPrimary n ts x →
    (∀ t ∈ ts, p t) → x.Every (IsMadeOf p)
  | _, _, _, .number v, hp => every_number.mpr (hp _ (List.mem_cons_self ..))
  | _, _, _, .constant name, hp => every_constant.mpr (hp _ (List.mem_cons_self ..))
  | _, _, _, .emptyCall harity, hp =>
    every_call.mpr ⟨⟨hp _ (List.mem_cons_self ..), harity⟩, by simp⟩
  | _, _, _, .call h harity, hp => by
    simp only [List.cons_append, List.forall_mem_append, List.forall_mem_cons] at hp
    exact every_call.mpr ⟨⟨hp.1, harity⟩, h.isMadeOf hroot hp.2.2.1⟩
  | _, _, _, .group h, hp => by
    simp only [List.cons_append, List.forall_mem_append, List.forall_mem_cons] at hp
    exact h.isMadeOf hroot hp.2.1

/-- Numbers and names of arguments stand among their tokens. -/
theorem IsArguments.isMadeOf (hroot : p (.word "sqrt")) : ∀ {n ts args}, IsArguments n ts args →
    (∀ t ∈ ts, p t) → ∀ x ∈ args, x.Every (IsMadeOf p)
  | _, _, _, .first h, hp => by simpa using h.isMadeOf hroot hp
  | _, _, _, .next h hx, hp => by
    simp only [List.forall_mem_append, List.forall_mem_cons] at hp
    simp only [List.forall_mem_append, List.forall_mem_singleton]
    exact ⟨h.isMadeOf hroot hp.1, hx.isMadeOf hroot hp.2.2⟩

end

end Grammar

namespace Binary64

/-- A quotient changes its sign with its dividend. -/
theorem neg_div (x y : Binary64) : -x / y = -(x / y) := by
  rcases x with _ | ⟨s, a⟩
  · rfl
  · rcases y with _ | ⟨t, b⟩
    · rfl
    · have hsign : ((!s) != t) = !(s != t) := by cases s <;> cases t <;> rfl
      show div (signed (!s) a) (signed t b) = neg (div (signed s a) (signed t b))
      unfold div
      dsimp only
      rw [hsign]
      split_ifs <;> rfl

/-- A sign does not make a number infinite. -/
theorem isFinite_neg (x : Binary64) : (-x).isFinite = x.isFinite := by
  cases x <;> rfl

end Binary64

/-- A value that passes the check passes it with its sign changed. -/
theorem bind_finite_neg (v : Binary64) : (do finite (-(← finite v))) = finite (-v) := by
  by_cases h : v.isFinite = true
  · rw [finite, if_pos h]
    rfl
  · have hneg : ¬ (-v).isFinite = true := by rwa [Binary64.isFinite_neg]
    rw [finite, finite, if_neg h, if_neg hneg]
    rfl

namespace Expr

variable {A : Arithmetic} {unit : AngleUnit} {x : Expr} {v : Binary64}

/-- An expression that has been read from an entry and has a value is made of plain tokens. -/
theorem isMadeOf_of_value {entry : List Char} {tokens : List PlacedToken}
    (htokens : tokenize entry = .ok tokens) (hx : ofTokens tokens = .ok x)
    (hv : x.value A unit = .ok v) : x.Every (IsMadeOf Token.IsPlain) := by
  have hcut := tokensFrom_eq_ok_iff.mp (tokensFrom_of_tokenize htokens)
  have hlexed : ∀ t ∈ tokens.map (·.token), t.IsLexed := List.forall_mem_map.mpr hcut.isLexed
  obtain ⟨r, hr, hfinish⟩ := exists_of_bind_eq_ok hx
  have hsum := (Grammar.Understands.start.run hr).finish hfinish
  have hroot : Token.IsLexed (.word "sqrt") := (by decide : IsName "sqrt")
  refine (hsum.isMadeOf hroot hlexed).imp₂ (every_of_value hv) fun y hy hvalue => ?_
  cases y with
  | number w =>
    -- A number with a value is finite.
    obtain ⟨u, hu⟩ := hvalue
    refine ⟨?_, hy⟩
    unfold value finite at hu
    split at hu
    · assumption
    · cases hu
  | constant name => exact hy
  | call name args => exact hy
  | _ => trivial

/-! ## The value of an expression as its text is read -/

/-- The sign of a percentage is that of its operand. -/
theorem value_negated (hA : A.binary = BinaryOp.onDoubles) (x : Expr) :
    x.negated.value A unit = (negation x).value A unit := by
  cases x with
  | percent y =>
    rw [negated, value, value, value, value, hA]
    cases hy : y.value A unit with
    | error e => rfl
    | ok w =>
      have hneg : finite (-w) = .ok (-w) :=
        if_pos ((Binary64.isFinite_neg w).trans (isFinite_value hy))
      have hdiv : BinaryOp.onDoubles .div (-w) (.ofNat 100) =
          -BinaryOp.onDoubles .div w (.ofNat 100) := Binary64.neg_div w _
      calc finite (-w) >>= (fun u => finite (BinaryOp.onDoubles .div u (.ofNat 100)))
          = finite (-BinaryOp.onDoubles .div w (.ofNat 100)) := by rw [hneg, ← hdiv]; rfl
        _ = finite (BinaryOp.onDoubles .div w (.ofNat 100)) >>= (fun u => finite (-u)) :=
          (bind_finite_neg _).symm
  | _ => rfl

mutual

/-- An expression has the value of what its text is read as. -/
theorem value_reread (hA : A.binary = BinaryOp.onDoubles) :
    ∀ x : Expr, x.reread.value A unit = x.value A unit
  | number _ => rfl
  | constant _ => rfl
  | call name args => by rw [reread, value, value, values_rereadAll hA args]
  | binary op a b => by rw [reread, value, value, value_reread hA a, value_reread hA b]
  | negation x => by rw [reread, value_negated hA, value, value, value_reread hA x]
  | percent x => by rw [reread, value, value, value_reread hA x]

/-- Some expressions have the values of what their texts are read as. -/
theorem values_rereadAll (hA : A.binary = BinaryOp.onDoubles) :
    ∀ xs : List Expr, values A unit (rereadAll xs) = values A unit xs
  | [] => rfl
  | x :: xs => by rw [rereadAll, values, values, value_reread hA x, values_rereadAll hA xs]

end

end Expr

/-! ## The text of an expression as an entry -/

/-- The text has a first and a last character, and neither is a blank. -/
structure IsTrimmed (text : List Char) : Prop where
  /-- The first character. -/
  first : ∃ c ∈ text.head?, isBlank c = false
  /-- The last character. -/
  last : ∃ c ∈ text.getLast?, isBlank c = false

namespace IsTrimmed

variable {text : List Char}

/-- Nothing is trimmed off. -/
theorem trim_eq (h : IsTrimmed text) : trim text = text := by
  obtain ⟨⟨c, hc, hcb⟩, ⟨d, hd, hdb⟩⟩ := h
  refine trim_eq_self (fun c' hc' => ?_) fun d' hd' => ?_
  · rwa [← Option.mem_unique hc hc']
  · rwa [← Option.mem_unique hd hd']

/-- A text without blanks. -/
theorem of_forall (hne : text ≠ []) (h : ∀ c ∈ text, isBlank c = false) : IsTrimmed text where
  first := ⟨text.head hne, List.head_mem_head? hne, h _ (List.head_mem hne)⟩
  last := ⟨text.getLast hne, List.getLast_mem_getLast? hne, h _ (List.getLast_mem hne)⟩

end IsTrimmed

/-- The text of an expression neither starts nor ends with a blank. -/
theorem Expr.isTrimmed_plainText {x : Expr} (h : x.Every (IsMadeOf Token.IsPlain)) :
    IsTrimmed x.plainText.toList := by
  have hname {name : String} (h : IsName name) : IsTrimmed name.toList :=
    .of_forall (by simpa using h.1) fun c hc =>
      (isAlpha_spec (isLower_spec (List.all_eq_true.mp h.2 c hc)).1).1
  have hsymbol (c : Char) (hc : isBlank c = false) : IsTrimmed [c] :=
    .of_forall (by simp) (by simpa using hc)
  induction h with
  | @node x hx _ ih =>
    cases x with
    | number v =>
      obtain ⟨hfin, a, rfl⟩ := hx
      have hwritten := a.shortest.isWritten_positionalLiteral
      rw [plainText,
        Binary64.toList_positional false ((Binary64.isFinite_signed_iff false a).mp hfin)]
      refine .of_forall ?_ (NumberLiteral.isBlank_of_mem_text hwritten)
      simp [NumberLiteral.text, hwritten.whole_ne_nil]
    | constant name =>
      unfold plainText
      split
      · exact hsymbol 'π' (by decide)
      · exact hname hx
    | call name args =>
      obtain ⟨c, hc, hblank⟩ := (hname hx.1).first
      exact ⟨⟨c, by simp_all [plainText], hblank⟩,
        ⟨')', by simp [plainText, List.getLast?_cons], by decide⟩⟩
    | binary op a b =>
      exact ⟨⟨'(', by simp [plainText], by decide⟩,
        ⟨')', by simp [plainText, List.getLast?_cons], by decide⟩⟩
    | negation y =>
      obtain ⟨c, hc, hblank⟩ := (ih y (by simp [children])).last
      exact ⟨⟨'-', by simp [plainText], by decide⟩,
        ⟨c, by simp_all [plainText, List.getLast?_cons], hblank⟩⟩
    | percent y =>
      obtain ⟨c, hc, hblank⟩ := (ih y (by simp [children])).first
      exact ⟨⟨c, by simp_all [plainText], hblank⟩, ⟨'%', by simp [plainText], by decide⟩⟩

/-! ## The explanation calculates to the same result -/

variable {A : Arithmetic} {unit : AngleUnit} {entry : String} {v : Binary64}

/-- A calculation with a result has read an expression with a value, and its trace shows the text of
that expression. -/
theorem exists_of_calculate_eq_ok (h : (calculate A unit entry).result = .ok v) :
    ∃ tokens x, tokenize (trim entry.toList) = .ok tokens ∧ Expr.ofTokens tokens = .ok x ∧
      x.result A unit = .ok v ∧ (calculate A unit entry).trace.expression = x.text := by
  have houtcome := calculate_outcome A unit entry
  generalize displayOf A unit entry = d at houtcome
  generalize calculate A unit entry = c at h houtcome ⊢
  cases houtcome with
  | finished htokens hx hv =>
    cases h
    exact ⟨_, _, htokens, hx, hv, rfl⟩
  | lexical => cases h
  | grammatical => cases h
  | evaluation => cases h

/-- Two expressions of one value have one result. -/
theorem Expr.result_congr {x y : Expr} (h : x.value A unit = y.value A unit) :
    x.result A unit = y.result A unit := by
  rw [result_eq, result_eq, h]

/-- The calculation gives the result `v`, or refuses its entry as too long or as nested too deep. -/
def Calculation.Repeats (c : Calculation) (v : Binary64) : Prop :=
  c.result = .ok v ∨ c.result = .error (.lexical (.inputTooLong maxEntryLength)) ∨
    c.result = .error (.grammatical (.nestingTooDeep maxNesting))

instance (c : Calculation) (v : Binary64) : Decidable (c.Repeats v) :=
  inferInstanceAs (Decidable (_ ∨ _ ∨ _))

/-- The text of an expression calculates to the result of the expression. -/
theorem calculate_text (hA : A.binary = BinaryOp.onDoubles) {x : Expr}
    (hmade : x.Every (Expr.IsMadeOf Token.IsPlain)) (hclear : x.Every Expr.EnclosesPercent)
    (hv : x.result A unit = .ok v) : (calculate A unit x.text).Repeats v := by
  have htrim : trim x.text.toList = x.text.toList := by
    rw [Expr.text_eq_plainText]
    exact (Expr.isTrimmed_plainText hmade).trim_eq
  unfold Calculation.Repeats calculate
  rw [htrim]
  rcases Expr.tokenize_text hmade with hlong | ⟨placed, hplaced, htokens⟩
  · rw [hlong]
    exact .inr (.inl rfl)
  · rw [hplaced]
    dsimp only
    rcases Expr.ofTokens_tokens hmade hclear htokens with hread | hdeep
    · rw [hread]
      dsimp only
      rw [Expr.result_congr (Expr.value_reread hA x), hv]
      exact .inl rfl
    · rw [hdeep]
      exact .inr (.inr rfl)

/-- The text that explains a calculation repeats its result, if the arithmetic is that of doubles and
no percent sign of the text takes more of a term than its operand or follows another. -/
theorem calculate_explanation (hA : A.binary = BinaryOp.onDoubles)
    (hv : (calculate A unit entry).result = .ok v)
    (hclear : ∀ tokens x, tokenize (trim entry.toList) = .ok tokens →
      Expr.ofTokens tokens = .ok x → x.Every Expr.EnclosesPercent) :
    (calculate A unit (calculate A unit entry).trace.expression).Repeats v := by
  obtain ⟨tokens, x, htokens, hx, hresult, htext⟩ := exists_of_calculate_eq_ok hv
  obtain ⟨w, hw, -⟩ := exists_of_bind_eq_ok hresult
  rw [Expr.evaluate, Expr.foldSpine, Expr.foldBelow_eq, Expr.bind_foldlM_nil] at hw
  rw [htext]
  have hmade := Expr.isMadeOf_of_value htokens hx hw
  exact calculate_text hA hmade (hclear tokens x htokens hx) hresult

/-- A negated percentage behind a minus sign is explained by a text with the same result. -/
theorem calculate_explanation_negated :
    (calculate .machine .degrees "7-(-(5%))").trace.expression = "(7 - -5%)" ∧
      (calculate .machine .degrees "7-(-(5%))").result =
        .ok (NumberLiteral.value ⟨['7'], ['0', '5'], none⟩) ∧
      Calculation.Repeats
        (calculate .machine .degrees (calculate .machine .degrees "7-(-(5%))").trace.expression)
        (NumberLiteral.value ⟨['7'], ['0', '5'], none⟩) := by
  have hresult : (calculate .machine .degrees "7-(-(5%))").result =
      .ok (NumberLiteral.value ⟨['7'], ['0', '5'], none⟩) := by decide +kernel
  refine ⟨by decide +kernel, hresult, calculate_explanation rfl hresult ?_⟩
  intro tokens x htokens hx
  have hplaced : tokenize (trim "7-(-(5%))".toList) =
      .ok [⟨.number (NumberLiteral.value ⟨['7'], [], none⟩), 0⟩, ⟨.minus, 1⟩, ⟨.opening, 2⟩,
        ⟨.minus, 3⟩, ⟨.opening, 4⟩, ⟨.number (NumberLiteral.value ⟨['5'], [], none⟩), 5⟩,
        ⟨.percent, 6⟩, ⟨.closing, 7⟩, ⟨.closing, 8⟩] := by decide +kernel
  cases htokens.symm.trans hplaced
  cases hx
  show Expr.Every _ (.binary .sub (.number _) (.negation (.percent (.number _))))
  simp [Expr.EnclosesPercent, Expr.endsWithPercent]

/-- Not every explanation repeats the result: the percent sign of an operand in parentheses may be
read as that of a whole quotient. -/
theorem explanation_ambiguous :
    ¬ ∀ (unit : AngleUnit) (entry : String) (v : Binary64),
      (calculate .machine unit entry).result = .ok v →
        (calculate .machine unit (calculate .machine unit entry).trace.expression).Repeats v := by
  intro h
  have hquotient := h .degrees "100/(4%)" (.ofNat 2500) (by decide +kernel)
  revert hquotient
  decide +kernel

end PocketCalc
