import PocketCalc.Proofs.Token.Lexeme

/-!
# Cutting an entry into lexemes

`IsCut` is a cut of a text from left to right, with the tokens of its pieces. A text has the tokens
of its cut (`tokensFrom_eq_ok_iff`), and if it has none, then the error of the place where the cut
stops (`tokensFrom_eq_error_iff`). `tokenize_longest_match` puts this together for an entry.
-/

namespace PocketCalc

/-- From a place of the entry on, the text is cut into pieces from left to right, with `after` behind
the last one; their tokens stand where the pieces start. -/
inductive IsCut : ℕ → List Char → List Char → List PlacedToken → Prop
  /-- No text has no pieces. -/
  | nil {position after} : IsCut position [] after []
  /-- A first piece, and a cut of the text behind it. -/
  | cons {position piece token text after tokens} : CutsOff piece token (text ++ after) →
      IsCut (position + piece.length) text after tokens →
      IsCut position (piece ++ text) after (token.toList.map (⟨·, position⟩) ++ tokens)

variable {position : ℕ} {c : Char} {cs rest text after : List Char} {token : Option Token}
  {tokens : List PlacedToken} {e : LexicalError}

/-- Behind its first lexeme a text goes on with the tokens of the rest. -/
theorem tokensFrom_of_firstLexeme (h : firstLexeme position c cs = .ok (token, rest)) :
    tokensFrom position (c :: cs) = (token.toList.map (⟨·, position⟩) ++ ·) <$>
      tokensFrom (position + (cs.length + 1 - rest.length)) rest := by
  rw [tokensFrom]
  split
  · next he => simp [h] at he
  · next he =>
    rw [h] at he
    cases he
    cases tokensFrom (position + (cs.length + 1 - rest.length)) rest <;> rfl

/-- A text has no tokens if it has no first lexeme. -/
theorem tokensFrom_of_firstLexeme_error (h : firstLexeme position c cs = .error e) :
    tokensFrom position (c :: cs) = .error e := by
  rw [tokensFrom]
  split
  · next he => simpa [h] using he.symm
  · next he => simp [h] at he

/-- The tokens of a text with a cut are those of its pieces, before those of the text behind it. -/
theorem IsCut.tokensFrom_append (h : IsCut position text after tokens) :
    tokensFrom position (text ++ after) =
      (tokens ++ ·) <$> tokensFrom (position + text.length) after := by
  induction h with
  | nil => simp
  | @cons position piece token text after tokens hpiece _ ih =>
    obtain ⟨c, cs, rfl, -⟩ := hpiece.isLexeme.exists_cons
    have hlength : (cs ++ (text ++ after)).length + 1 - (text ++ after).length =
        (c :: cs).length := by
      rw [List.length_append, List.length_cons]
      omega
    rw [List.append_assoc, List.cons_append,
      tokensFrom_of_firstLexeme (hpiece.firstLexeme_eq position), hlength, ih,
      List.length_append, Nat.add_assoc]
    simp

/-- A text is cut as a whole, into the pieces of its tokens, or up to the place where it stops. -/
theorem tokensFrom_spec (position : ℕ) (text : List Char) :
    (∃ tokens, tokensFrom position text = .ok tokens ∧ IsCut position text [] tokens) ∨
      ∃ e before after tokens, tokensFrom position text = .error e ∧ text = before ++ after ∧
        IsCut position before after tokens ∧ Stops (position + before.length) after e := by
  induction hn : text.length using Nat.strong_induction_on generalizing position text with
  | _ n ih =>
    rcases text with _ | ⟨c, cs⟩
    · exact .inl ⟨[], by rw [tokensFrom], .nil⟩
    · rcases hf : firstLexeme position c cs with e | ⟨token, rest⟩
      · exact .inr ⟨e, [], c :: cs, [], tokensFrom_of_firstLexeme_error hf, rfl, .nil,
          stops_of_firstLexeme hf⟩
      · obtain ⟨piece, hp, hpiece⟩ := cutsOff_of_firstLexeme hf
        have hrest := length_firstLexeme_le hf
        have hlength := congrArg List.length hp
        rw [List.length_append, List.length_cons] at hlength
        rw [tokensFrom_of_firstLexeme hf, hlength, Nat.add_sub_cancel, hp]
        rcases ih rest.length (by rw [← hn, List.length_cons]; omega) (position + piece.length)
          rest rfl with ⟨tokens, ht, hcut⟩ | ⟨e, before, after, tokens, ht, rfl, hcut, hstops⟩
        · rw [ht]
          exact .inl ⟨_, rfl, .cons (by rwa [List.append_nil]) hcut⟩
        · rw [ht]
          refine .inr ⟨e, piece ++ before, after, _, rfl, (List.append_assoc ..).symm,
            .cons hpiece hcut, ?_⟩
          rwa [List.length_append, ← Nat.add_assoc]

/-- A cut of a text is one with less behind it, too. -/
theorem IsCut.of_append {more : List Char} (h : IsCut position text (after ++ more) tokens) :
    IsCut position text after tokens := by
  generalize ht : after ++ more = after' at h
  induction h with
  | nil => exact .nil
  | cons hpiece _ ih =>
    subst ht
    rw [← List.append_assoc] at hpiece
    exact .cons hpiece.of_append (ih rfl)

/-- A piece alone is a cut. -/
theorem IsCut.single (h : CutsOff text token after) :
    IsCut position text after (token.toList.map (⟨·, position⟩)) := by
  have hcut : IsCut position (text ++ []) after _ := .cons h .nil
  rwa [List.append_nil, List.append_nil] at hcut

/-- A cut goes on behind its last piece. -/
theorem IsCut.append {more : List Char} {tokens' : List PlacedToken}
    (h : IsCut position text (more ++ after) tokens)
    (h' : IsCut (position + text.length) more after tokens') :
    IsCut position (text ++ more) after (tokens ++ tokens') := by
  generalize ht : more ++ after = after' at h
  induction h with
  | nil => simpa using h'
  | @cons position piece token text after' tokens hpiece _ ih =>
    subst ht
    rw [List.append_assoc, List.append_assoc]
    refine .cons (by rwa [List.append_assoc]) (ih ?_ rfl)
    rwa [Nat.add_assoc, ← List.length_append]

/-- The tokens of a cut stand one behind the other. -/
theorem IsCut.pairwise_position (h : IsCut position text after tokens) :
    (∀ t ∈ tokens, position ≤ t.position) ∧ tokens.Pairwise (·.position < ·.position) := by
  induction h with
  | nil => simp
  | @cons position piece token text after tokens hpiece _ ih =>
    obtain ⟨c, cs, rfl, -⟩ := hpiece.isLexeme.exists_cons
    obtain ⟨hle, hpair⟩ := ih
    rw [List.length_cons] at hle
    have hlt : ∀ t ∈ tokens, position < t.position := fun t ht => by have := hle t ht; omega
    rcases token with _ | token
    · exact ⟨fun t ht => (hlt t ht).le, hpair⟩
    · simpa [hpair] using ⟨fun t ht => (hlt t ht).le, hlt⟩

/-- A text has the tokens of its cut, and no others. -/
theorem tokensFrom_eq_ok_iff :
    tokensFrom position text = .ok tokens ↔ IsCut position text [] tokens := by
  constructor
  · intro h
    rcases tokensFrom_spec position text with ⟨tokens', ht, hcut⟩ | ⟨e, _, _, _, ht, -⟩
    · rw [h] at ht
      cases ht
      exact hcut
    · simp [h] at ht
  · intro h
    have happend := h.tokensFrom_append
    rw [List.append_nil, tokensFrom] at happend
    rw [happend]
    exact congrArg Except.ok (List.append_nil tokens)

/-- A text has the error of the place where its cut stops, and no other. -/
theorem tokensFrom_eq_error_iff : tokensFrom position text = .error e ↔
    ∃ before after tokens, text = before ++ after ∧ IsCut position before after tokens ∧
      Stops (position + before.length) after e := by
  constructor
  · intro h
    rcases tokensFrom_spec position text with ⟨_, ht, -⟩ | ⟨e', before, after, tokens, ht, hstops⟩
    · simp [h] at ht
    · rw [h] at ht
      cases ht
      exact ⟨before, after, tokens, hstops⟩
  · rintro ⟨before, after, tokens, rfl, hcut, hstops⟩
    obtain ⟨c, cs, rfl⟩ := hstops.exists_cons
    rw [hcut.tokensFrom_append, tokensFrom_of_firstLexeme_error hstops.firstLexeme_eq]
    rfl

/-- A spelling of a number literal is a single token. -/
theorem tokensFrom_of_spells {n : NumberLiteral} (h : NumberLiteral.Spells text n) (position : ℕ) :
    tokensFrom position text = .ok [⟨.number n.value, position⟩] :=
  tokensFrom_eq_ok_iff.mpr (.single (.number h (show n.Ends [] from nofun)))

/-- A written literal is a single token. -/
theorem tokensFrom_text {n : NumberLiteral} (h : n.IsWritten) (position : ℕ) :
    tokensFrom position n.text = .ok [⟨.number n.value, position⟩] :=
  tokensFrom_of_spells h.spells position

/-- A minus sign before a written literal is a token of its own. -/
theorem tokensFrom_minus_text {n : NumberLiteral} (h : n.IsWritten) (position : ℕ) :
    tokensFrom position ('-' :: n.text) =
      .ok [⟨.minus, position⟩, ⟨.number n.value, position + 1⟩] := by
  have hcut := tokensFrom_eq_ok_iff.mp (tokensFrom_text h (position + 1))
  have hminus : CutsOff ['-'] (some .minus) (n.text ++ []) := .symbol (by decide)
  exact tokensFrom_eq_ok_iff.mpr (.cons hminus hcut)

/-- An entry of at most `maxEntryLength` characters is not refused for its length. -/
theorem tokenize_of_length_le {entry : List Char} (h : entry.length ≤ maxEntryLength) :
    tokenize entry = tokensFrom 0 entry :=
  if_neg (Nat.not_lt.mpr h)

/-- An entry that has tokens is not refused for its length. -/
theorem tokensFrom_of_tokenize {entry : List Char} (h : tokenize entry = .ok tokens) :
    tokensFrom 0 entry = .ok tokens := by
  unfold tokenize at h
  split at h
  · cases h
  · exact h

/-- An entry of at most `maxEntryLength` characters has tokens exactly if it can be cut into lexemes
by longest match, and then has the tokens of its pieces, each where its piece starts. Otherwise the
error stands at the first place where no piece can be cut off: an unexpected character there starts
no lexeme, or a malformed number starts there. The text before that place is cut into its tokens. -/
theorem tokenize_longest_match (entry : List Char) (h : entry.length ≤ maxEntryLength) :
    (∀ tokens, tokenize entry = .ok tokens ↔ IsCut 0 entry [] tokens) ∧
      (∀ tokens, tokenize entry = .ok tokens → tokens.Pairwise (·.position < ·.position)) ∧
      (∀ e, tokenize entry = .error e ↔ ∃ before after tokens, entry = before ++ after ∧
        IsCut 0 before after tokens ∧ tokenize before = .ok tokens ∧
        Stops before.length after e) := by
  rw [tokenize_of_length_le h]
  refine ⟨fun tokens => tokensFrom_eq_ok_iff, fun tokens ht => ?_, fun e => ?_⟩
  · exact (tokensFrom_eq_ok_iff.mp ht).pairwise_position.2
  · rw [tokensFrom_eq_error_iff]
    simp only [Nat.zero_add]
    constructor
    · rintro ⟨before, after, tokens, rfl, hcut, hstops⟩
      refine ⟨before, after, tokens, rfl, hcut, ?_, hstops⟩
      -- What was cut before the place does not depend on what follows it.
      rw [List.length_append] at h
      rw [tokenize_of_length_le (by omega)]
      rw [← List.nil_append after] at hcut
      exact tokensFrom_eq_ok_iff.mpr hcut.of_append
    · rintro ⟨before, after, tokens, hentry, hcut, -, hstops⟩
      exact ⟨before, after, tokens, hentry, hcut, hstops⟩

/-- An entry with a signed exponent, with letters of both cases and with points on either side of
digits is cut; one in which a minus sign that is no ASCII sign follows an `e` stops there. -/
theorem tokenize_longest_match_signs :
    IsCut 0 "2E+3−.5×Pi 7.".toList []
        [⟨.number (NumberLiteral.value ⟨['2'], [], some ⟨false, ['3']⟩⟩), 0⟩, ⟨.minus, 4⟩,
          ⟨.number (NumberLiteral.value ⟨[], ['5'], none⟩), 5⟩, ⟨.times, 7⟩, ⟨.word "pi", 8⟩,
          ⟨.number (NumberLiteral.value ⟨['7'], [], none⟩), 11⟩] ∧
      ∃ before after tokens, "12+1e−5".toList = before ++ after ∧ IsCut 0 before after tokens ∧
        tokenize before = .ok tokens ∧ Stops before.length after (.malformedNumber 3) :=
  ⟨((tokenize_longest_match "2E+3−.5×Pi 7.".toList (by decide)).1 _).mp (by decide +kernel),
    ((tokenize_longest_match "12+1e−5".toList (by decide)).2.2 _).mp (by decide +kernel)⟩

end PocketCalc
