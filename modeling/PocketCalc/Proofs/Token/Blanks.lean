import Mathlib.Data.List.DropRight
import PocketCalc.Proofs.Token.Boundary

/-!
# Blanks separate and do nothing else

A blank is a lexeme of its own and stands in no other one, so that whatever stands before it ends
there. A text therefore has the same pieces before a blank as at the end of an entry (`IsCut.before`),
and where it cannot be cut at the end of an entry, it cannot be cut before a blank either, for the same
reason (`Stops.before_blank`). The blanks themselves only move what follows them to the right
(`tokensFrom_blanks`, `tokensFrom_add_of_ok`, `tokensFrom_add_of_error`).

`tokenize_blanks` puts the parts together: two texts with blanks between them have the tokens of the
first and then those of the second, or the first error among them. `tokensFrom_trimEnd` is the case of
blanks at the end.
-/

namespace PocketCalc

open NumberLiteral (Spells)

/-- The token so many characters further to the right. -/
def PlacedToken.shift (n : ℕ) (t : PlacedToken) : PlacedToken :=
  { t with position := n + t.position }

/-- The error so many characters further to the right. -/
def LexicalError.shift (n : ℕ) : LexicalError → LexicalError
  | unexpectedCharacter c position => unexpectedCharacter c (n + position)
  | malformedNumber position => malformedNumber (n + position)
  | inputTooLong limit => inputTooLong limit

variable {n position : ℕ} {b : Char} {text piece rest after u v w : List Char}
  {token : Option Token} {tokens tokens' : List PlacedToken} {e : LexicalError}

/-! ## Texts further to the right -/

/-- A cut further to the right has the same tokens there. -/
theorem IsCut.shift (h : IsCut position text after tokens) (n : ℕ) :
    IsCut (n + position) text after (tokens.map (·.shift n)) := by
  induction h with
  | nil => exact .nil
  | cons hpiece _ ih =>
    rw [List.map_append, List.map_map]
    rw [← Nat.add_assoc] at ih
    exact .cons hpiece ih

/-- A cut that stops further to the right stops for the same reason there. -/
theorem Stops.shift (h : Stops position text e) (n : ℕ) : Stops (n + position) text (e.shift n) := by
  cases h with
  | character hnone => exact .character hnone
  | number hspells hnone => exact .number hspells hnone

/-- A text further to the right has the same tokens there. -/
theorem tokensFrom_add_of_ok (h : tokensFrom position text = .ok tokens) (n : ℕ) :
    tokensFrom (n + position) text = .ok (tokens.map (·.shift n)) := by
  rw [tokensFrom_eq_ok_iff] at h ⊢
  exact h.shift n

/-- A text further to the right has the same error there. -/
theorem tokensFrom_add_of_error (h : tokensFrom position text = .error e) (n : ℕ) :
    tokensFrom (n + position) text = .error (e.shift n) := by
  rw [tokensFrom_eq_error_iff] at h ⊢
  obtain ⟨before, after, tokens, hsplit, hcut, hstops⟩ := h
  refine ⟨before, after, _, hsplit, hcut.shift n, ?_⟩
  rw [Nat.add_assoc]
  exact hstops.shift n

/-! ## Texts before a blank -/

/-- No blank stands in a number. -/
theorem NumberLiteral.Spells.isBlank_eq_false {n : NumberLiteral} (h : Spells text n) :
    ∀ c ∈ text, isBlank c = false := by
  obtain @⟨mantissa, whole, fraction, letters, exponent, hm, he⟩ := h
  have hmantissa : ∀ c ∈ mantissa, isBlank c = false := by
    intro c hc
    rcases hm.isDigit_or_eq_point c hc with hdigit | rfl
    · exact isBlank_of_isDigit hdigit
    · decide
  have hletters : ∀ c ∈ letters, isBlank c = false := by
    cases he with
    | none => exact nofun
    | some hletter hsign _ hdigits =>
      simp only [List.mem_append, List.mem_cons]
      rintro c (rfl | hc | hc)
      · rcases hletter with rfl | rfl <;> decide
      · cases hsign with
        | none => cases hc
        | _ =>
          rw [List.mem_singleton] at hc
          subst hc
          decide
      · exact isBlank_of_isDigit (hdigits c hc)
  simpa only [List.mem_append, or_imp, forall_and] using ⟨hmantissa, hletters⟩

/-- A blank stands in no lexeme but its own. -/
theorem IsLexeme.eq_singleton (h : IsLexeme text token) (hb : isBlank b = true) (hmem : b ∈ text) :
    text = [b] := by
  cases h with
  | blank => rw [List.mem_singleton.mp hmem]
  | symbol => rw [List.mem_singleton.mp hmem]
  | word _ hletters =>
    have hletter := hletters b hmem
    rw [(isBlank_spec hb).1] at hletter
    cases hletter
  | number hspells =>
    rw [hspells.isBlank_eq_false b hmem] at hb
    cases hb

/-- A lexeme that starts a text does not reach a blank behind it. -/
theorem IsLexeme.exists_left (h : IsLexeme piece token) (hb : isBlank b = true)
    (hsplit : text ++ b :: after = piece ++ rest) (hne : text ≠ []) :
    ∃ left, text = piece ++ left ∧ rest = left ++ b :: after := by
  rcases List.append_eq_append_iff.mp hsplit with ⟨more, hpiece, hrest⟩ | ⟨left, htext, hrest⟩
  · rcases more with _ | ⟨c, more⟩
    · exact ⟨[], by simpa using hpiece.symm, by simpa using hrest.symm⟩
    · -- The blank would be inside the lexeme.
      cases hrest
      have hsingle := h.eq_singleton hb (by simp [hpiece])
      have hlength := congrArg List.length (hpiece.symm.trans hsingle)
      rw [List.length_append, List.length_cons, List.length_singleton] at hlength
      exact absurd (List.length_eq_zero_iff.mp (by omega)) hne
  · exact ⟨left, htext, hrest⟩

/-- Where a cut stops at the end of a text, it stops before a blank. -/
theorem Stops.before_blank (h : Stops position text e) (hb : isBlank b = true)
    (after : List Char) : Stops position (text ++ b :: after) e := by
  cases h with
  | @character c cs hnone =>
    refine .character fun piece token rest hlexeme hsplit => ?_
    rw [List.append_eq, ← List.cons_append] at hsplit
    obtain ⟨left, htext, -⟩ := hlexeme.exists_left hb hsplit (by simp)
    exact hnone piece token left hlexeme htext
  | @number text' n rest' hspells hnone =>
    rw [List.append_assoc]
    refine .number hspells fun piece token rest hpiece hsplit => ?_
    obtain ⟨c, cs, rfl, -⟩ := hspells.startsNumber
    rw [← List.append_assoc] at hsplit
    obtain ⟨left, htext, rfl⟩ := hpiece.isLexeme.exists_left hb hsplit (by simp)
    exact hnone piece token left hpiece.of_append htext

/-- A blank joins no lexeme. -/
theorem not_mayJoin_of_isBlank (hb : isBlank b = true) (c : Char) : ¬ MayJoin c b := by
  obtain ⟨ha, hn⟩ := isBlank_spec hb
  rintro (⟨-, h⟩ | ⟨-, h | rfl | h⟩)
  · simp [ha] at h
  · simp [NumberLiteral.isBlank_of_isDigit h] at hb
  · exact absurd hb (by decide)
  · rcases h with rfl | rfl <;> exact absurd hb (by decide)

/-- Before a blank a text has the tokens that it has at the end of an entry. -/
theorem tokensFrom_before_blank_of_ok (h : tokensFrom position u = .ok tokens)
    (hb : isBlank b = true) (v : List Char) : tokensFrom position (u ++ b :: v) =
      (tokens ++ ·) <$> tokensFrom (position + u.length) (b :: v) := by
  rw [tokensFrom_eq_ok_iff] at h
  refine (h.before ?_).tokensFrom_append
  rintro c - d ⟨⟩
  exact not_mayJoin_of_isBlank hb c

/-- Before a blank a text has the error that it has at the end of an entry. -/
theorem tokensFrom_before_blank_of_error (h : tokensFrom position u = .error e)
    (hb : isBlank b = true) (v : List Char) : tokensFrom position (u ++ b :: v) = .error e := by
  rw [tokensFrom_eq_error_iff] at h ⊢
  obtain ⟨before, after, tokens, rfl, hcut, hstops⟩ := h
  obtain ⟨c, cs, rfl⟩ := hstops.exists_cons
  exact ⟨before, c :: cs ++ b :: v, tokens, List.append_assoc .., hcut.congr_head rfl,
    hstops.before_blank hb v⟩

/-- Blanks have no tokens. -/
theorem tokensFrom_blanks (hw : ∀ c ∈ w, isBlank c = true) (position : ℕ) (v : List Char) :
    tokensFrom position (w ++ v) = tokensFrom (position + w.length) v := by
  induction w generalizing position with
  | nil => rfl
  | cons c w ih =>
    rw [List.forall_mem_cons] at hw
    rw [List.cons_append, tokensFrom_of_firstLexeme (firstLexeme_blank hw.1), Nat.add_sub_cancel_left,
      ih hw.2, List.length_cons, Nat.add_right_comm, Nat.add_assoc]
    simp

/-- Blanks at the end of a text do not change its tokens, nor its error. -/
theorem tokensFrom_trimEnd (position : ℕ) (text : List Char) :
    tokensFrom position (trimEnd text) = tokensFrom position text := by
  obtain ⟨w, hw, hsplit⟩ : ∃ w, (∀ c ∈ w, isBlank c = true) ∧ trimEnd text ++ w = text :=
    ⟨text.rtakeWhile isBlank, fun c hc => List.mem_rtakeWhile_imp hc,
      List.rdropWhile_append_rtakeWhile⟩
  conv_rhs => rw [← hsplit]
  rcases w with _ | ⟨b, bs⟩
  · rw [List.append_nil]
  · have hb := hw b (List.mem_cons_self ..)
    rcases htrim : tokensFrom position (trimEnd text) with e | tokens
    · exact (tokensFrom_before_blank_of_error htrim hb bs).symm
    · have hblanks := tokensFrom_blanks hw (position + (trimEnd text).length) []
      rw [List.append_nil, tokensFrom] at hblanks
      rw [tokensFrom_before_blank_of_ok htrim hb, hblanks]
      exact congrArg Except.ok (List.append_nil tokens).symm

/-! ## Two texts with blanks between them -/

/-- Two texts with blanks between them have the tokens of the first text and then those of the second,
further to the right, or else the first error among them. -/
theorem tokenize_blanks (hne : w ≠ []) (hw : w.all isBlank = true)
    (hlength : (u ++ w ++ v).length ≤ maxEntryLength) :
    (∀ e, tokenize u = .error e → tokenize (u ++ w ++ v) = .error e) ∧
      ∀ tokens, tokenize u = .ok tokens →
        (∀ e, tokenize v = .error e →
          tokenize (u ++ w ++ v) = .error (e.shift (u ++ w).length)) ∧
        ∀ tokens', tokenize v = .ok tokens' →
          tokenize (u ++ w ++ v) = .ok (tokens ++ tokens'.map (·.shift (u ++ w).length)) := by
  rw [List.all_eq_true] at hw
  have hu : u.length ≤ maxEntryLength := by simp only [List.length_append] at hlength; omega
  have hv : v.length ≤ maxEntryLength := by simp only [List.length_append] at hlength; omega
  rw [tokenize_of_length_le hlength, tokenize_of_length_le hu, tokenize_of_length_le hv]
  obtain ⟨b, bs, rfl⟩ := List.exists_cons_of_ne_nil hne
  have hb := hw b (List.mem_cons_self ..)
  have hsplit : u ++ b :: bs ++ v = u ++ b :: (bs ++ v) := List.append_assoc ..
  refine ⟨fun e he => ?_, fun tokens ht => ?_⟩
  · rw [hsplit]
    exact tokensFrom_before_blank_of_error he hb _
  · -- Behind the tokens of the first text, the blanks only move the second text.
    have hblanks := tokensFrom_blanks hw (0 + u.length) v
    rw [Nat.zero_add, ← List.length_append, ← Nat.add_zero (u ++ b :: bs).length,
      List.cons_append] at hblanks
    have hjoined := tokensFrom_before_blank_of_ok ht hb (bs ++ v)
    rw [Nat.zero_add, hblanks, ← hsplit] at hjoined
    rw [hjoined]
    refine ⟨fun e he => ?_, fun tokens' ht' => ?_⟩
    · rw [tokensFrom_add_of_error he]
      rfl
    · rw [tokensFrom_add_of_ok ht']
      rfl

/-- A blank keeps two points apart that would otherwise stand in one malformed number, and an exponent
that is open before a blank does not take the digits behind it. -/
theorem tokenize_blanks_points :
    let w := [' ', '\t']
    let number (n : NumberLiteral) : Token := .number n.value
    w ≠ [] ∧ w.all isBlank = true ∧ ("2.".toList ++ w ++ ".5e+3".toList).length ≤ maxEntryLength ∧
      tokenize ("2.".toList ++ w ++ ".5e+3".toList) =
        .ok [⟨number ⟨['2'], [], none⟩, 0⟩, ⟨number ⟨[], ['5'], some ⟨false, ['3']⟩⟩, 4⟩] ∧
      tokenize ("4+2e".toList ++ w ++ "5".toList) = .error (.malformedNumber 2) ∧
      tokenize ("4+".toList ++ w ++ "2e".toList) = .error (.malformedNumber 4) := by
  intro w number
  have hne : w ≠ [] := by decide
  have hw : w.all isBlank = true := by decide
  refine ⟨hne, hw, by decide, ?_, ?_, ?_⟩
  · exact ((tokenize_blanks hne hw (by decide)).2 [⟨number ⟨['2'], [], none⟩, 0⟩]
      (by decide +kernel)).2 [⟨number ⟨[], ['5'], some ⟨false, ['3']⟩⟩, 0⟩] (by decide +kernel)
  · exact (tokenize_blanks hne hw (by decide)).1 _ (by decide +kernel)
  · exact ((tokenize_blanks hne hw (by decide)).2
      [⟨number ⟨['4'], [], none⟩, 0⟩, ⟨.plus, 1⟩] (by decide +kernel)).1
      (.malformedNumber 0) (by decide +kernel)

end PocketCalc
