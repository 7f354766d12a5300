import Mathlib.Data.List.Basic
import PocketCalc.Proofs.Token.Cut

/-!
# Where one lexeme ends and the next one starts

A lexeme goes on into the text behind it only from its last character to the first one there.
`MayJoin` lists the pairs of characters between which this can happen. A text that is cut as a whole
is cut in the same way before any text that it does not join (`IsCut.before`), so that the tokens of
two such texts are those of the first, followed by those of the second.

In the other direction a cut is taken apart at its last piece (`IsCut.exists_last`), which shows what
a joining character does to it.
-/

namespace PocketCalc

open NumberLiteral (Spells SpellsMantissa IsExponentLetter)

/-- A lexeme that ends with `c` may go on with `d`: a word with a letter, and a number with a digit,
a point, or the letter of an exponent. -/
def MayJoin (c d : Char) : Prop :=
  c.isAlpha = true ∧ d.isAlpha = true ∨
    (c.isDigit = true ∨ c = '.') ∧ (d.isDigit = true ∨ d = '.' ∨ IsExponentLetter d)

variable {position : ℕ} {text rest after : List Char} {token : Option Token}
  {tokens : List PlacedToken}

/-- A number ends with a digit, or with the point of a mantissa that has no exponent. -/
theorem NumberLiteral.Spells.exists_getLast? {n : NumberLiteral} (h : Spells text n) :
    ∃ c ∈ text.getLast?, c.isDigit = true ∨ c = '.' ∧ n.exponent = none := by
  have hlast (before : List Char) {ds : List Char} (hne : ds ≠ [])
      (hds : ∀ c ∈ ds, c.isDigit = true) : ∃ c ∈ (before ++ ds).getLast?, c.isDigit = true :=
    ⟨ds.getLast hne, by simp [List.getLast?_eq_some_getLast hne], hds _ (List.getLast_mem hne)⟩
  obtain @⟨mantissa, whole, fraction, letters, exponent, hm, he⟩ := h
  cases he with
  | none =>
    rw [List.append_nil]
    cases hm with
    | whole hne hdigits =>
      obtain ⟨c, hc, hd⟩ := hlast [] hne hdigits
      exact ⟨c, hc, .inl hd⟩
    | point _ _ hfraction =>
      by_cases hne : fraction = []
      · subst hne
        exact ⟨'.', by simp, .inr ⟨rfl, rfl⟩⟩
      · obtain ⟨c, hc, hd⟩ := hlast (whole ++ ['.']) hne hfraction
        rw [List.append_assoc] at hc
        exact ⟨c, hc, .inl hd⟩
  | @some letter sign _ _ _ _ hne hdigits =>
    obtain ⟨c, hc, hd⟩ := hlast (mantissa ++ letter :: sign) hne hdigits
    rw [List.append_assoc, List.cons_append] at hc
    exact ⟨c, hc, .inl hd⟩

/-- A lexeme is cut off before any text that it does not join. -/
theorem IsLexeme.cutsOff (h : IsLexeme text token)
    (hjoin : ∀ c ∈ text.getLast?, ∀ d ∈ rest.head?, ¬ MayJoin c d) : CutsOff text token rest := by
  rcases h with hb | hs | ⟨hne, hletters⟩ | hn
  · exact .blank hb
  · exact .symbol hs
  · obtain ⟨c, cs, rfl⟩ := List.exists_cons_of_ne_nil hne
    refine .word (hletters c (by simp)) (fun d hd => hletters d (by simp [hd])) fun d hd => ?_
    have hlast := hletters _ (List.getLast_mem hne)
    rw [← Bool.not_eq_true]
    intro ha
    exact hjoin _ (List.getLast?_eq_some_getLast _) d hd (.inl ⟨hlast, ha⟩)
  · obtain ⟨c, hc, hlast⟩ := hn.exists_getLast?
    refine .number hn fun d hd => ?_
    have hstart : ¬ (d.isDigit = true ∨ d = '.' ∨ IsExponentLetter d) := fun h =>
      hjoin c hc d hd (.inr ⟨hlast.imp_right And.left, h⟩)
    simp only [not_or, Bool.not_eq_true] at hstart
    exact ⟨hstart.1, hstart.2.1, fun _ => hstart.2.2⟩

/-- Of the text behind a piece, only the first character decides whether the piece is cut off. -/
theorem CutsOff.congr_head {rest' : List Char} (h : CutsOff text token rest)
    (hhead : rest'.head? = rest.head?) : CutsOff text token rest' := by
  rw [cutsOff_iff] at h ⊢
  unfold NumberLiteral.Ends at h ⊢
  rwa [hhead]

/-- Of the text behind a cut, only the first character matters to it. -/
theorem IsCut.congr_head {after' : List Char} (h : IsCut position text after tokens)
    (hhead : after'.head? = after.head?) : IsCut position text after' tokens := by
  induction h with
  | nil => exact .nil
  | cons hpiece _ ih =>
    refine .cons (hpiece.congr_head ?_) (ih hhead)
    rw [List.head?_append, List.head?_append, hhead]

/-- A text that is cut as a whole is cut in the same way before any text that it does not join. -/
theorem IsCut.before (h : IsCut position text [] tokens)
    (hjoin : ∀ c ∈ text.getLast?, ∀ d ∈ after.head?, ¬ MayJoin c d) :
    IsCut position text after tokens := by
  generalize hnil : ([] : List Char) = after' at h
  induction h with
  | nil => exact .nil
  | @cons position piece token text _ tokens hpiece _ ih =>
    subst hnil
    rcases text with _ | ⟨c, cs⟩
    · -- The last piece is the one that could join the text behind.
      rw [List.append_nil] at hjoin
      exact .cons (hpiece.isLexeme.cutsOff hjoin) (ih nofun rfl)
    · refine .cons (hpiece.congr_head rfl) (ih (fun d hd => hjoin d ?_) rfl)
      exact List.mem_getLast?_append_of_mem_getLast? hd

/-- The cut of no text has no tokens. -/
theorem IsCut.eq_nil (h : IsCut position [] after tokens) : tokens = [] := by
  generalize ht : [] = text at h
  rcases h with _ | ⟨hpiece, -⟩
  · rfl
  · obtain ⟨c, cs, rfl, -⟩ := hpiece.isLexeme.exists_cons
    cases ht

/-- A cut of a text ends with a last piece, which stands behind a cut of the text before it. -/
theorem IsCut.exists_last (h : IsCut position text after tokens) (hne : text ≠ []) :
    ∃ before piece token tokens', text = before ++ piece ∧
      tokens = tokens' ++ token.toList.map (⟨·, position + before.length⟩) ∧
      IsCut position before (piece ++ after) tokens' ∧ CutsOff piece token after := by
  induction h with
  | nil => exact absurd rfl hne
  | @cons position piece token text after tokens hpiece hcut ih =>
    rcases eq_or_ne text [] with rfl | htext
    · obtain rfl := hcut.eq_nil
      exact ⟨[], piece, token, [], by simp, by simp, .nil, by simpa using hpiece⟩
    · obtain ⟨before, last, token', tokens', rfl, rfl, hbefore, hlast⟩ := ih htext
      rw [List.append_assoc] at hpiece
      refine ⟨piece ++ before, last, token', _, by simp, ?_, .cons hpiece hbefore, hlast⟩
      rw [List.append_assoc, List.length_append, Nat.add_assoc]

/-- A word of one letter is written with one character. -/
theorem IsLexeme.length_eq_one {name : String} (h : IsLexeme text (some (.word name)))
    (hname : name.length = 1) : text.length = 1 := by
  cases h with
  | symbol => rfl
  | word => simpa using hname

/-- If a text and a character behind it are cut into the tokens of the text and a word of one letter,
then the text is cut into its tokens before that character. -/
theorem IsCut.before_last {d : Char} {name : String} {n : ℕ}
    (h : IsCut position (text ++ [d]) [] (tokens ++ [⟨.word name, n⟩])) (hname : name.length = 1)
    (hd : isBlank d = false) : IsCut position text [d] tokens := by
  obtain ⟨before, piece, token, tokens', htext, htokens, hbefore, hpiece⟩ := h.exists_last (by simp)
  rcases token with _ | token
  · -- A piece without a token is a blank.
    cases hpiece.isLexeme with
    | blank hb =>
      obtain ⟨-, hlast⟩ := List.append_inj' htext rfl
      cases hlast
      rw [hb] at hd
      cases hd
  · obtain ⟨rfl, htoken⟩ := List.append_inj' htokens rfl
    simp only [Option.toList_some, List.map_cons, List.map_nil, List.cons.injEq,
      PlacedToken.mk.injEq, and_true] at htoken
    obtain ⟨rfl, -⟩ := htoken
    obtain ⟨c, rfl⟩ := List.length_eq_one_iff.mp (hpiece.isLexeme.length_eq_one hname)
    obtain ⟨rfl, hlast⟩ := List.append_inj' htext rfl
    cases hlast
    exact hbefore

/-- Where a piece is cut off, no letter stands behind a letter and no letter of an exponent behind a
point. -/
theorem CutsOff.not_joined {c d : Char} (h : CutsOff text token (d :: rest))
    (hc : c ∈ text.getLast?) :
    ¬ (c.isAlpha = true ∧ d.isAlpha = true) ∧ ¬ (c = '.' ∧ IsExponentLetter d) := by
  cases h.isLexeme with
  | blank hb =>
    cases hc
    refine ⟨fun ha => ?_, ?_⟩
    · simp [(isBlank_spec hb).1] at ha
    · rintro ⟨rfl, -⟩
      exact absurd hb (by decide)
  | symbol hs =>
    cases hc
    obtain ⟨-, -, ha, -, hp⟩ := symbolSpellings_spec _ hs
    exact ⟨fun h => by simp [ha] at h, fun h => hp h.1⟩
  | word hne hletters =>
    refine ⟨fun ha => ?_, ?_⟩
    · obtain ⟨x, xs, rfl⟩ := List.exists_cons_of_ne_nil hne
      simp [h.isAlpha_head? hletters d rfl] at ha
    · rintro ⟨rfl, -⟩
      exact absurd (hletters '.' (List.mem_of_mem_getLast? hc)) (by decide)
  | @number _ n hn =>
    obtain ⟨c', hc', hlast⟩ := hn.exists_getLast?
    cases Option.mem_unique hc hc'
    refine ⟨fun ha => ?_, ?_⟩
    · obtain ⟨-, -, hdigit, hpoint⟩ := isAlpha_spec ha.1
      rcases hlast with h | ⟨h, -⟩
      · simp [hdigit] at h
      · exact hpoint h
    · rintro ⟨rfl, he⟩
      have hexponent := (hlast.resolve_left (by decide)).2
      exact (h.separated n hn d rfl).2 hexponent he

end PocketCalc
