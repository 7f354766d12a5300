import PocketCalc.Proofs.Display

/-!
# Texts that are cut into given tokens

`Writes text after ts` says that a text, with `after` behind it, is cut into the pieces of the tokens
`ts`, wherever it stands in an entry. Such texts are put together from pieces (`Writes.append`). Only
numbers and words can go on, so that a token is found again before any text that ends those two
(`IsBreak`, `Writes.plain`), and a list of texts if something that ends them stands in between
(`Separates`, `Writes.intercalate`).

The tokens have to be plain (`Token.IsPlain`): finite numbers without a sign, names of lower-case
letters, and symbols. The lexer makes no others but infinite numbers (`IsCut.isLexed`). So the list of
tokens that explains a calculation is read back as these tokens (`tokenize_textOfAll`).
-/

namespace PocketCalc

variable {text after more : List Char} {ts us : List Token} {token : Token} {c : Char}

/-! ## Plain tokens -/

/-- The text is a word of lower-case letters. -/
def IsName (name : String) : Prop := name ≠ "" ∧ name.toList.all Char.isLower = true

instance : DecidablePred IsName := fun _ => inferInstanceAs (Decidable (_ ∧ _))

/-- The token is written as it is read: a finite number without a sign, a name, or a symbol. -/
def Token.IsPlain : Token → Prop
  | number v => v.isFinite = true ∧ ∃ a, v = .signed false a
  | word name => IsName name
  | _ => True

/-- The token is one that the lexer makes: a number without a sign, a name, or a symbol. -/
def Token.IsLexed : Token → Prop
  | number v => ∃ a, v = .signed false a
  | word name => IsName name
  | _ => True

/-- A lexeme has the token of one. -/
theorem IsLexeme.isLexed (h : IsLexeme text (some token)) : token.IsLexed := by
  rcases h with - | hs | ⟨hne, hletters⟩ | hn
  · have hsymbols : ∀ p ∈ symbolSpellings, p.2 = .word "pi" ∨ p.2.IsLexed := by
      simp [symbolSpellings, Token.IsLexed]
    rcases hsymbols _ hs with hpi | h
    · rw [show token = .word "pi" from hpi]
      exact (by decide : IsName "pi")
    · exact h
  · refine ⟨by simpa using hne, ?_⟩
    rw [String.toList_ofList, List.all_map, List.all_eq_true]
    exact fun c hc => isLower_toLower (hletters c hc)
  · exact ⟨_, rfl⟩

/-- The tokens of a text are those of lexemes. -/
theorem IsCut.isLexed {position : ℕ} {tokens : List PlacedToken}
    (h : IsCut position text after tokens) : ∀ t ∈ tokens, t.token.IsLexed := by
  induction h with
  | nil => simp
  | @cons position piece token text after tokens hpiece _ ih =>
    cases token with
    | none => exact ih
    | some token => exact List.forall_mem_cons.mpr ⟨hpiece.isLexeme.isLexed, ih⟩

/-- A token of the lexer is plain if it is not an infinite number. -/
theorem Token.IsLexed.isPlain (h : token.IsLexed)
    (hfinite : ∀ v, token = .number v → v.isFinite = true) : token.IsPlain := by
  cases token with
  | number v => exact ⟨hfinite v rfl, h⟩
  | word name => exact h
  | _ => trivial

/-! ## Texts and their tokens -/

/-- Wherever it stands in an entry, the text is cut into the pieces of these tokens if `after`
follows it. -/
def Writes (text after : List Char) (ts : List Token) : Prop :=
  ∀ position, ∃ placed, IsCut position text after placed ∧ placed.map (·.token) = ts

/-- A text that goes on neither with a number nor with a word. -/
def IsBreak (text : List Char) : Prop :=
  ∀ c ∈ text.head?, c.isAlpha = false ∧ c.isDigit = false ∧ c ≠ '.'

/-- No text writes no tokens. -/
theorem Writes.nil : Writes [] after [] := fun _ => ⟨[], .nil, rfl⟩

/-- Two texts that follow each other write the tokens of both. -/
theorem Writes.append (h : Writes text (more ++ after) ts) (h' : Writes more after us) :
    Writes (text ++ more) after (ts ++ us) := by
  intro position
  obtain ⟨placed, hcut, rfl⟩ := h position
  obtain ⟨placed', hcut', rfl⟩ := h' (position + text.length)
  exact ⟨placed ++ placed', hcut.append hcut', List.map_append⟩

/-- A piece writes its token. -/
theorem Writes.piece (h : CutsOff text (some token) after) : Writes text after [token] :=
  fun _ => ⟨_, .single h, rfl⟩

/-- A symbol writes its token before any text. -/
theorem Writes.symbol (h : (c, token) ∈ symbolSpellings) (h' : Writes text after ts) :
    Writes (c :: text) after (token :: ts) :=
  (Writes.piece (.symbol h)).append h'

/-- A space writes nothing. -/
theorem Writes.space (h : Writes text after ts) : Writes (' ' :: text) after ts := by
  intro position
  obtain ⟨placed, hcut, hts⟩ := h (position + 1)
  have hpiece : CutsOff [' '] none (text ++ after) := .blank (by decide)
  exact ⟨_, .cons hpiece hcut, by simpa using hts⟩

/-- A symbol ends numbers and words. -/
theorem IsBreak.symbol (h : (c, token) ∈ symbolSpellings) (text : List Char) :
    IsBreak (c :: text) := by
  obtain ⟨-, -, ha, hd, hp⟩ := symbolSpellings_spec _ h
  rintro c ⟨⟩
  exact ⟨ha, hd, hp⟩

/-- A space ends numbers and words. -/
theorem IsBreak.space (text : List Char) : IsBreak (' ' :: text) := by
  rintro c ⟨⟩
  decide

/-- A finite number without a sign writes its token. -/
theorem Writes.number {a : Magnitude} (ha : (Binary64.signed false a).isFinite = true)
    (hafter : IsBreak after) :
    Writes (Binary64.signed false a).positional.toList after [.number (.signed false a)] := by
  have hrank := (Binary64.isFinite_signed_iff false a).mp ha
  have hends : a.shortest.positionalLiteral.Ends after := by
    intro c hc
    obtain ⟨halpha, hdigit, hpoint⟩ := hafter c hc
    refine ⟨hdigit, hpoint, ?_⟩
    rintro - (rfl | rfl)
    · exact absurd halpha (by decide)
    · exact absurd halpha (by decide)
  rw [Binary64.toList_positional false hrank, ← Magnitude.value_positionalLiteral hrank]
  exact .piece (.number a.shortest.isWritten_positionalLiteral.spells hends)

/-- A name writes its token. -/
theorem Writes.name {name : String} (h : IsName name) (hafter : IsBreak after) :
    Writes name.toList after [.word name] := by
  obtain ⟨hne, hlower⟩ := h
  rw [List.all_eq_true] at hlower
  obtain ⟨c, cs, hcs⟩ : ∃ c cs, name.toList = c :: cs :=
    List.exists_cons_of_ne_nil (by simpa using hne)
  have halpha : ∀ d ∈ c :: cs, d.isAlpha = true := fun d hd =>
    (isLower_spec (hlower d (hcs ▸ hd))).1
  have hsame : (c :: cs).map Char.toLower = c :: cs :=
    (List.map_congr_left fun d hd => (isLower_spec (hlower d (hcs ▸ hd))).2).trans (List.map_id' _)
  have hpiece := CutsOff.word (halpha c (List.mem_cons_self ..))
    (fun d hd => halpha d (List.mem_cons_of_mem _ hd)) fun d hd => (hafter d hd).1
  rw [hsame, ← hcs, String.ofList_toList] at hpiece
  exact .piece hpiece

/-- A plain token is written by its text. -/
theorem Writes.plain (h : token.IsPlain) (hafter : IsBreak after) :
    Writes token.text.toList after [token] := by
  cases token with
  | number v =>
    obtain ⟨hfin, a, rfl⟩ := h
    exact .number hfin hafter
  | word name => exact .name h hafter
  | _ => exact .symbol (by decide) .nil

/-! ## Lists of texts -/

/-- Between two texts, the separator ends the numbers and words of the first one and writes these
tokens before the second one. -/
structure Separates (separator : List Char) (between : List Token) : Prop where
  /-- Numbers and words end before the separator. -/
  isBreak : ∀ text, IsBreak (separator ++ text)
  /-- Its tokens come before those of the text behind it. -/
  writes : ∀ {text after ts}, Writes text after ts →
    Writes (separator ++ text) after (between ++ ts)

/-- A space separates without a token. -/
theorem separates_space : Separates " ".toList [] where
  isBreak := .space
  writes h := h.space

/-- A comma and a space separate with a comma. -/
theorem separates_comma : Separates ", ".toList [.comma] where
  isBreak text := .symbol (show (',', Token.comma) ∈ symbolSpellings by decide) (' ' :: text)
  writes h := .symbol (by decide) h.space

/-- Texts with a separator between them write their tokens with those of the separator between them,
if each of them does before any text that ends it. -/
theorem Writes.intercalate {α : Type} {separator : String} {between : List Token}
    {texts : α → String} {tokens : α → List Token} {xs : List α}
    (hseparator : Separates separator.toList between)
    (h : ∀ x ∈ xs, ∀ after, IsBreak after → Writes (texts x).toList after (tokens x))
    (hafter : IsBreak after) :
    Writes (separator.intercalate (xs.map texts)).toList after
      (between.intercalate (xs.map tokens)) := by
  induction xs with
  | nil => exact .nil
  | cons x xs ih =>
    rw [List.forall_mem_cons] at h
    obtain ⟨hx, hxs⟩ := h
    rcases xs with _ | ⟨y, ys⟩
    · simpa using hx after hafter
    · simp only [List.map_cons, String.intercalate_cons_cons, List.intercalate_cons_cons,
        String.toList_append, List.append_assoc]
      refine (hx _ ?_).append (hseparator.writes (ih hxs))
      rw [List.append_assoc]
      exact hseparator.isBreak _

/-! ## The tokens that explain a calculation -/

/-- With nothing between them, lists of one element each make up the list of these elements. -/
theorem intercalate_nil_map_singleton {α β : Type} (f : α → β) (xs : List α) :
    ([] : List β).intercalate (xs.map fun x => [f x]) = xs.map f := by
  induction xs with
  | nil => rfl
  | cons x xs ih =>
    rcases xs with _ | ⟨y, ys⟩
    · rfl
    · rw [List.map_cons] at ih
      rw [List.map_cons, List.map_cons, List.intercalate_cons_cons, ih]
      rfl

/-- The texts of plain tokens, one space apart, write these tokens. -/
theorem writes_textOfAll {tokens : List PlacedToken} (h : ∀ t ∈ tokens, t.token.IsPlain) :
    Writes (Token.textOfAll tokens).toList [] (tokens.map (·.token)) := by
  have hwrites : Writes (Token.textOfAll tokens).toList []
      (([] : List Token).intercalate (tokens.map fun t => [t.token])) :=
    .intercalate separates_space (fun t ht after hafter => .plain (h t ht) hafter) nofun
  rwa [intercalate_nil_map_singleton] at hwrites

/-- If an entry divides into tokens without an infinite number, the text of these tokens divides into
the same tokens again, wherever they stand in it, unless it is too long for an entry. -/
theorem tokenize_textOfAll {entry : List Char} {tokens : List PlacedToken}
    (htokens : tokenize entry = .ok tokens)
    (hfinite : ∀ v, .number v ∈ tokens.map (·.token) → v.isFinite = true)
    (hlength : (Token.textOfAll tokens).length ≤ maxEntryLength) :
    ∃ tokens', tokenize (Token.textOfAll tokens).toList = .ok tokens' ∧
      tokens'.map (·.token) = tokens.map (·.token) := by
  have hcut := tokensFrom_eq_ok_iff.mp (tokensFrom_of_tokenize htokens)
  have hplain : ∀ t ∈ tokens, t.token.IsPlain := fun t ht =>
    (hcut.isLexed t ht).isPlain fun v hv => hfinite v (hv ▸ List.mem_map_of_mem ht)
  obtain ⟨placed, hplaced, hsame⟩ := writes_textOfAll hplain 0
  refine ⟨placed, ?_, hsame⟩
  rw [tokenize_of_length_le (by rwa [String.length_toList])]
  exact tokensFrom_eq_ok_iff.mpr hplaced

/-- A word in capitals, a scientific literal, the letter `π`, and symbols in other spellings are
printed in one plain form each, which is read back as the same tokens. -/
theorem tokenize_textOfAll_sin :
    let coefficient : Token := .number (NumberLiteral.value ⟨['2'], ['5', '0'], some ⟨true, ['3']⟩⟩)
    let half : Token := .number (NumberLiteral.value ⟨[], ['5'], none⟩)
    let tokens : List PlacedToken := [⟨.word "sin", 0⟩, ⟨.opening, 3⟩, ⟨coefficient, 4⟩,
      ⟨.closing, 11⟩, ⟨.times, 12⟩, ⟨.word "pi", 13⟩, ⟨.percent, 14⟩, ⟨.minus, 15⟩, ⟨half, 16⟩]
    tokenize "SIN(2.50E-3)×π%−.5".toList = .ok tokens ∧
      (∀ v, .number v ∈ tokens.map (·.token) → v.isFinite = true) ∧
      Token.textOfAll tokens = "sin ( 0.0025 ) * pi % - 0.5" ∧
      ∃ tokens', tokenize "sin ( 0.0025 ) * pi % - 0.5".toList = .ok tokens' ∧
        tokens'.map (·.token) = tokens.map (·.token) := by
  intro coefficient half tokens
  have htokens : tokenize "SIN(2.50E-3)×π%−.5".toList = .ok tokens := by decide +kernel
  have hfinite : ∀ v, .number v ∈ tokens.map (·.token) → v.isFinite = true := by
    intro v hv
    have hnumber : v = NumberLiteral.value ⟨['2'], ['5', '0'], some ⟨true, ['3']⟩⟩ ∨
        v = NumberLiteral.value ⟨[], ['5'], none⟩ := by
      simpa [tokens, coefficient, half] using hv
    rcases hnumber with rfl | rfl <;> decide +kernel
  have htext : Token.textOfAll tokens = "sin ( 0.0025 ) * pi % - 0.5" := by decide +kernel
  have hread := tokenize_textOfAll htokens hfinite (by rw [htext]; decide)
  rw [htext] at hread
  exact ⟨htokens, hfinite, htext, hread⟩

end PocketCalc
