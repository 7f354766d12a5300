import PocketCalc.Proofs.Token.Spelling

/-!
# Lexemes

`IsLexeme` lists the lexemes: blanks, symbols, words and numbers. `CutsOff` says which of them is
taken at the front of a text, the longest one, and where a number must not be taken. `Stops` is the
error at a place where no piece can be cut off. None of them mentions the scanner.

`firstLexeme` takes exactly the piece that can be cut off (`CutsOff.firstLexeme_eq`,
`cutsOff_of_firstLexeme`), and fails exactly where there is none (`Stops.firstLexeme_eq`,
`stops_of_firstLexeme`).
-/

namespace PocketCalc

open NumberLiteral (Spells Ends)

/-- The symbols of one character, in every spelling, with their tokens. -/
def symbolSpellings : List (Char × Token) :=
  [('(', .opening), (')', .closing), (',', .comma), ('+', .plus), ('-', .minus), ('−', .minus),
    ('*', .times), ('×', .times), ('/', .divide), ('÷', .divide), ('%', .percent), ('√', .root),
    ('π', .word "pi")]

/-- The text is a lexeme with this token; a blank has none. -/
inductive IsLexeme : List Char → Option Token → Prop
  /-- A blank. -/
  | blank {c} : isBlank c = true → IsLexeme [c] none
  /-- A symbol. -/
  | symbol {c token} : (c, token) ∈ symbolSpellings → IsLexeme [c] (some token)
  /-- A run of ASCII letters, whose case does not count. -/
  | word {letters} : letters ≠ [] → (∀ c ∈ letters, c.isAlpha = true) →
      IsLexeme letters (some (.word (.ofList (letters.map Char.toLower))))
  /-- A number. -/
  | number {text n} : Spells text n → IsLexeme text (some (.number n.value))

/-- The piece is what is cut off a text that goes on with `rest`: the longest lexeme there. Behind a
number stands no point, and behind a number without an exponent no letter of one. -/
structure CutsOff (piece : List Char) (token : Option Token) (rest : List Char) : Prop where
  /-- The piece is a lexeme. -/
  isLexeme : IsLexeme piece token
  /-- No longer lexeme starts with it. -/
  longest : ∀ more left token', rest = more ++ left → IsLexeme (piece ++ more) token' → more = []
  /-- No number runs into a point, or into the letter of an exponent that has no digits. -/
  separated : ∀ n, Spells piece n → ∀ c ∈ rest.head?,
    c ≠ '.' ∧ (n.exponent = none → ¬ NumberLiteral.IsExponentLetter c)

/-- The error where no piece can be cut off a text. -/
inductive Stops (position : ℕ) : List Char → LexicalError → Prop
  /-- No lexeme starts the text. -/
  | character {c cs} : (∀ piece token rest, IsLexeme piece token → c :: cs ≠ piece ++ rest) →
      Stops position (c :: cs) (.unexpectedCharacter c position)
  /-- A number starts the text, and no piece can be cut off. -/
  | number {text n rest} : Spells text n →
      (∀ piece token rest', CutsOff piece token rest' → text ++ rest ≠ piece ++ rest') →
      Stops position (text ++ rest) (.malformedNumber position)

variable {position : ℕ} {c : Char} {cs rest text : List Char} {token : Option Token}
  {e : LexicalError}

/-- A symbol is neither a blank nor a letter nor the start of a number. -/
theorem symbolSpellings_spec : ∀ p ∈ symbolSpellings, Token.ofSymbol? p.1 = some p.2 ∧
    isBlank p.1 = false ∧ p.1.isAlpha = false ∧ p.1.isDigit = false ∧ p.1 ≠ '.' := by
  decide

/-- The spellings are those that are recognised. -/
theorem ofSymbol?_eq_some_iff {symbol : Token} :
    Token.ofSymbol? c = some symbol ↔ (c, symbol) ∈ symbolSpellings := by
  refine ⟨fun h => ?_, fun h => (symbolSpellings_spec _ h).1⟩
  unfold Token.ofSymbol? at h
  split at h
  case h_14 => cases h
  all_goals
    cases h
    decide

/-- The code points of upper-case letters. -/
theorem isUpper_iff : c.isUpper = true ↔ 65 ≤ c.toNat ∧ c.toNat ≤ 90 := by
  show decide ('A'.val ≤ c.val ∧ c.val ≤ 'Z'.val) = true ↔ _
  rw [decide_eq_true_iff]
  exact Iff.rfl

/-- The code points of lower-case letters. -/
theorem isLower_iff : c.isLower = true ↔ 97 ≤ c.toNat ∧ c.toNat ≤ 122 := by
  show (decide ('a'.val ≤ c.val) && decide (c.val ≤ 'z'.val)) = true ↔ _
  rw [Bool.and_eq_true, decide_eq_true_iff, decide_eq_true_iff]
  exact Iff.rfl

/-- The code points of letters. -/
theorem isAlpha_iff : c.isAlpha = true ↔
    65 ≤ c.toNat ∧ c.toNat ≤ 90 ∨ 97 ≤ c.toNat ∧ c.toNat ≤ 122 := by
  show (c.isUpper || c.isLower) = true ↔ _
  rw [Bool.or_eq_true, isUpper_iff, isLower_iff]

/-- A letter is neither a blank nor a symbol nor the start of a number. -/
theorem isAlpha_spec (h : c.isAlpha = true) :
    isBlank c = false ∧ Token.ofSymbol? c = none ∧ c.isDigit = false ∧ c ≠ '.' := by
  have hc := isAlpha_iff.mp h
  refine ⟨?_, ?_, ?_, ?_⟩
  · simp only [isBlank, blankRanges, List.any_cons, List.any_nil, Bool.or_eq_false_iff,
      Bool.and_eq_false_iff, decide_eq_false_iff_not, and_true]
    omega
  · rw [Option.eq_none_iff_forall_ne_some]
    intro symbol hs
    have := (symbolSpellings_spec _ (ofSymbol?_eq_some_iff.mp hs)).2.2.1
    simp_all
  · rw [← Bool.not_eq_true]
    intro hd
    obtain ⟨hlow, hhigh⟩ : 48 ≤ c.toNat ∧ c.toNat ≤ 57 := Char.isDigit_iff_toNat.mp hd
    omega
  · rintro rfl
    revert h
    decide

/-- Only an upper-case letter is changed to another letter, 32 code points above it. -/
theorem toNat_toLower (c : Char) :
    c.toLower.toNat = if c.isUpper then c.toNat + 32 else c.toNat := by
  unfold Char.toLower
  split
  · next h =>
    obtain ⟨hlow, hhigh⟩ : 65 ≤ c.toNat ∧ c.toNat ≤ 90 := h
    rw [if_pos (isUpper_iff.mpr ⟨hlow, hhigh⟩)]
    show (c.val + 32).toNat = c.toNat + 32
    rw [UInt32.toNat_add]
    exact Nat.mod_eq_of_lt (show c.toNat + 32 < 2 ^ 32 by omega)
  · next h => rw [if_neg fun hu => h (isUpper_iff.mp hu)]

/-- A lower-case letter is a letter, and lower case does not change it. -/
theorem isLower_spec (h : c.isLower = true) : c.isAlpha = true ∧ c.toLower = c := by
  have hc := isLower_iff.mp h
  refine ⟨isAlpha_iff.mpr (.inr hc), Char.toNat_inj.mp ?_⟩
  rw [toNat_toLower, if_neg]
  rw [isUpper_iff]
  omega

/-- A letter in lower case is a lower-case letter. -/
theorem isLower_toLower (h : c.isAlpha = true) : c.toLower.isLower = true := by
  rw [isAlpha_iff] at h
  rw [isLower_iff, toNat_toLower]
  split
  · next hu =>
    rw [isUpper_iff] at hu
    omega
  · next hu =>
    rw [isUpper_iff] at hu
    omega

/-- Where a number starts, there is neither a blank nor a symbol nor a letter. -/
theorem startsNumber_spec (h : NumberLiteral.startsNumber c cs = true) :
    isBlank c = false ∧ Token.ofSymbol? c = none ∧ c.isAlpha = false := by
  rcases NumberLiteral.startsNumber_iff.mp h with hd | ⟨rfl, -⟩
  · refine ⟨NumberLiteral.isBlank_of_isDigit hd, NumberLiteral.ofSymbol?_of_isDigit hd, ?_⟩
    rw [← Bool.not_eq_true]
    intro ha
    simp [(isAlpha_spec ha).2.2.1] at hd
  · decide

/-- A letter does not start a number. -/
theorem startsNumber_of_isAlpha (h : c.isAlpha = true) (cs : List Char) :
    NumberLiteral.startsNumber c cs = false := by
  rw [← Bool.not_eq_true]
  intro hn
  simp [(startsNumber_spec hn).2.2] at h

/-- A blank is neither a letter nor the start of a number. -/
theorem isBlank_spec (h : isBlank c = true) :
    c.isAlpha = false ∧ ∀ cs, NumberLiteral.startsNumber c cs = false := by
  refine ⟨?_, fun cs => ?_⟩
  · rw [← Bool.not_eq_true]
    intro ha
    simp [(isAlpha_spec ha).1] at h
  · rw [← Bool.not_eq_true]
    intro hn
    simp [(startsNumber_spec hn).1] at h

/-! ## The first lexeme of a text -/

/-- A blank is taken, without a token. -/
theorem firstLexeme_blank (h : isBlank c = true) :
    firstLexeme position c cs = .ok (none, cs) := by
  rw [firstLexeme, if_pos h]

/-- A symbol is taken. -/
theorem firstLexeme_symbol {symbol : Token} (h : (c, symbol) ∈ symbolSpellings) :
    firstLexeme position c cs = .ok (some symbol, cs) := by
  obtain ⟨hs, hb, -⟩ := symbolSpellings_spec _ h
  simp only at hs hb
  simp [firstLexeme, hb, hs]

/-- A word is taken up to a text that does not start with a letter. -/
theorem firstLexeme_word (hc : c.isAlpha = true) (hcs : ∀ d ∈ cs, d.isAlpha = true)
    (hrest : ∀ d ∈ rest.head?, d.isAlpha = false) :
    firstLexeme position c (cs ++ rest) =
      .ok (some (.word (.ofList ((c :: cs).map Char.toLower))), rest) := by
  obtain ⟨hb, hs, -⟩ := isAlpha_spec hc
  obtain ⟨htake, hdrop⟩ := span_append hcs hrest
  simp [firstLexeme, hb, hs, startsNumber_of_isAlpha hc, hc, htake, hdrop]

/-- A number is taken up to a text that does not go on with it. -/
theorem firstLexeme_number {n : NumberLiteral} (h : Spells (c :: cs) n) (hrest : Ends n rest) :
    firstLexeme position c (cs ++ rest) = .ok (some (.number n.value), rest) := by
  obtain ⟨c', cs', hp, hstart⟩ := h.startsNumber
  cases hp
  obtain ⟨hb, hs, -⟩ := startsNumber_spec (hstart rest)
  have hscan := NumberLiteral.scan_append h hrest
  rw [List.cons_append] at hscan
  simp [firstLexeme, hb, hs, hstart rest, hscan]

/-- What a lexeme starts with. -/
theorem IsLexeme.exists_cons (h : IsLexeme text token) : ∃ c cs, text = c :: cs ∧ ∀ rest,
    isBlank c = true ∨ (∃ symbol, Token.ofSymbol? c = some symbol) ∨ c.isAlpha = true ∨
      NumberLiteral.startsNumber c (cs ++ rest) = true := by
  rcases h with hb | hs | ⟨hne, hletters⟩ | hn
  · exact ⟨_, _, rfl, fun _ => .inl hb⟩
  · exact ⟨_, _, rfl, fun _ => .inr (.inl ⟨_, ofSymbol?_eq_some_iff.mpr hs⟩)⟩
  · obtain ⟨c, cs, rfl⟩ := List.exists_cons_of_ne_nil hne
    exact ⟨c, cs, rfl, fun _ => .inr (.inr (.inl (hletters c (List.mem_cons_self ..))))⟩
  · obtain ⟨c, cs, rfl, hstart⟩ := hn.startsNumber
    exact ⟨c, cs, rfl, fun rest => .inr (.inr (.inr (hstart rest)))⟩

/-- A lexeme of more than one character is a word or a number. -/
theorem IsLexeme.cases_cons (h : IsLexeme (c :: cs) token) :
    cs = [] ∨ (c.isAlpha = true ∧ ∀ d ∈ cs, d.isAlpha = true) ∨ ∃ n, Spells (c :: cs) n := by
  generalize ht : c :: cs = t at h
  rcases h with - | - | ⟨-, hletters⟩ | hn
  · cases ht
    exact .inl rfl
  · cases ht
    exact .inl rfl
  · subst ht
    exact .inr (.inl (List.forall_mem_cons.mp hletters))
  · exact .inr (.inr ⟨_, hn⟩)

/-! ## Pieces that can be cut off -/

/-- A single character that is neither a letter nor the start of a number is cut off whatever
follows. -/
theorem CutsOff.single (h : IsLexeme [c] token) (ha : c.isAlpha = false)
    (hn : ∀ cs, NumberLiteral.startsNumber c cs = false) : CutsOff [c] token rest := by
  have hspells (cs : List Char) (n : NumberLiteral) : ¬ Spells (c :: cs) n := by
    intro h
    obtain ⟨c', cs', hp, hstart⟩ := h.startsNumber
    cases hp
    simpa [hn] using hstart []
  refine ⟨h, ?_, fun n hs => absurd hs (hspells _ n)⟩
  intro more left token' _ hmore
  rcases hmore.cases_cons with h | ⟨h, -⟩ | ⟨n, h⟩
  · simpa using h
  · simp [h] at ha
  · exact absurd h (hspells _ n)

/-- A blank is cut off. -/
theorem CutsOff.blank (h : isBlank c = true) : CutsOff [c] none rest := by
  obtain ⟨ha, hn⟩ := isBlank_spec h
  exact .single (.blank h) ha hn

/-- A symbol is cut off. -/
theorem CutsOff.symbol {symbol : Token} (h : (c, symbol) ∈ symbolSpellings) :
    CutsOff [c] (some symbol) rest := by
  obtain ⟨-, -, ha, hd, hp⟩ := symbolSpellings_spec _ h
  refine .single (.symbol h) ha fun cs => ?_
  rw [← Bool.not_eq_true, NumberLiteral.startsNumber_iff]
  simp_all

/-- A word is cut off before a text that does not start with a letter. -/
theorem CutsOff.word (hc : c.isAlpha = true) (hcs : ∀ d ∈ cs, d.isAlpha = true)
    (hrest : ∀ d ∈ rest.head?, d.isAlpha = false) :
    CutsOff (c :: cs) (some (.word (.ofList ((c :: cs).map Char.toLower)))) rest := by
  have hspells (cs : List Char) (n : NumberLiteral) : ¬ Spells (c :: cs) n := by
    intro h
    obtain ⟨c', cs', hp, hstart⟩ := h.startsNumber
    cases hp
    simpa [startsNumber_of_isAlpha hc] using hstart []
  refine ⟨.word (by simp) (by simpa using ⟨hc, hcs⟩), ?_, fun n hs => absurd hs (hspells _ n)⟩
  rintro (_ | ⟨d, more⟩) left token' rfl hmore
  · rfl
  · have hd : d.isAlpha = false := hrest d rfl
    rcases hmore.cases_cons with h | ⟨-, h⟩ | ⟨n, h⟩
    · simp at h
    · simp [h d (by simp)] at hd
    · exact absurd h (hspells _ n)

/-- A number is cut off before a text that does not go on with it. -/
theorem CutsOff.number {n : NumberLiteral} (h : Spells text n) (hrest : Ends n rest) :
    CutsOff text (some (.number n.value)) rest := by
  obtain ⟨c, cs, rfl, hstart⟩ := h.startsNumber
  refine ⟨.number h, ?_, ?_⟩
  · rintro more left token' rfl hmore
    rcases hmore.cases_cons with h' | ⟨h', -⟩ | ⟨n', h'⟩
    · simp at h'
      exact h'.2
    · simp [startsNumber_of_isAlpha h'] at hstart
    · exact (h.eq_of_append hrest.of_append h').2
  · intro n' h' d hd
    rw [← List.append_nil (c :: cs)] at h'
    obtain ⟨rfl, -⟩ := h.eq_of_append (show n.Ends [] from nofun) h'
    exact (hrest d hd).2

/-- Behind a word that is cut off stands no letter: one more would make a longer word. -/
theorem CutsOff.isAlpha_head? (h : CutsOff (c :: cs) token rest)
    (hletters : ∀ d ∈ c :: cs, d.isAlpha = true) : ∀ d ∈ rest.head?, d.isAlpha = false := by
  intro d hd
  obtain ⟨left, rfl⟩ := List.head?_eq_some_iff.mp hd
  rw [← Bool.not_eq_true]
  intro ha
  have hword : ∀ x ∈ c :: cs ++ [d], x.isAlpha = true := by
    simpa [or_imp, forall_and] using ⟨hletters c (by simp), fun x hx => hletters x (by simp [hx]), ha⟩
  simpa using h.longest [d] left _ rfl (.word (by simp) hword)

/-- A number that is cut off ends there: one more digit would make a longer number. -/
theorem CutsOff.ends {n : NumberLiteral} (h : CutsOff text token rest) (hn : Spells text n) :
    Ends n rest := by
  intro d hd
  refine ⟨?_, h.separated n hn d hd⟩
  obtain ⟨left, rfl⟩ := List.head?_eq_some_iff.mp hd
  rw [← Bool.not_eq_true]
  intro hdigit
  obtain ⟨n', hn'⟩ := hn.append_digit hdigit
  simpa using h.longest [d] left _ rfl (.number hn')

/-- A lexeme is cut off a text exactly if it ends there: no letter stands behind a word, and nothing
that goes on with it behind a number. -/
theorem cutsOff_iff : CutsOff text token rest ↔ IsLexeme text token ∧
    ((∀ d ∈ text, d.isAlpha = true) → ∀ d ∈ rest.head?, d.isAlpha = false) ∧
      ∀ n, Spells text n → Ends n rest := by
  constructor
  · intro h
    obtain ⟨c, cs, rfl, -⟩ := h.isLexeme.exists_cons
    exact ⟨h.isLexeme, h.isAlpha_head?, fun n hn => h.ends hn⟩
  · rintro ⟨hb | hs | ⟨hne, hletters⟩ | hn, hword, hnumber⟩
    · exact .blank hb
    · exact .symbol hs
    · obtain ⟨c, cs, rfl⟩ := List.exists_cons_of_ne_nil hne
      exact .word (hletters c (by simp)) (fun d hd => hletters d (by simp [hd])) (hword hletters)
    · exact .number hn (hnumber _ hn)

/-- What is cut off is the first lexeme. -/
theorem CutsOff.firstLexeme_eq (h : CutsOff (c :: cs) token rest) (position : ℕ) :
    firstLexeme position c (cs ++ rest) = .ok (token, rest) := by
  generalize ht : c :: cs = t at h
  rcases h.isLexeme with hb | hs | ⟨-, hletters⟩ | hn
  · cases ht
    exact firstLexeme_blank hb
  · cases ht
    exact firstLexeme_symbol hs
  · subst ht
    exact firstLexeme_word (hletters c (by simp)) (fun d hd => hletters d (by simp [hd]))
      (h.isAlpha_head? hletters)
  · subst ht
    exact firstLexeme_number hn (h.ends hn)

/-- The first lexeme is cut off. -/
theorem cutsOff_of_firstLexeme (h : firstLexeme position c cs = .ok (token, rest)) :
    ∃ piece, c :: cs = piece ++ rest ∧ CutsOff piece token rest := by
  unfold firstLexeme at h
  split at h
  · next hb =>
    cases h
    exact ⟨[c], rfl, .blank hb⟩
  · split at h
    · next symbol hs =>
      cases h
      exact ⟨[c], rfl, .symbol (ofSymbol?_eq_some_iff.mp hs)⟩
    · split at h
      · next hn =>
        split at h
        · next n rest' hscan =>
          cases h
          obtain ⟨t, ht, hspells, hends⟩ := NumberLiteral.exists_of_scan hn hscan
          exact ⟨t, ht, .number hspells hends⟩
        · cases h
      · split at h
        · next ha =>
          cases h
          refine ⟨c :: cs.takeWhile Char.isAlpha, by simp, .word ha
            (fun d hd => List.mem_takeWhile_imp hd) (head?_dropWhile _ _)⟩
        · cases h

/-- Where there is no first lexeme, no piece can be cut off. -/
theorem stops_of_firstLexeme (h : firstLexeme position c cs = .error e) :
    Stops position (c :: cs) e := by
  have hcut : ∀ piece token rest, CutsOff piece token rest → c :: cs ≠ piece ++ rest := by
    intro piece token rest hpiece hp
    obtain ⟨c', cs', rfl, -⟩ := hpiece.isLexeme.exists_cons
    cases hp
    simp [hpiece.firstLexeme_eq] at h
  unfold firstLexeme at h
  split at h
  · cases h
  · next hb =>
    split at h
    · cases h
    · next hs =>
      split at h
      · next hn =>
        split at h
        · cases h
        · cases h
          -- The mantissa alone is a number that starts the text.
          obtain ⟨mantissa, whole, fraction, after, hsplit, hm, -⟩ :=
            NumberLiteral.exists_mantissa hn
          have hspells := NumberLiteral.Spells.mk hm .none
          rw [List.append_nil] at hspells
          rw [hsplit] at hcut ⊢
          exact .number hspells hcut
      · next hn =>
        split at h
        · cases h
        · next ha =>
          cases h
          refine .character fun piece token rest hlexeme hp => ?_
          obtain ⟨c', cs', rfl, hstart⟩ := hlexeme.exists_cons
          rw [List.cons_append, List.cons.injEq] at hp
          obtain ⟨rfl, rfl⟩ := hp
          simpa [hb, hs, ha, hn] using hstart rest

/-- A text stops a cut with one error at most. -/
theorem Stops.unique {e' : LexicalError} (h : Stops position text e) (h' : Stops position text e') :
    e = e' := by
  generalize ht : text = text' at h'
  rcases h with hnone | ⟨hspells, -⟩
  · rcases h' with - | ⟨hspells', -⟩
    · cases ht
      rfl
    · exact absurd ht (hnone _ _ _ (.number hspells'))
  · rcases h' with hnone' | -
    · exact absurd ht.symm (hnone' _ _ _ (.number hspells))
    · rfl

/-- Where no piece can be cut off, there is no first lexeme. -/
theorem Stops.firstLexeme_eq (h : Stops position (c :: cs) e) :
    firstLexeme position c cs = .error e := by
  rcases hf : firstLexeme position c cs with e' | ⟨token, rest⟩
  · rw [h.unique (stops_of_firstLexeme hf)]
  · obtain ⟨piece, hp, hpiece⟩ := cutsOff_of_firstLexeme hf
    generalize ht : c :: cs = t at h hp
    rcases h with hnone | ⟨-, hnone⟩
    · exact absurd hp (hnone _ _ _ hpiece.isLexeme)
    · exact absurd hp (hnone _ _ _ hpiece)

/-- What is cut off before a text is cut off before its start, too. -/
theorem CutsOff.of_append {piece more left : List Char} (h : CutsOff piece token (more ++ left)) :
    CutsOff piece token more := by
  obtain ⟨hlexeme, hlongest, hseparated⟩ := h
  refine ⟨hlexeme, ?_, ?_⟩
  · rintro more' left' token' rfl
    exact hlongest more' (left' ++ left) token' (List.append_assoc ..)
  · intro n hn c hc
    exact hseparated n hn c (by simp_all)

/-- A place where a cut stops is not the end of the text. -/
theorem Stops.exists_cons (h : Stops position text e) : ∃ c cs, text = c :: cs := by
  rcases h with - | ⟨hspells, -⟩
  · exact ⟨_, _, rfl⟩
  · obtain ⟨c, cs, rfl, -⟩ := hspells.startsNumber
    exact ⟨c, _, rfl⟩

end PocketCalc
