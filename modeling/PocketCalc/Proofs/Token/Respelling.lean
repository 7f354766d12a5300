import PocketCalc.Calculation
import PocketCalc.Proofs.Token.Blanks

/-!
# Other spellings of an entry

A letter may be written in either case, and some symbols have two spellings: `×` and `*`, `÷` and `/`,
`−` and `-`. Only the last two differ in one place, behind the letter of an exponent, where `-` is the
sign of the exponent and `−` is not. `Respelled` relates the spellings of one character, and `Respells`
two texts that are spelled like this character by character.

Such texts have the same lexemes with the same tokens, piece by piece (`IsLexeme.respells`,
`CutsOff.respells`), and a cut stops in both at the same place for the same reason (`Stops.respells`).
So they have the same tokens or the same error (`tokensFrom_eq_of_respells`), and they calculate to the
same (`calculate_eq_of_respells`).
-/

namespace PocketCalc

open NumberLiteral (Spells SpellsExponent IsExponentLetter)

/-- Behind the character `before`, the two characters are spellings of one. -/
inductive Respelled (before : Option Char) : Char → Char → Prop
  /-- The same character. -/
  | same {c} : Respelled before c c
  /-- A letter in either case. -/
  | letter {c d} : c.isAlpha = true → d.isAlpha = true → c.toLower = d.toLower →
      Respelled before c d
  /-- Two spellings of one symbol. The minus signs differ behind the letter of an exponent. -/
  | symbol {c d token} : (c, token) ∈ symbolSpellings → (d, token) ∈ symbolSpellings →
      (token = .minus → ∀ e ∈ before, ¬ IsExponentLetter e) → Respelled before c d

/-- Behind the character `before`, the two texts are spellings of one, character by character. -/
inductive Respells : Option Char → List Char → List Char → Prop
  /-- The empty text. -/
  | nil {before} : Respells before [] []
  /-- Two spellings of the first character, and then of what stands behind it. -/
  | cons {before c d cs ds} : Respelled before c d → Respells (some c) cs ds →
      Respells before (c :: cs) (d :: ds)

variable {before before' : Option Char} {c d : Char} {cs ds u v s text text' rest rest' : List Char}
  {token : Option Token} {tokens : List PlacedToken} {position : ℕ} {e : LexicalError}

/-! ## Spellings of a character -/

/-- Two spellings are of one kind. -/
theorem Respelled.kind (h : Respelled before c d) : isBlank c = isBlank d ∧ c.isDigit = d.isDigit ∧
    (c = '.' ↔ d = '.') ∧ c.isAlpha = d.isAlpha := by
  cases h with
  | same => exact ⟨rfl, rfl, Iff.rfl, rfl⟩
  | letter hc hd _ =>
    obtain ⟨hcb, -, hcd, hcp⟩ := isAlpha_spec hc
    obtain ⟨hdb, -, hdd, hdp⟩ := isAlpha_spec hd
    simp [*]
  | symbol hc hd _ =>
    obtain ⟨-, hcb, hca, hcd, hcp⟩ := symbolSpellings_spec _ hc
    obtain ⟨-, hdb, hda, hdd, hdp⟩ := symbolSpellings_spec _ hd
    simp_all

/-- The letter of an exponent is one in either case. -/
theorem Respelled.isExponentLetter (h : Respelled before c d) (hc : IsExponentLetter c) :
    IsExponentLetter d := by
  have halpha : c.isAlpha = true := by rcases hc with rfl | rfl <;> decide
  cases h with
  | same => exact hc
  | letter _ hd hsame =>
    have hlower : d.toLower = 'e' := by rw [← hsame]; rcases hc with rfl | rfl <;> decide
    have hcode : (if d.isUpper then d.toNat + 32 else d.toNat) = 101 := by
      rw [← toNat_toLower, hlower]
      rfl
    split at hcode
    · exact .inr (Char.toNat_inj.mp (show d.toNat = 69 by omega))
    · exact .inl (Char.toNat_inj.mp hcode)
  | symbol hc' _ _ => simp [(symbolSpellings_spec _ hc').2.2.1] at halpha

/-- Of two spellings, each is one of the other. -/
theorem Respelled.symm (h : Respelled before c d) : Respelled before d c := by
  cases h with
  | same => exact .same
  | letter hc hd hsame => exact .letter hd hc hsame.symm
  | symbol hc hd hminus => exact .symbol hd hc hminus

/-- Whatever is neither a letter nor a symbol has one spelling. -/
theorem Respelled.eq_of_not (h : Respelled before c d) (ha : c.isAlpha = false)
    (hs : Token.ofSymbol? c = none) : d = c := by
  cases h with
  | same => rfl
  | letter hc _ _ => simp [hc] at ha
  | symbol hc _ _ => simp [(symbolSpellings_spec _ hc).1] at hs

/-- The sign of an exponent has one spelling. -/
theorem Respelled.eq_of_sign (h : Respelled before c d) (hletter : ∃ e ∈ before, IsExponentLetter e)
    (hc : c = '+' ∨ c = '-') : d = c := by
  cases h with
  | same => rfl
  | letter ha _ _ => rcases hc with rfl | rfl <;> exact absurd ha (by decide)
  | symbol hcs hds hminus =>
    have htoken := (symbolSpellings_spec _ hcs).1
    rcases hc with rfl | rfl
    · cases htoken
      simpa [symbolSpellings] using hds
    · cases htoken
      obtain ⟨e, he, hexponent⟩ := hletter
      exact absurd hexponent (hminus rfl e he)

/-! ## Spellings of a text -/

/-- Of the character before a text only one thing counts: whether it is the letter of an exponent. -/
theorem Respells.congr_before (h : Respells before cs ds)
    (hbefore : ∀ e ∈ before', IsExponentLetter e → ∃ e ∈ before, IsExponentLetter e) :
    Respells before' cs ds := by
  cases h with
  | nil => exact .nil
  | cons hc hcs =>
    refine .cons ?_ hcs
    cases hc with
    | same => exact .same
    | letter hc hd hsame => exact .letter hc hd hsame
    | symbol hc hd hminus =>
      refine .symbol hc hd fun htoken e he hletter => ?_
      obtain ⟨e', he', hletter'⟩ := hbefore e he hletter
      exact hminus htoken e' he' hletter'

/-- Of two texts with the same spelling, each is one of the other. -/
theorem Respells.symm (h : Respells before cs ds) : Respells before ds cs := by
  induction h with
  | nil => exact .nil
  | @cons before c d cs ds hc _ ih =>
    refine .cons hc.symm (ih.congr_before ?_)
    rintro e ⟨⟩ hletter
    exact ⟨c, rfl, hc.symm.isExponentLetter hletter⟩

/-- Two spellings of a text are equally long. -/
theorem Respells.length_eq (h : Respells before cs ds) : cs.length = ds.length := by
  induction h with
  | nil => rfl
  | cons _ _ ih => rw [List.length_cons, List.length_cons, ih]

/-- A text of two parts is spelled part by part. -/
theorem Respells.exists_append (h : Respells before (u ++ v) s) : ∃ u' v', s = u' ++ v' ∧
    Respells before u u' ∧ ∃ before', Respells before' v v' := by
  induction u generalizing before s with
  | nil => exact ⟨[], s, rfl, .nil, before, h⟩
  | cons c u ih =>
    cases h with
    | cons hc hrest =>
      obtain ⟨u', v', rfl, hu, hv⟩ := ih hrest
      exact ⟨_ :: u', v', rfl, .cons hc hu, hv⟩

/-- What has neither letters nor symbols has one spelling. -/
theorem Respells.eq_of_forall (h : Respells before cs ds)
    (hcs : ∀ c ∈ cs, c.isAlpha = false ∧ Token.ofSymbol? c = none) : ds = cs := by
  induction h with
  | nil => rfl
  | cons hc _ ih =>
    rw [List.forall_mem_cons] at hcs
    rw [ih hcs.2, hc.eq_of_not hcs.1.1 hcs.1.2]

/-- A word is spelled with letters, and in lower case it has one spelling. -/
theorem Respells.word (h : Respells before cs ds) (hcs : ∀ c ∈ cs, c.isAlpha = true) :
    (∀ d ∈ ds, d.isAlpha = true) ∧ ds.map Char.toLower = cs.map Char.toLower := by
  induction h with
  | nil => exact ⟨hcs, rfl⟩
  | @cons before c d cs ds hc _ ih =>
    rw [List.forall_mem_cons] at hcs
    obtain ⟨hletters, hsame⟩ := ih hcs.2
    have hlower : d.toLower = c.toLower := by
      cases hc with
      | same => rfl
      | letter _ _ hsame => exact hsame.symm
      | symbol hc _ _ => simp [(symbolSpellings_spec _ hc).2.2.1] at hcs
    exact ⟨List.forall_mem_cons.mpr ⟨hc.kind.2.2.2 ▸ hcs.1, hletters⟩, by simp [hlower, hsame]⟩

/-! ## Spellings of a lexeme -/

/-- Digits and points have one spelling. -/
theorem Respells.eq_of_digits (h : Respells before cs ds)
    (hcs : ∀ c ∈ cs, c.isDigit = true ∨ c = '.') : ds = cs := by
  refine h.eq_of_forall fun c hc => ?_
  rcases hcs c hc with hdigit | rfl
  · obtain ⟨-, hs, ha⟩ := startsNumber_spec (NumberLiteral.startsNumber_of_isDigit hdigit [])
    exact ⟨ha, hs⟩
  · decide

/-- Another spelling of an exponent spells the same exponent. -/
theorem NumberLiteral.SpellsExponent.respells {exponent : Option LiteralExponent}
    (h : SpellsExponent cs exponent) (hcs : Respells before cs ds) : SpellsExponent ds exponent := by
  cases h with
  | none =>
    cases hcs
    exact .none
  | @some letter sign negative digits hletter hsign hne hdigits =>
    cases hcs with
    | @cons _ _ letter' _ ds hl hrest =>
      -- Behind the letter, the sign and the digits stay as they are.
      have hdigits' : ∀ c ∈ digits, c.isDigit = true ∨ c = '.' := fun c hc => .inl (hdigits c hc)
      have hsame : ds = sign ++ digits := by
        cases hsign with
        | none => exact hrest.eq_of_digits hdigits'
        | _ =>
          cases hrest with
          | cons hc hrest =>
            rw [hc.eq_of_sign ⟨letter, rfl, hletter⟩ (by simp), hrest.eq_of_digits hdigits']
            rfl
      rw [hsame]
      exact .some (hl.isExponentLetter hletter) hsign hne hdigits

/-- Another spelling of a number spells the same number. -/
theorem NumberLiteral.Spells.respells {n : NumberLiteral} (h : Spells text n)
    (htext : Respells before text text') : Spells text' n := by
  cases h with
  | mk hmantissa hexponent =>
    obtain ⟨mantissa', letters', rfl, hm, _, hl⟩ := htext.exists_append
    rw [hm.eq_of_digits hmantissa.isDigit_or_eq_point]
    exact .mk hmantissa (hexponent.respells hl)

/-- Another spelling of a lexeme is a lexeme with the same token. -/
theorem IsLexeme.respells (h : IsLexeme text token) (htext : Respells before text text') :
    IsLexeme text' token := by
  cases h with
  | blank hb =>
    obtain _ | ⟨hc, ⟨⟩⟩ := htext
    exact .blank (hc.kind.1 ▸ hb)
  | @symbol c symbol hs =>
    obtain _ | ⟨hc, ⟨⟩⟩ := htext
    cases hc with
    | same => exact .symbol hs
    | letter ha _ _ => simp [(symbolSpellings_spec _ hs).2.2.1] at ha
    | symbol hcs hds _ =>
      have hsame := (symbolSpellings_spec _ hs).1.symm.trans (symbolSpellings_spec _ hcs).1
      cases hsame
      exact .symbol hds
  | word hne hletters =>
    obtain ⟨hletters', hsame⟩ := htext.word hletters
    rw [← hsame]
    refine .word ?_ hletters'
    rintro rfl
    exact hne (List.length_eq_zero_iff.mp htext.length_eq)
  | number hn => exact .number (hn.respells htext)

/-! ## Spellings of an entry -/

/-- The first characters of two spellings are spellings of one. -/
theorem Respells.exists_head (h : Respells before cs ds) (hd : d ∈ ds.head?) :
    ∃ c ∈ cs.head?, Respelled before c d := by
  cases h with
  | nil => cases hd
  | cons hc _ =>
    cases hd
    exact ⟨_, rfl, hc⟩

/-- What is cut off a text is cut off any other spelling of it. -/
theorem CutsOff.respells {piece piece' : List Char} (h : CutsOff piece token rest)
    (hpiece : Respells before piece piece') (hrest : Respells before' rest rest') :
    CutsOff piece' token rest' := by
  rw [cutsOff_iff] at h ⊢
  obtain ⟨hlexeme, hword, hnumber⟩ := h
  refine ⟨hlexeme.respells hpiece, fun hletters d hd => ?_, fun n hn d hd => ?_⟩
  · obtain ⟨c, hc, hcd⟩ := hrest.exists_head hd
    rw [← hcd.kind.2.2.2]
    exact hword (hpiece.symm.word hletters).1 c hc
  · obtain ⟨c, hc, hcd⟩ := hrest.exists_head hd
    obtain ⟨hdigit, hpoint, hletter⟩ := hnumber n (hn.respells hpiece.symm) c hc
    obtain ⟨-, hkind, hpoint', -⟩ := hcd.kind
    exact ⟨hkind ▸ hdigit, mt hpoint'.mpr hpoint, fun hnone =>
      mt hcd.symm.isExponentLetter (hletter hnone)⟩

/-- A cut of a text is a cut of any other spelling of it, with the same tokens. -/
theorem IsCut.respells {after : List Char} (h : IsCut position text after tokens)
    (hs : Respells before (text ++ after) s) : ∃ text' after', s = text' ++ after' ∧
      text'.length = text.length ∧ IsCut position text' after' tokens ∧
      ∃ before', Respells before' after after' := by
  induction h generalizing before s with
  | nil => exact ⟨[], s, rfl, rfl, .nil, before, hs⟩
  | @cons position piece token text after tokens hpiece _ ih =>
    rw [List.append_assoc] at hs
    obtain ⟨piece', more', rfl, hpiece', before', hmore⟩ := hs.exists_append
    obtain ⟨text', after', rfl, hlength, hcut, hafter⟩ := ih hmore
    refine ⟨piece' ++ text', after', (List.append_assoc ..).symm, ?_, ?_, hafter⟩
    · rw [List.length_append, List.length_append, hlength, hpiece'.length_eq]
    · rw [hpiece'.length_eq] at hcut
      exact .cons (hpiece.respells hpiece' hmore) hcut

/-- Where no piece can be cut off a text, none can be cut off any other spelling of it, for the same
reason. -/
theorem Stops.respells (h : Stops position text e) (hs : Respells before text s) :
    Stops position s e := by
  cases h with
  | @character c cs hnone =>
    cases hs with
    | @cons _ _ d _ ds hc hcs =>
      -- A letter or a symbol would be a lexeme, and any other character has one spelling.
      have halpha : c.isAlpha = false := by
        rw [← Bool.not_eq_true]
        intro ha
        exact hnone [c] _ cs (.word (by simp) (by simpa using ha)) rfl
      have hsymbol : Token.ofSymbol? c = none := by
        rw [Option.eq_none_iff_forall_ne_some]
        intro symbol hsymbol
        exact hnone [c] _ cs (.symbol (ofSymbol?_eq_some_iff.mp hsymbol)) rfl
      obtain rfl := hc.eq_of_not halpha hsymbol
      refine .character fun piece token rest hlexeme hsplit => ?_
      have hback := (Respells.cons hc hcs).symm
      rw [hsplit] at hback
      obtain ⟨piece', rest', hsplit', hpiece, -⟩ := hback.exists_append
      exact hnone piece' token rest' (hlexeme.respells hpiece) hsplit'
  | @number text n rest hspells hnone =>
    obtain ⟨text', rest', rfl, htext, before', hrest⟩ := hs.exists_append
    refine .number (hspells.respells htext) fun piece token left hpiece hsplit => ?_
    have hback := hs.symm
    rw [hsplit] at hback
    obtain ⟨piece', left', hsplit', hpiece', _, hleft⟩ := hback.exists_append
    exact hnone piece' token left' (hpiece.respells hpiece' hleft) hsplit'

/-- Two spellings of a text have the same tokens or the same error. -/
theorem tokensFrom_eq_of_respells (h : Respells before text text') (position : ℕ) :
    tokensFrom position text = tokensFrom position text' := by
  rcases tokensFrom_spec position text with
    ⟨tokens, htokens, hcut⟩ | ⟨e, first, after, tokens, herror, rfl, hcut, hstops⟩
  · rw [← List.append_nil text] at h
    obtain ⟨first', after', rfl, -, hcut', _, hafter⟩ := hcut.respells h
    cases hafter
    rw [htokens, List.append_nil]
    exact (tokensFrom_eq_ok_iff.mpr hcut').symm
  · obtain ⟨first', after', rfl, hlength, hcut', _, hafter⟩ := hcut.respells h
    rw [herror]
    refine (tokensFrom_eq_error_iff.mpr ⟨first', after', tokens, rfl, hcut', ?_⟩).symm
    rw [hlength]
    exact hstops.respells hafter

/-- Two spellings of an entry have the same tokens or the same error. -/
theorem tokenize_eq_of_respells (h : Respells before text text') : tokenize text = tokenize text' := by
  rw [tokenize, tokenize, h.length_eq, tokensFrom_eq_of_respells h]

/-- Blanks at the start of a text are dropped off any spelling of it. -/
theorem Respells.dropWhile_isBlank (h : Respells before cs ds) :
    ∃ before', Respells before' (cs.dropWhile isBlank) (ds.dropWhile isBlank) := by
  induction h with
  | nil => exact ⟨none, .nil⟩
  | @cons before c d cs ds hc hcs ih =>
    rw [List.dropWhile_cons, List.dropWhile_cons, ← hc.kind.1]
    split
    · exact ih
    · exact ⟨before, .cons hc hcs⟩

/-- As many blanks are dropped off the end of a text as of any spelling of it. -/
theorem Respells.length_trimEnd_eq (h : Respells before cs ds) :
    (trimEnd cs).length = (trimEnd ds).length := by
  have hblanks : cs.map isBlank = ds.map isBlank := by
    induction h with
    | nil => rfl
    | cons hc _ ih => rw [List.map_cons, List.map_cons, hc.kind.1, ih]
  have hlength (cs : List Char) :
      (trimEnd cs).length = ((cs.map isBlank).reverse.dropWhile id).length := by
    rw [← List.map_reverse, List.dropWhile_map, List.length_map, trimEnd, List.length_reverse]
    rfl
  rw [hlength, hlength, hblanks]

/-- Two spellings of an entry have the same tokens without the blanks around it. -/
theorem tokenize_trim_eq_of_respells (h : Respells before text text') :
    tokenize (trim text) = tokenize (trim text') := by
  obtain ⟨before', hdrop⟩ := h.dropWhile_isBlank
  rw [tokenize, tokenize, trim, trim, hdrop.length_trimEnd_eq, tokensFrom_trimEnd,
    tokensFrom_trimEnd, tokensFrom_eq_of_respells hdrop]

/-- An entry may be spelled with letters in either case and with either spelling of a symbol, but for
the minus sign behind the letter of an exponent: it has the same tokens in the same places or the same
error, and its calculation has the same result, display and trace. -/
theorem calculate_eq_of_respells {entry entry' : String}
    (h : Respells none entry.toList entry'.toList) :
    tokenize entry.toList = tokenize entry'.toList ∧ ∀ (A : Arithmetic) (unit : AngleUnit),
      calculate A unit entry = calculate A unit entry' ∧
        displayOf A unit entry = displayOf A unit entry' := by
  refine ⟨tokenize_eq_of_respells h, fun A unit => ?_⟩
  have hcalculate : calculate A unit entry = calculate A unit entry' := by
    unfold calculate
    rw [tokenize_trim_eq_of_respells h]
  exact ⟨hcalculate, congrArg Calculation.display hcalculate⟩

/-- Letters change their case, as the letter of an exponent and in a word, and both operators their
spelling. -/
theorem calculate_eq_of_respells_product :
    Respells none "2E3−Pi×4".toList "2e3-pI*4".toList ∧
      tokenize "2E3−Pi×4".toList = tokenize "2e3-pI*4".toList ∧
        ∀ (A : Arithmetic) (unit : AngleUnit),
          calculate A unit "2E3−Pi×4" = calculate A unit "2e3-pI*4" ∧
            displayOf A unit "2E3−Pi×4" = displayOf A unit "2e3-pI*4" := by
  have hminus : Respelled (some '3') '−' '-' :=
    .symbol (show ('−', Token.minus) ∈ symbolSpellings by decide) (by decide)
      (by simp [IsExponentLetter])
  have htimes : Respelled (some 'i') '×' '*' :=
    .symbol (show ('×', Token.times) ∈ symbolSpellings by decide) (by decide) (by simp)
  have hletter (before : Option Char) : Respelled before 'E' 'e' ∧ Respelled before 'P' 'p' ∧
      Respelled before 'i' 'I' :=
    ⟨.letter (by decide) (by decide) (by decide), .letter (by decide) (by decide) (by decide),
      .letter (by decide) (by decide) (by decide)⟩
  have h : Respells none "2E3−Pi×4".toList "2e3-pI*4".toList :=
    .cons .same (.cons (hletter _).1 (.cons .same (.cons hminus (.cons (hletter _).2.1
      (.cons (hletter _).2.2 (.cons htimes (.cons .same .nil)))))))
  exact ⟨h, calculate_eq_of_respells h⟩

/-- Behind the letter of an exponent the minus signs are told apart. -/
example :
    tokenize "1e-5".toList =
        .ok [⟨.number (NumberLiteral.value ⟨['1'], [], some ⟨true, ['5']⟩⟩), 0⟩] ∧
      tokenize "1e−5".toList = .error (.malformedNumber 0) := by
  decide +kernel

end PocketCalc
