import PocketCalc.Proofs.Token.NumberLiteral

/-!
# How number literals are spelled

`NumberLiteral.Spells` is the grammar of number literals: digits with at most one point, and then
perhaps an exponent, which has a letter, perhaps a sign, and digits. Several texts may spell one
literal, as `1` and `1.` do.

The scanner follows this grammar to the last character that fits. `scan_append` says that it reads a
spelling up to any text that does not go on with it (`Ends`), and `exists_of_scan` that it reads
nothing else. Where it fails, a mantissa has been read (`exists_mantissa`).
-/

namespace PocketCalc

/-- The characters that all pass a test are taken off a text, up to one that does not. -/
theorem span_append {p : Char → Bool} {cs rest : List Char} (h : ∀ c ∈ cs, p c = true)
    (hrest : ∀ c ∈ rest.head?, p c = false) :
    (cs ++ rest).takeWhile p = cs ∧ (cs ++ rest).dropWhile p = rest := by
  rw [List.takeWhile_append_of_pos h, List.dropWhile_append_of_pos h]
  rcases rest with _ | ⟨c, rest⟩
  · simp
  · simp [hrest c rfl]

/-- Behind the characters that pass a test stands none that does. -/
theorem head?_dropWhile (p : Char → Bool) (cs : List Char) :
    ∀ c ∈ (cs.dropWhile p).head?, p c = false := by
  intro c hc
  have h := List.head?_dropWhile_not p cs
  rwa [Option.mem_def.mp hc] at h

namespace NumberLiteral

/-- The text spells these digits before the point and these behind it. -/
inductive SpellsMantissa : List Char → List Char → List Char → Prop
  /-- Digits without a point. -/
  | whole {whole} : whole ≠ [] → (∀ c ∈ whole, c.isDigit = true) → SpellsMantissa whole whole []
  /-- A point, with digits on at least one side of it. -/
  | point {whole fraction} : whole ≠ [] ∨ fraction ≠ [] → (∀ c ∈ whole, c.isDigit = true) →
      (∀ c ∈ fraction, c.isDigit = true) →
      SpellsMantissa (whole ++ '.' :: fraction) whole fraction

/-- The text spells the sign of an exponent; the flag says whether it is a minus sign. -/
inductive SpellsSign : List Char → Bool → Prop
  /-- No sign. -/
  | none : SpellsSign [] false
  /-- A plus sign. -/
  | plus : SpellsSign ['+'] false
  /-- A minus sign. -/
  | minus : SpellsSign ['-'] true

/-- The text spells an exponent, or is empty without one. -/
inductive SpellsExponent : List Char → Option LiteralExponent → Prop
  /-- No exponent. -/
  | none : SpellsExponent [] none
  /-- The letter of an exponent, a sign or none, and digits. -/
  | some {letter sign negative digits} : letter = 'e' ∨ letter = 'E' → SpellsSign sign negative →
      digits ≠ [] → (∀ c ∈ digits, c.isDigit = true) →
      SpellsExponent (letter :: (sign ++ digits)) (some ⟨negative, digits⟩)

/-- The text spells the literal. -/
inductive Spells : List Char → NumberLiteral → Prop
  /-- A mantissa and its exponent. -/
  | mk {mantissa whole fraction letters exponent} : SpellsMantissa mantissa whole fraction →
      SpellsExponent letters exponent → Spells (mantissa ++ letters) ⟨whole, fraction, exponent⟩

/-- The character is the letter of an exponent. -/
def IsExponentLetter (c : Char) : Prop := c = 'e' ∨ c = 'E'

/-- The text behind a literal does not go on with it: no digit follows, no point, and no letter of an
exponent unless there is one already. -/
def Ends (n : NumberLiteral) (rest : List Char) : Prop :=
  ∀ c ∈ rest.head?, c.isDigit = false ∧ c ≠ '.' ∧ (n.exponent = none → ¬ IsExponentLetter c)

variable {t rest cs : List Char} {n : NumberLiteral}

/-- A digit is no letter of an exponent. -/
theorem IsExponentLetter.isDigit {c : Char} (h : IsExponentLetter c) : c.isDigit = false := by
  rcases h with rfl | rfl <;> decide

/-- A mantissa has nothing but digits and a point. -/
theorem SpellsMantissa.isDigit_or_eq_point {whole fraction : List Char}
    (h : SpellsMantissa t whole fraction) : ∀ c ∈ t, c.isDigit = true ∨ c = '.' := by
  cases h with
  | whole _ hwhole => exact fun c hc => .inl (hwhole c hc)
  | point _ hwhole hfraction =>
    simp only [List.mem_append, List.mem_cons]
    rintro c (hc | rfl | hc)
    · exact .inl (hwhole c hc)
    · exact .inr rfl
    · exact .inl (hfraction c hc)

/-- A spelling starts with a digit, or with a point before a digit. -/
theorem Spells.startsNumber (h : Spells t n) :
    ∃ c cs, t = c :: cs ∧ ∀ rest, startsNumber c (cs ++ rest) = true := by
  rcases h with ⟨hm, -⟩
  rcases hm with ⟨hne, hdigits⟩ | ⟨hne, hwhole, hfraction⟩
  · obtain ⟨c, cs, rfl⟩ := List.exists_cons_of_ne_nil hne
    exact ⟨c, _, rfl, fun rest => startsNumber_of_isDigit (hdigits c (List.mem_cons_self ..)) _⟩
  · rename_i whole fraction _ _
    rcases whole with _ | ⟨c, whole⟩
    · obtain ⟨d, ds, rfl⟩ := List.exists_cons_of_ne_nil (hne.resolve_left (by simp))
      refine ⟨'.', _, rfl, fun rest => ?_⟩
      simp [NumberLiteral.startsNumber, hfraction d (List.mem_cons_self ..)]
    · exact ⟨c, _, rfl, fun rest => startsNumber_of_isDigit (hwhole c (List.mem_cons_self ..)) _⟩

/-- A written literal is spelled by its text. -/
theorem IsWritten.spells (h : n.IsWritten) : Spells n.text n := by
  obtain ⟨whole, fraction, exponent⟩ := n
  obtain ⟨hwhole, hne, hfraction, hexponent⟩ := h
  have he : SpellsExponent (exponentText ⟨whole, fraction, exponent⟩) exponent := by
    rcases exponent with _ | ⟨negative, digits⟩
    · exact .none
    · obtain ⟨hne, hdigits⟩ := hexponent _ rfl
      rcases negative with _ | _
      · exact .some (.inl rfl) .none hne hdigits
      · exact .some (.inl rfl) .minus hne hdigits
  rw [text, ← List.append_assoc]
  refine .mk ?_ he
  -- A point is written only before digits.
  dsimp only at hwhole hne hfraction ⊢
  split
  · next h0 =>
    rw [h0, List.append_nil]
    exact .whole hne hwhole
  · exact .point (.inl hne) hwhole hfraction

/-- An exponent is scanned up to a text that does not go on with it. -/
theorem scanExponent_append {letters : List Char} {exponent : Option LiteralExponent}
    (h : SpellsExponent letters exponent) (hdigit : ∀ c ∈ rest.head?, c.isDigit = false)
    (hletter : exponent = none → ∀ c ∈ rest.head?, ¬ IsExponentLetter c) :
    scanExponent (letters ++ rest) = some (exponent, rest) := by
  rcases h with _ | ⟨hl, hsign, hne, hdigits⟩
  · rcases rest with _ | ⟨c, rest⟩
    · rfl
    · exact if_neg (hletter rfl c rfl)
  · rename_i letter sign negative digits
    -- The digits do not start with a sign, so that only the sign of the spelling is read as one.
    have hs : scanSign (sign ++ (digits ++ rest)) = (negative, digits ++ rest) := by
      obtain ⟨d, ds, rfl⟩ := List.exists_cons_of_ne_nil hne
      have hd := hdigits d (List.mem_cons_self ..)
      rcases hsign with _ | _ | _
      · simp only [List.nil_append, List.cons_append, scanSign]
        split <;> simp_all
      · rfl
      · rfl
    obtain ⟨htake, hdrop⟩ := span_append hdigits hdigit
    rw [List.cons_append, List.append_assoc, scanExponent, if_pos hl, scanExponentDigits, hs]
    dsimp only
    rw [htake, hdrop, List.isEmpty_eq_false_iff.mpr hne]
    rfl

/-- A text goes on with a point if that is its first character. -/
theorem startsWithPoint_iff : startsWithPoint cs = true ↔ '.' ∈ cs.head? := by
  rcases cs with _ | ⟨c, cs⟩
  · simp [startsWithPoint]
  · unfold startsWithPoint
    split <;> simp_all

/-- A spelling is scanned up to a text that does not go on with it. -/
theorem scan_append (h : Spells t n) (hrest : n.Ends rest) :
    scan (t ++ rest) = some (n, rest) := by
  rcases h with ⟨hm, he⟩
  rename_i mantissa whole fraction letters exponent
  have hexp : scanExponent (letters ++ rest) = some (exponent, rest) :=
    scanExponent_append he (fun c hc => (hrest c hc).1) fun h c hc => (hrest c hc).2.2 h
  have hpoint : startsWithPoint rest = false := by
    rw [← Bool.not_eq_true, startsWithPoint_iff]
    exact fun h => (hrest '.' h).2.1 rfl
  -- Behind the digits of the mantissa stands the exponent or the rest.
  have hhead : ∀ c ∈ (letters ++ rest).head?, c.isDigit = false ∧ c ≠ '.' := by
    rcases he with _ | ⟨hl, -, -, -⟩
    · exact fun c hc => ⟨(hrest c hc).1, (hrest c hc).2.1⟩
    · rintro c ⟨⟩
      exact ⟨IsExponentLetter.isDigit hl, by rcases hl with rfl | rfl <;> decide⟩
  rw [scan, List.append_assoc]
  rcases hm with ⟨-, hdigits⟩ | ⟨-, hwhole, hfraction⟩
  · obtain ⟨htake, hdrop⟩ := span_append hdigits fun c hc => (hhead c hc).1
    have hfrac : scanFraction (letters ++ rest) = ([], letters ++ rest) := by
      unfold scanFraction
      split <;> simp_all
    rw [htake, hdrop, hfrac]
    simp [hexp, hpoint]
  · have hdot : ∀ c ∈ ('.' :: (fraction ++ (letters ++ rest))).head?, c.isDigit = false := by
      rintro c ⟨⟩
      rfl
    obtain ⟨htake, hdrop⟩ := span_append hwhole hdot
    obtain ⟨htake', hdrop'⟩ := span_append hfraction fun c hc => (hhead c hc).1
    rw [List.append_assoc, List.cons_append, htake, hdrop, scanFraction, htake', hdrop']
    simp [hexp, hpoint]

/-- A number starts with a digit, or with a point before a digit. -/
theorem startsNumber_iff {c : Char} : startsNumber c cs = true ↔
    c.isDigit = true ∨ c = '.' ∧ ∃ d ds, cs = d :: ds ∧ d.isDigit = true := by
  rcases cs with _ | ⟨d, ds⟩ <;> simp [NumberLiteral.startsNumber]

/-- Where a number starts, the scanner splits a mantissa off, and its digits end there. -/
theorem exists_mantissa {c : Char} (hc : startsNumber c cs = true) :
    ∃ mantissa whole fraction after, c :: cs = mantissa ++ after ∧
      SpellsMantissa mantissa whole fraction ∧ (∀ d ∈ after.head?, d.isDigit = false) ∧
      (c :: cs).takeWhile Char.isDigit = whole ∧
      scanFraction ((c :: cs).dropWhile Char.isDigit) = (fraction, after) := by
  have hall (cs : List Char) : ∀ d ∈ cs.takeWhile Char.isDigit, d.isDigit = true :=
    fun d hd => List.mem_takeWhile_imp hd
  have hsplit := List.takeWhile_append_dropWhile (p := Char.isDigit) (l := c :: cs)
  rcases startsNumber_iff.mp hc with hdigit | ⟨rfl, d, ds, rfl, hd⟩
  · have hne : (c :: cs).takeWhile Char.isDigit ≠ [] := by simp [hdigit]
    unfold scanFraction
    split
    · next rest hrest =>
      refine ⟨_, _, _, _, ?_, .point (.inl hne) (hall _) (hall rest), head?_dropWhile _ rest, rfl,
        rfl⟩
      rw [List.append_assoc, List.cons_append, List.takeWhile_append_dropWhile, ← hrest, hsplit]
    · exact ⟨_, _, _, _, hsplit.symm, .whole hne (hall _), head?_dropWhile _ _, rfl, rfl⟩
  · -- Nothing stands before the point, so that the digit behind it makes the mantissa.
    refine ⟨_, _, _, _, ?_, .point (.inr ?_) (hall _) (hall (d :: ds)),
      head?_dropWhile _ (d :: ds), rfl, rfl⟩
    · simp
    · simp [hd]

/-- What is scanned as a sign spells it. -/
theorem exists_scanSign (cs : List Char) :
    ∃ sign, cs = sign ++ (scanSign cs).2 ∧ SpellsSign sign (scanSign cs).1 := by
  unfold scanSign
  split
  · exact ⟨['+'], rfl, .plus⟩
  · exact ⟨['-'], rfl, .minus⟩
  · exact ⟨[], rfl, .none⟩

/-- What is scanned as an exponent spells it, and the rest does not go on with it. -/
theorem exists_of_scanExponent {after : List Char} {exponent : Option LiteralExponent}
    (hdigit : ∀ d ∈ after.head?, d.isDigit = false)
    (h : scanExponent after = some (exponent, rest)) :
    ∃ letters, after = letters ++ rest ∧ SpellsExponent letters exponent ∧
      ∀ d ∈ rest.head?, d.isDigit = false ∧ (exponent = none → ¬ IsExponentLetter d) := by
  unfold scanExponent at h
  split at h
  · cases h
    exact ⟨[], rfl, .none, by simp⟩
  · next c cs =>
    split at h
    · next hc =>
      obtain ⟨⟨e, rest'⟩, he, hp⟩ := Option.map_eq_some_iff.mp h
      cases hp
      unfold scanExponentDigits at he
      dsimp only at he
      split at he
      · cases he
      · next hne =>
        cases he
        obtain ⟨sign, hcs, hsign⟩ := exists_scanSign cs
        rw [List.isEmpty_iff] at hne
        refine ⟨_, ?_, .some hc hsign hne fun d hd => List.mem_takeWhile_imp hd,
          fun d hd => ⟨head?_dropWhile _ _ d hd, by simp⟩⟩
        rw [List.cons_append, List.append_assoc, List.takeWhile_append_dropWhile, ← hcs]
    · next hc =>
      cases h
      refine ⟨[], rfl, .none, fun d hd => ⟨hdigit d hd, fun _ => ?_⟩⟩
      cases hd
      exact hc

/-- What the scanner reads is a spelling of the literal, and the rest does not go on with it. -/
theorem exists_of_scan {c : Char} (hc : startsNumber c cs = true)
    (h : scan (c :: cs) = some (n, rest)) : ∃ t, c :: cs = t ++ rest ∧ Spells t n ∧ n.Ends rest := by
  obtain ⟨mantissa, whole, fraction, after, hsplit, hm, hdigit, hwhole, hfraction⟩ :=
    exists_mantissa hc
  rw [scan, hwhole, hfraction] at h
  dsimp only at h
  split at h
  · cases h
  · next exponent rest' he =>
    split at h
    · cases h
    · next hpoint =>
      cases h
      obtain ⟨letters, hafter, hletters, hends⟩ := exists_of_scanExponent hdigit he
      refine ⟨mantissa ++ letters, ?_, .mk hm hletters, fun d hd => ⟨(hends d hd).1, ?_,
        (hends d hd).2⟩⟩
      · rw [hsplit, hafter, List.append_assoc]
      · rintro rfl
        exact hpoint (startsWithPoint_iff.mpr hd)

/-- One more digit behind a spelling gives another one. -/
theorem Spells.append_digit (h : Spells t n) {d : Char} (hd : d.isDigit = true) :
    ∃ n', Spells (t ++ [d]) n' := by
  have hsnoc {ds : List Char} (h : ∀ c ∈ ds, c.isDigit = true) :
      ∀ c ∈ ds ++ [d], c.isDigit = true := by
    simp only [List.mem_append, List.mem_singleton]
    rintro c (hc | rfl)
    · exact h c hc
    · exact hd
  rcases h with ⟨hm, he⟩
  -- The digit belongs to the last part of the spelling that is there.
  rcases he with _ | ⟨hl, hsign, -, hdigits⟩
  · rcases hm with ⟨-, hdigits⟩ | ⟨-, hwhole, hfraction⟩
    · have h := Spells.mk (.whole (by simp) (hsnoc hdigits)) .none
      exact ⟨_, by simpa using h⟩
    · have h := Spells.mk (.point (.inr (by simp)) hwhole (hsnoc hfraction)) .none
      exact ⟨_, by simpa using h⟩
  · have h := Spells.mk hm (.some hl hsign (by simp) (hsnoc hdigits))
    exact ⟨_, by simpa using h⟩

/-- A text that does not go on with a literal does not do so when it is cut short. -/
theorem Ends.of_append {more left : List Char} (h : n.Ends (more ++ left)) : n.Ends more := by
  rcases more with _ | ⟨c, more⟩
  · exact nofun
  · exact h

/-- A text spells at most one literal, and none that starts it ends before the text does. -/
theorem Spells.eq_of_append {more : List Char} {n' : NumberLiteral} (h : Spells t n)
    (hends : n.Ends more) (h' : Spells (t ++ more) n') : n = n' ∧ more = [] := by
  have hscan := scan_append h hends
  have hscan' := scan_append h' (show n'.Ends [] from nofun)
  rw [List.append_nil, hscan] at hscan'
  simpa using hscan'

end NumberLiteral

end PocketCalc
