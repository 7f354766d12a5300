import Mathlib.Tactic.IntervalCases
import PocketCalc.Proofs.Keypad.Deletion
import PocketCalc.Proofs.Token.Blanks

/-!
# Entering a number with the keys

Each character of a number literal has a key (`InsertKey.ofLiteral`): digits, the point and the letter
of an exponent have their own, and the sign of an exponent is on the key of an operation. The first
three put their character right behind the entry (`insertAll_ofLiteral`), so that a literal without a
sign is entered as it is written and read as one number.

The key of an operation sets spaces around its sign. Behind the letter of an exponent that blank ends
the number before the exponent has digits (`tokensFrom_open_exponent`), and a literal with a signed
exponent becomes a malformed number.
-/

namespace PocketCalc

open NumberLiteral (Spells SpellsMantissa IsExponentLetter)

/-- The key for a character of a number literal. -/
def InsertKey.ofLiteral (c : Char) : InsertKey :=
  if c = '.' then point
  else if c = 'e' ∨ c = 'E' then exponent
  else if c = '+' then operator .add
  else if c = '-' then operator .sub
  else digit (Fin.ofNat 10 (c.toNat - '0'.toNat))

variable {position : ℕ} {c : Char} {text entry : List Char}

/-- No lexeme is a number with the letter of an exponent behind it. -/
theorem not_isLexeme_open_exponent {n : NumberLiteral} {token : Option Token} (h : Spells text n)
    (hc : IsExponentLetter c) : ¬ IsLexeme (text ++ [c]) token := by
  intro hlexeme
  obtain ⟨d, ds, rfl, hstart⟩ := h.startsNumber
  rw [List.cons_append] at hlexeme
  rcases hlexeme.cases_cons with hnil | ⟨ha, -⟩ | ⟨n', hn'⟩
  · simp at hnil
  · simp [startsNumber_of_isAlpha ha] at hstart
  · -- A number does not end with a letter.
    obtain ⟨last, hlast, hend⟩ := hn'.exists_getLast?
    rw [← List.cons_append, List.getLast?_concat] at hlast
    cases hlast
    rcases hend with hdigit | ⟨rfl, -⟩
    · simp [hc.isDigit] at hdigit
    · rcases hc with hc | hc <;> exact absurd hc (by decide)

/-- A number without an exponent that the letter of one follows is malformed at the end of an entry. -/
theorem tokensFrom_open_exponent {whole fraction : List Char}
    (hm : SpellsMantissa text whole fraction) (hc : IsExponentLetter c) :
    tokensFrom position (text ++ [c]) = .error (.malformedNumber position) := by
  have hspells := Spells.mk hm .none
  rw [List.append_nil] at hspells
  have hcut : ∀ piece token rest, CutsOff piece token rest → text ++ [c] ≠ piece ++ rest := by
    intro piece token rest hpiece hsplit
    -- The piece is the number: a shorter one would not be the longest, and a longer one is none.
    obtain ⟨rfl, rfl⟩ : piece = text ∧ rest = [c] := by
      rcases List.append_eq_append_iff.mp hsplit with ⟨more, hp, hmore⟩ | ⟨left, ht, hrest⟩
      · rcases List.append_eq_singleton_iff.mp hmore.symm with ⟨rfl, rfl⟩ | ⟨rfl, rfl⟩
        · exact ⟨by rw [hp, List.append_nil], rfl⟩
        · rw [hp] at hpiece
          exact absurd hpiece.isLexeme (not_isLexeme_open_exponent hspells hc)
      · rw [ht] at hspells
        obtain rfl := hpiece.longest left [c] _ hrest (.number hspells)
        exact ⟨by rw [ht, List.append_nil], hrest⟩
    exact (hpiece.separated _ hspells c rfl).2 rfl hc
  rw [tokensFrom_eq_error_iff]
  exact ⟨[], text ++ [c], [], rfl, .nil, .number hspells hcut⟩

/-- The key of a digit or a point puts that character right behind the entry. -/
theorem insertKey_ofLiteral (hc : c.isDigit = true ∨ c = '.') :
    insertKey (.ofLiteral c) entry = entry ++ [c] := by
  rcases hc with hdigit | rfl
  · obtain ⟨hlow, hhigh⟩ : 48 ≤ c.toNat ∧ c.toNat ≤ 57 := Char.isDigit_iff_toNat.mp hdigit
    have hkey : (InsertKey.ofLiteral c).spacing = .asTyped ∧
        (InsertKey.ofLiteral c).text.toList = [c] := by
      rw [← Char.ofNat_toNat c]
      generalize c.toNat = n at hlow hhigh
      interval_cases n <;> exact ⟨rfl, by decide⟩
    rw [insertKey, hkey.1, hkey.2]
    exact List.append_nil _
  · exact List.append_nil _

/-- The key of the letter of an exponent puts an `e` right behind the entry. -/
theorem insertKey_ofLiteral_letter (hc : IsExponentLetter c) :
    insertKey (.ofLiteral c) entry = entry ++ ['e'] := by
  rcases hc with rfl | rfl <;> exact List.append_nil _

/-- Keys of digits and points put their characters right behind the entry. -/
theorem insertAll_ofLiteral (h : ∀ c ∈ text, c.isDigit = true ∨ c = '.') :
    insertAll (text.map .ofLiteral) entry = entry ++ text := by
  induction text generalizing entry with
  | nil => exact (List.append_nil entry).symm
  | cons c text ih =>
    rw [List.forall_mem_cons] at h
    rw [List.map_cons, insertAll, List.foldl_cons, insertKey_ofLiteral h.1, ← insertAll, ih h.2,
      List.append_assoc, List.singleton_append]

/-- The keys of a literal are pressed one after the other. -/
theorem insertAll_map_append (text' : List Char) :
    insertAll ((text ++ text').map .ofLiteral) entry =
      insertAll (text'.map .ofLiteral) (insertAll (text.map .ofLiteral) entry) := by
  rw [List.map_append, insertAll, List.foldl_append, ← insertAll, ← insertAll]

/-- The key of an operation sets spaces around its sign. -/
theorem insertKey_operator (op : BinaryOp) (hc : c ∈ entry.getLast?) (hblank : isBlank c = false) :
    insertKey (.operator op) entry =
      entry ++ ' ' :: ((InsertKey.operator op).text.toList ++ [' ']) := by
  have hne : entry.isEmpty = false := by
    rw [List.isEmpty_eq_false_iff]
    rintro rfl
    cases hc
  show Spacing.spaced.prepare entry ++ (InsertKey.operator op).text.toList ++ [' '] = _
  simp only [Spacing.prepare]
  rw [trimEnd_eq_self hc hblank, hne, List.append_assoc]
  exact List.append_assoc ..

/-- The keys of a mantissa and of the letter behind it leave both in an empty entry. -/
theorem insertAll_open_exponent {whole fraction : List Char}
    (hm : SpellsMantissa text whole fraction) (hc : IsExponentLetter c) :
    insertAll ((text ++ [c]).map .ofLiteral) [] = text ++ ['e'] := by
  rw [insertAll_map_append, insertAll_ofLiteral hm.isDigit_or_eq_point]
  exact insertKey_ofLiteral_letter hc

/-- The key of a sign behind the letter of an exponent sets a blank between them. -/
theorem insertKey_sign (hc : c = '+' ∨ c = '-') :
    insertKey (.ofLiteral c) (entry ++ ['e']) = entry ++ ['e'] ++ ' ' :: [c, ' '] := by
  have hlast : 'e' ∈ (entry ++ ['e']).getLast? := List.getLast?_concat
  rcases hc with rfl | rfl
  · exact insertKey_operator .add hlast (by decide)
  · exact insertKey_operator .sub hlast (by decide)

/-- Digits and points are no signs. -/
theorem not_mem_sign (h : ∀ c ∈ text, c.isDigit = true ∨ c = '.') : '+' ∉ text ∧ '-' ∉ text :=
  ⟨fun hc => absurd (h _ hc) (by decide), fun hc => absurd (h _ hc) (by decide)⟩

/-- The keys of a literal with an exponent leave it in an empty entry with an `e` for the letter, and
with what the key of its sign puts there. -/
theorem insertAll_exponent {whole fraction sign digits : List Char}
    (hm : SpellsMantissa text whole fraction) (hc : IsExponentLetter c)
    (hdigits : ∀ d ∈ digits, d.isDigit = true) :
    insertAll ((text ++ c :: (sign ++ digits)).map .ofLiteral) [] =
      insertAll (sign.map .ofLiteral) (text ++ ['e']) ++ digits := by
  rw [List.append_cons, insertAll_map_append, insertAll_open_exponent hm hc, insertAll_map_append,
    insertAll_ofLiteral fun d hd => .inl (hdigits d hd)]

/-- The keys of a literal without a sign leave a spelling of it in an empty entry. -/
theorem spells_insertAll {n : NumberLiteral} (h : Spells text n) (hplus : '+' ∉ text)
    (hminus : '-' ∉ text) : Spells (insertAll (text.map .ofLiteral) []) n ∧
      (insertAll (text.map .ofLiteral) []).length = text.length := by
  obtain @⟨mantissa, whole, fraction, letters, exponent, hm, he⟩ := h
  cases he with
  | none =>
    rw [List.append_nil, insertAll_ofLiteral hm.isDigit_or_eq_point]
    exact ⟨by simpa using Spells.mk hm .none, rfl⟩
  | @some letter sign negative digits hletter hsign hne hdigits =>
    cases hsign with
    | none =>
      rw [insertAll_exponent hm hletter hdigits]
      show Spells (mantissa ++ ['e'] ++ digits) _ ∧ (mantissa ++ ['e'] ++ digits).length = _
      rw [← List.append_cons]
      exact ⟨.mk hm (.some (.inl rfl) .none hne hdigits), by simp⟩
    | plus => exact absurd (by simp) hplus
    | minus => exact absurd (by simp) hminus

/-- The keys of a literal with a sign leave its mantissa and the letter of its exponent in an empty
entry, with a blank behind them. -/
theorem insertAll_signed {n : NumberLiteral} (h : Spells text n) (hsign : '+' ∈ text ∨ '-' ∈ text) :
    (insertAll (text.map .ofLiteral) []).length = text.length + 2 ∧
      ∃ mantissa whole fraction rest, SpellsMantissa mantissa whole fraction ∧
        insertAll (text.map .ofLiteral) [] = mantissa ++ ['e'] ++ ' ' :: rest := by
  obtain @⟨mantissa, whole, fraction, letters, exponent, hm, he⟩ := h
  obtain ⟨hplus, hminus⟩ := not_mem_sign hm.isDigit_or_eq_point
  cases he with
  | none =>
    rw [List.append_nil] at hsign
    exact absurd hsign (not_or.mpr ⟨hplus, hminus⟩)
  | @some letter sign negative digits hletter hspells hne hdigits =>
    -- Behind the letter, the key of the sign sets a blank before and behind it.
    have hsigned {x : Char} (hx : x = '+' ∨ x = '-') :
        insertAll ((mantissa ++ letter :: ([x] ++ digits)).map .ofLiteral) [] =
          mantissa ++ ['e'] ++ ' ' :: x :: ' ' :: digits := by
      rw [insertAll_exponent hm hletter hdigits]
      show insertKey (.ofLiteral x) (mantissa ++ ['e']) ++ digits = _
      rw [insertKey_sign hx, List.append_assoc]
      rfl
    cases hspells with
    | none =>
      obtain ⟨hplus', hminus'⟩ := not_mem_sign fun d hd => .inl (hdigits d hd)
      have hne' : '+' ≠ letter ∧ '-' ≠ letter := by rcases hletter with rfl | rfl <;> decide
      simp [hplus, hminus, hplus', hminus', hne'] at hsign
    | plus =>
      rw [hsigned (.inl rfl)]
      exact ⟨by simp; omega, mantissa, whole, fraction, _, hm, rfl⟩
    | minus =>
      rw [hsigned (.inr rfl)]
      exact ⟨by simp; omega, mantissa, whole, fraction, _, hm, rfl⟩

namespace Session

variable (A : Arithmetic) {s : Session} {n : NumberLiteral}

/-- Pressing the keys of a number literal one after the other on an empty entry enters this number,
and nothing else, unless the literal has a sign: then the entry is a malformed number. -/
theorem tokenize_pressAll_literal (hs : s.entry = "") (h : Spells text n)
    (hlength : text.length + 2 ≤ maxEntryLength) :
    tokenize (pressAll A s ((text.map .ofLiteral).map .insert)).entry.toList =
      if '+' ∈ text ∨ '-' ∈ text then .error (.malformedNumber 0)
      else .ok [⟨.number n.value, 0⟩] := by
  rw [entry_pressAll_insert, hs]
  show tokenize (insertAll (text.map .ofLiteral) []) = _
  by_cases hsign : '+' ∈ text ∨ '-' ∈ text
  · obtain ⟨hlen, mantissa, whole, fraction, rest, hm, hentry⟩ := insertAll_signed h hsign
    rw [if_pos hsign, tokenize_of_length_le (by omega), hentry]
    exact tokensFrom_before_blank_of_error (tokensFrom_open_exponent hm (.inl rfl)) (by decide) rest
  · obtain ⟨hplus, hminus⟩ := not_or.mp hsign
    obtain ⟨hspells, hlen⟩ := spells_insertAll h hplus hminus
    rw [if_neg hsign, tokenize_of_length_le (by omega)]
    exact tokensFrom_of_spells hspells 0

/-- A point without digits behind it and the letter of an exponent are entered as they stand. -/
theorem tokenize_pressAll_literal_point :
    let text := ['7', '.', 'E', '0', '2']
    let n : NumberLiteral := ⟨['7'], [], some ⟨false, ['0', '2']⟩⟩
    ({} : Session).entry = "" ∧ Spells text n ∧ text.length + 2 ≤ maxEntryLength ∧
      (pressAll .machine {} ((text.map .ofLiteral).map .insert)).entry = "7.e02" ∧
      tokenize (pressAll .machine {} ((text.map .ofLiteral).map .insert)).entry.toList =
        .ok [⟨.number n.value, 0⟩] := by
  intro text n
  have hspells : Spells text n :=
    .mk (@SpellsMantissa.point ['7'] [] (.inl (by decide)) (List.all_eq_true.mp rfl) nofun)
      (.some (.inr rfl) .none (by decide) (List.all_eq_true.mp rfl))
  exact ⟨rfl, hspells, by decide, by decide +kernel,
    (tokenize_pressAll_literal .machine rfl hspells (by decide)).trans (if_neg (by decide))⟩

/-- Not every number literal can be entered with the keys: the sign of an exponent is set off from its
letter by a space. -/
theorem pressAll_literal_sign : ¬ ∀ (text : List Char) (n : NumberLiteral), Spells text n →
    text.length ≤ 1000 →
      tokenize (pressAll .machine {} ((text.map .ofLiteral).map .insert)).entry.toList =
        .ok [⟨.number n.value, 0⟩] := by
  intro h
  have hspells : Spells ['1', 'e', '-', '5'] ⟨['1'], [], some ⟨true, ['5']⟩⟩ :=
    .mk (@SpellsMantissa.whole ['1'] (by decide) (List.all_eq_true.mp rfl))
      (.some (.inl rfl) .minus (by decide) (List.all_eq_true.mp rfl))
  have hentered := h _ _ hspells (by decide)
  revert hentered
  decide +kernel

end Session

end PocketCalc
