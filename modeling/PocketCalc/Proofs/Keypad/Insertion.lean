import PocketCalc.Proofs.Expr.Writing
import PocketCalc.Proofs.Keypad.Deletion
import PocketCalc.Proofs.Token.Blanks

/-!
# Inserting keys add their own tokens

A key that inserts more than a part of a number adds its own tokens to an entry and leaves the earlier
ones as they are, with one exception: the key for the constant `e` puts no space behind a letter or
behind a point, so that its letter goes on with a word there or opens an exponent.

Making the entry ready for the text keeps its tokens, since this only touches blanks at its end
(`tokensFrom_prepare`). What the entry then ends with does not join the text of the key
(`not_mayJoin_prepare`), and so both are cut as they would be alone (`tokensFrom_insertKey`). In the
case of the exception no piece ends before the letter (`IsCut.before_last`, `CutsOff.not_joined`).
-/

namespace PocketCalc

namespace InsertKey

/-- Whether the key inserts a part of a number: a digit, the point or the letter of an exponent. -/
def isNumeric : InsertKey → Bool
  | digit _ | point | exponent => true
  | _ => false

/-- The tokens that the key stands for, from the first character of its text on. A key for a part of a
number has none of its own. -/
def tokens (k : InsertKey) : List PlacedToken :=
  match k with
  | digit _ | point | exponent => []
  | operator op => [⟨op.token, 0⟩]
  | opening => [⟨.opening, 0⟩]
  | closing => [⟨.closing, 0⟩]
  | percent => [⟨.percent, 0⟩]
  | comma => [⟨.comma, 0⟩]
  | constant .pi => [⟨.word "pi", 0⟩]
  | constant .e => [⟨.word "e", 0⟩]
  | root => [⟨.root, 0⟩]
  | trig _ | arc _ | log | ln | pow => [⟨.word k.caption, 0⟩, ⟨.opening, k.caption.length⟩]

variable {d : Char} {k : InsertKey}

/-- The text of a key that is no part of a number has the tokens of the key. -/
theorem tokensFrom_text (hk : k.isNumeric = false) : tokensFrom 0 k.text.toList = .ok k.tokens := by
  have hall : ∀ k ∈ all, k.isNumeric = false → tokensFrom 0 k.text.toList = .ok k.tokens := by
    decide +kernel
  exact hall k k.mem_all hk

/-- The text of a key that is no part of a number does not start like one, unless it is that of the
constant `e`. -/
theorem head?_text_spec (hk : k.isNumeric = false) (he : k ≠ .constant .e)
    (hd : d ∈ k.text.toList.head?) : d.isDigit = false ∧ d ≠ '.' ∧ d ≠ 'e' ∧ d ≠ 'E' := by
  have hall : ∀ k ∈ all, k.isNumeric = false → k ≠ .constant .e → k.text.toList.head?.elim true
      (fun d => decide (d.isDigit = false ∧ d ≠ '.' ∧ d ≠ 'e' ∧ d ≠ 'E')) = true := by decide
  have hspec := hall k k.mem_all hk he
  rw [Option.mem_def.mp hd, Option.elim_some, decide_eq_true_iff] at hspec
  exact hspec

/-- A text that starts with a letter opens something, unless it is that of the constant `e`. -/
theorem spacing_of_head?_text (hk : k.isNumeric = false) (he : k ≠ .constant .e)
    (ha : k.text.toList.head?.any Char.isAlpha = true) : k.spacing = .opening := by
  cases k with
  | opening | root | trig | arc | log | ln | pow => rfl
  | operator op => exact absurd ha (by cases op <;> decide)
  | constant c =>
    cases c with
    | pi => exact absurd ha (by decide)
    | e => exact absurd rfl he
  | closing | percent | comma => exact absurd ha (by decide)
  | digit | point | exponent => cases hk

end InsertKey

variable {c d : Char} {entry : List Char} {tokens : List PlacedToken} {k : InsertKey}

/-- Before a word stands a space, or what the entry ends with, and that is no digit. -/
theorem getLast?_prepare_word (hc : c ∈ (Spacing.word.prepare entry).getLast?) :
    c = ' ' ∨ c ∈ entry.getLast? ∧ c.isDigit = false := by
  simp only [Spacing.prepare] at hc
  split at hc
  · exact .inl (by simpa using hc.symm)
  · next hspace =>
    refine .inr ⟨hc, ?_⟩
    rw [← Bool.not_eq_true]
    intro hdigit
    -- A digit at the end of the entry is its last visible character, and asks for a space.
    have hblank := NumberLiteral.isBlank_of_isDigit hdigit
    simp [endsBlank, Option.mem_def.mp hc, hblank, lastVisible_eq hc hblank, needsSpaceToWord,
      hdigit] at hspace

/-- An entry that ends with a letter or a point is ready for a word as it is. -/
theorem prepare_word_eq_self (hc : c ∈ entry.getLast?) (hjoin : c.isAlpha = true ∨ c = '.') :
    Spacing.word.prepare entry = entry := by
  have hspec : isBlank c = false ∧ c.isDigit = false ∧ c ≠ ')' := by
    rcases hjoin with ha | rfl
    · obtain ⟨hblank, -, hdigit, -⟩ := isAlpha_spec ha
      refine ⟨hblank, hdigit, ?_⟩
      rintro rfl
      exact absurd ha (by decide)
    · decide
  obtain ⟨hblank, hdigit, hclosing⟩ := hspec
  simp [Spacing.prepare, lastVisible_eq hc hblank, needsSpaceToWord, hdigit, hclosing]

/-- Making an entry ready for a text keeps its tokens. -/
theorem tokensFrom_prepare (s : Spacing) (position : ℕ) (entry : List Char) :
    tokensFrom position (s.prepare entry) = tokensFrom position entry := by
  rw [← tokensFrom_trimEnd, trimEnd_prepare, tokensFrom_trimEnd]

/-- What an entry ends with when it is ready for a key does not join the text of the key, unless the
key is that of the constant `e` and the entry ends with a letter or a point. -/
theorem not_mayJoin_prepare (hk : k.isNumeric = false)
    (he : k = .constant .e → ∀ c ∈ entry.getLast?, c.isAlpha = false ∧ c ≠ '.')
    (hc : c ∈ (k.spacing.prepare entry).getLast?) (hd : d ∈ k.text.toList.head?) :
    ¬ MayJoin c d := by
  by_cases hke : k = .constant .e
  · subst hke
    rcases getLast?_prepare_word hc with rfl | ⟨hlast, hdigit⟩
    · rintro (⟨h, -⟩ | ⟨h | h, -⟩) <;> exact absurd h (by decide)
    · obtain ⟨ha, hp⟩ := he rfl c hlast
      rintro (⟨h, -⟩ | ⟨h | h, -⟩)
      · simp [ha] at h
      · simp [hdigit] at h
      · exact hp h
  · obtain ⟨hdigit, hpoint, hletter⟩ := InsertKey.head?_text_spec hk hke hd
    rintro (⟨hca, hda⟩ | ⟨-, h | h | h⟩)
    · rw [InsertKey.spacing_of_head?_text hk hke (by simp [Option.mem_def.mp hd, hda])] at hc
      simp [isAlpha_prepare hc] at hca
    · simp [hdigit] at h
    · exact hpoint h
    · rcases h with rfl | rfl <;> simp at hletter

/-- Unless the key is that of the constant `e` and the entry ends with a letter or a point, the key
adds its own tokens right behind the entry that was made ready for them. -/
theorem tokensFrom_insertKey (hk : k.isNumeric = false)
    (he : k = .constant .e → ∀ c ∈ entry.getLast?, c.isAlpha = false ∧ c ≠ '.')
    (h : tokensFrom 0 entry = .ok tokens) : tokensFrom 0 (insertKey k entry) =
      .ok (tokens ++ k.tokens.map (·.shift (k.spacing.prepare entry).length)) := by
  have hentry : IsCut 0 (k.spacing.prepare entry) k.text.toList tokens := by
    rw [← tokensFrom_prepare k.spacing, tokensFrom_eq_ok_iff] at h
    exact h.before fun c hc d hd => not_mayJoin_prepare hk he hc hd
  have htext := tokensFrom_add_of_ok (InsertKey.tokensFrom_text hk) (k.spacing.prepare entry).length
  rw [insertKey, ← tokensFrom_trimEnd, trimEnd_append_trailer, tokensFrom_trimEnd,
    hentry.tokensFrom_append, Nat.zero_add, ← Nat.add_zero (k.spacing.prepare entry).length, htext]
  rfl

/-- Behind a letter or a point the key of the constant `e` does not add its own token. -/
theorem tokensFrom_insertKey_e (hc : c ∈ entry.getLast?) (hjoin : c.isAlpha = true ∨ c = '.')
    (n : ℕ) : tokensFrom 0 (insertKey (.constant .e) entry) ≠ .ok (tokens ++ [⟨.word "e", n⟩]) := by
  intro h
  have hinsert : insertKey (.constant .e) entry = entry ++ ['e'] := by
    show Spacing.word.prepare entry ++ ['e'] ++ [] = _
    rw [prepare_word_eq_self hc hjoin, List.append_nil]
  rw [hinsert, tokensFrom_eq_ok_iff] at h
  have hne : entry ≠ [] := by
    rintro rfl
    cases hc
  obtain ⟨before, piece, token, tokens', rfl, -, -, hpiece⟩ :=
    (h.before_last (by decide) (by decide)).exists_last hne
  have hlast : c ∈ piece.getLast? := by
    obtain ⟨x, xs, rfl, -⟩ := hpiece.isLexeme.exists_cons
    rwa [List.getLast?_append_of_ne_nil _ (by simp)] at hc
  obtain ⟨hword, hpoint⟩ := hpiece.not_joined hlast
  rcases hjoin with ha | hp
  · exact hword ⟨ha, by decide⟩
  · exact hpoint ⟨hp, .inl rfl⟩

namespace Session

variable (A : Arithmetic) (s : Session)

/-- A key for anything but a part of a number leaves the tokens of an entry as they are and adds its
own behind them, exactly if it is not the key of the constant `e` behind a letter or behind a point. -/
theorem tokenize_press_insert_iff (hk : k.isNumeric = false)
    (h : tokenize s.entry.toList = .ok tokens)
    (hlength : (frame A s (.press (.insert k))).entry.toList.length ≤ maxEntryLength) :
    (∃ n, tokenize (frame A s (.press (.insert k))).entry.toList =
        .ok (tokens ++ k.tokens.map (·.shift n))) ↔
      (k = .constant .e → ∀ c ∈ s.entry.toList.getLast?, c.isAlpha = false ∧ c ≠ '.') := by
  rw [tokenize_of_length_le hlength, entry_frame_insert]
  constructor
  · rintro ⟨n, hn⟩ rfl c hc
    by_contra hjoin
    refine tokensFrom_insertKey_e hc ?_ n hn
    rw [not_and_or, Bool.not_eq_false, not_not] at hjoin
    exact hjoin
  · intro he
    exact ⟨_, tokensFrom_insertKey hk he (tokensFrom_of_tokenize h)⟩

/-- Behind the digits of an exponent, the key of the constant `e` adds a word of its own. -/
theorem tokenize_press_insert_exponent :
    let s : Session := { entry := "x1.e5" }
    let number : Token := .number (NumberLiteral.value ⟨['1'], [], some ⟨false, ['5']⟩⟩)
    (InsertKey.constant .e).isNumeric = false ∧
      tokenize s.entry.toList = .ok [⟨.word "x", 0⟩, ⟨number, 1⟩] ∧
      (frame .machine s (.press (.insert (.constant .e)))).entry.toList.length ≤ maxEntryLength ∧
      (∀ c ∈ s.entry.toList.getLast?, c.isAlpha = false ∧ c ≠ '.') ∧
      ∃ n, tokenize (frame .machine s (.press (.insert (.constant .e)))).entry.toList =
        .ok ([⟨.word "x", 0⟩, ⟨number, 1⟩] ++ [⟨.word "e", n⟩]) := by
  intro s number
  have hk : (InsertKey.constant .e).isNumeric = false := rfl
  have htokens : tokenize s.entry.toList = .ok [⟨.word "x", 0⟩, ⟨number, 1⟩] := by decide +kernel
  have hlength : (frame .machine s (.press (.insert (.constant .e)))).entry.toList.length ≤
      maxEntryLength := by decide +kernel
  have hlast : ∀ c ∈ s.entry.toList.getLast?, c.isAlpha = false ∧ c ≠ '.' := by
    have hdigit : s.entry.toList.getLast? = some '5' := by decide +kernel
    rw [hdigit]
    rintro c ⟨⟩
    decide
  exact ⟨hk, htokens, hlength, hlast,
    (tokenize_press_insert_iff .machine s hk htokens hlength).mpr fun _ => hlast⟩

/-- Not every key leaves the tokens of an entry as they are: pressed twice, the key of the constant `e`
makes a single word. -/
theorem press_insert_joins : ¬ ∀ (s : Session) (k : InsertKey) (tokens : List PlacedToken),
    k.isNumeric = false → tokenize s.entry.toList = .ok tokens →
      (frame .machine s (.press (.insert k))).entry.toList.length ≤ maxEntryLength →
        ∃ n, tokenize (frame .machine s (.press (.insert k))).entry.toList =
          .ok (tokens ++ k.tokens.map (·.shift n)) := by
  intro h
  obtain ⟨n, hn⟩ := h { entry := "e" } (.constant .e) [⟨.word "e", 0⟩] rfl (by decide +kernel)
    (by decide +kernel)
  have hjoined : tokenize (frame .machine { entry := "e" }
      (.press (.insert (.constant .e)))).entry.toList = .ok [⟨.word "ee", 0⟩] := by decide +kernel
  rw [hjoined] at hn
  simp [InsertKey.tokens] at hn

end Session

end PocketCalc
