import Mathlib.Data.List.DropRight
import Mathlib.Data.List.Find
import Mathlib.Data.List.Infix
import Mathlib.Logic.Function.Iterate
import PocketCalc.Machine
import PocketCalc.Proofs.Token.Lexeme
import PocketCalc.Session

/-!
# Deletion takes back what the keys have inserted

A deletion removes the text of the last inserting key with all that its spacing has put around it.
What is left is the entry before that key, without the blanks at its end (`deleteLast_insertKey`).
Blanks at the end do not matter to the next deletion, so that as many deletions take back as many keys
(`trimEnd_iterate_deleteLast`), and so they do in a session (`entry_insert_delete`). The entry before
the keys may be any text.

A deletion removes some texts whole, and an inserted text must not join what stands before it to one
of them, as `sin(` behind an `a` would. These texts are letters with a parenthesis behind them, so that
only a letter can join, and only a text that ends with the parenthesis (`suffix_append_iff`). Right
before such a text a key leaves no letter (`isAlpha_prepare`).
-/

namespace PocketCalc

variable {c : Char} {cs text piece entry : List Char} {k : InsertKey}

/-! ## Blanks at the end of an entry -/

/-- Trimming a second time changes nothing. -/
@[simp]
theorem trimEnd_trimEnd (cs : List Char) : trimEnd (trimEnd cs) = trimEnd cs :=
  List.rdropWhile_idempotent isBlank cs

/-- A blank at the end is trimmed off. -/
theorem trimEnd_concat_blank (h : isBlank c = true) : trimEnd (cs ++ [c]) = trimEnd cs :=
  List.rdropWhile_concat_pos isBlank cs c h

/-- Nothing is trimmed off a text that ends with a visible character. -/
theorem trimEnd_eq_self (hc : c ∈ cs.getLast?) (h : isBlank c = false) : trimEnd cs = cs := by
  obtain ⟨before, rfl⟩ := List.getLast?_eq_some_iff.mp hc
  exact List.rdropWhile_concat_neg isBlank before c (by simp [h])

/-- A visible character at the end of an entry is its last one. -/
theorem lastVisible_eq (hc : c ∈ entry.getLast?) (h : isBlank c = false) :
    lastVisible entry = some c := by
  rwa [lastVisible, trimEnd_eq_self hc h]

/-- The space behind a text is trimmed off. -/
theorem trimEnd_append_trailer (s : Spacing) : trimEnd (cs ++ s.trailer) = trimEnd cs := by
  cases s with
  | spaced => exact trimEnd_concat_blank (by decide)
  | _ => exact congrArg trimEnd (List.append_nil cs)

/-- Making an entry ready for a text changes nothing but the blanks at its end. -/
theorem trimEnd_prepare (s : Spacing) (entry : List Char) :
    trimEnd (s.prepare entry) = trimEnd entry := by
  have hspace (cs : List Char) : trimEnd (cs ++ [' ']) = trimEnd cs :=
    trimEnd_concat_blank (by decide)
  cases s with
  | asTyped => rfl
  | tight => exact trimEnd_trimEnd entry
  | spaced =>
    simp only [Spacing.prepare]
    split
    · next h => exact (List.isEmpty_iff.mp h).symm
    · rw [hspace, trimEnd_trimEnd]
  | opening =>
    simp only [Spacing.prepare]
    split
    · exact hspace entry
    · rfl
  | word =>
    simp only [Spacing.prepare]
    split
    · exact hspace entry
    · rfl

/-! ## The texts that are removed whole -/

/-- A text that is removed whole is letters with a parenthesis behind them. -/
theorem exists_of_mem_wholePieces (h : piece ∈ wholePieces) :
    ∃ letters, piece = letters ++ ['('] ∧ ∀ c ∈ letters, c.isAlpha = true := by
  have hall : ∀ piece ∈ wholePieces,
      piece = piece.dropLast ++ ['('] ∧ piece.dropLast.all Char.isAlpha = true := by decide
  obtain ⟨hpiece, hletters⟩ := hall piece h
  exact ⟨_, hpiece, List.all_eq_true.mp hletters⟩

/-- No text that is removed whole reaches from an entry into the text behind it, unless the entry
ends with a letter and the text with a parenthesis. -/
theorem suffix_append_iff (hp : piece ∈ wholePieces) (htext : text ≠ [])
    (hjoin : text.getLast? = some '(' → ∀ c ∈ entry.getLast?, c.isAlpha = false) :
    piece <:+ entry ++ text ↔ piece <:+ text := by
  refine ⟨fun h => ?_, fun h => h.trans (List.suffix_append entry text)⟩
  rcases List.suffix_or_suffix_of_suffix h (List.suffix_append entry text) with h' | ⟨joined, rfl⟩
  · exact h'
  · rcases joined.eq_nil_or_concat' with rfl | ⟨joined, c, rfl⟩
    · exact List.suffix_rfl
    · -- The piece would have the last character of the entry among its letters.
      obtain ⟨before, rfl⟩ := List.suffix_append_self_iff.mp h
      obtain ⟨rest, last, rfl⟩ := text.eq_nil_or_concat'.resolve_left htext
      obtain ⟨letters, hpiece, hletters⟩ := exists_of_mem_wholePieces hp
      rw [← List.append_assoc] at hpiece
      obtain ⟨rfl, hlast⟩ := List.append_inj' hpiece rfl
      cases hlast
      have hc := hjoin (by simp) c (by simp)
      simp [hletters c (by simp)] at hc

/-- How much of an entry a deletion removes is settled by the text at its end. -/
theorem lastPieceLength_append (htext : text ≠ [])
    (hjoin : text.getLast? = some '(' → ∀ c ∈ entry.getLast?, c.isAlpha = false) :
    lastPieceLength (entry ++ text) = lastPieceLength text := by
  have hfind : wholePieces.find? (·.isSuffixOf (entry ++ text)) =
      wholePieces.find? (·.isSuffixOf text) := by
    refine List.find?_congr fun piece hp => ?_
    rw [Bool.eq_iff_iff, List.isSuffixOf_iff_suffix, List.isSuffixOf_iff_suffix,
      suffix_append_iff hp htext hjoin]
  rw [lastPieceLength, hfind, lastPieceLength]

/-! ## One key -/

namespace InsertKey

/-- No inserting key is missing in the list of them. -/
theorem mem_all (k : InsertKey) : k ∈ all := by
  cases k with
  | digit d => exact List.mem_append_right _ (List.mem_map_of_mem (List.mem_finRange d))
  | operator op => cases op <;> decide
  | constant c => cases c <;> decide
  | trig t => cases t <;> decide
  | arc t => cases t <;> decide
  | _ => decide

/-- The text of a key ends with a visible character. -/
theorem exists_getLast?_text (k : InsertKey) : ∃ c ∈ k.text.toList.getLast?, isBlank c = false := by
  have hall : ∀ k ∈ all, k.text.toList.getLast?.elim true isBlank = false := by decide
  have hk := hall k k.mem_all
  cases hlast : k.text.toList.getLast? with
  | none => simp [hlast] at hk
  | some c => exact ⟨c, rfl, by simpa [hlast] using hk⟩

/-- A deletion removes the text of a key at once. -/
theorem lastPieceLength_text (k : InsertKey) :
    lastPieceLength k.text.toList = k.text.toList.length := by
  have hall : ∀ k ∈ all, lastPieceLength k.text.toList = k.text.toList.length := by decide
  exact hall k k.mem_all

/-- A text that ends with a parenthesis opens something. -/
theorem spacing_of_getLast?_text (h : k.text.toList.getLast? = some '(') :
    k.spacing = .opening := by
  cases k with
  | opening | root | trig | arc | log | ln | pow => rfl
  | digit d => exact absurd h (by revert d; decide)
  | operator op => exact absurd h (by cases op <;> decide)
  | constant c => exact absurd h (by cases c <;> decide)
  | _ => exact absurd h (by decide)

end InsertKey

/-- Before a text that opens something no letter is left. -/
theorem isAlpha_prepare (hc : c ∈ (Spacing.opening.prepare entry).getLast?) :
    c.isAlpha = false := by
  simp only [Spacing.prepare] at hc
  split at hc
  · cases List.getLast?_concat.symm.trans hc
    decide
  · next hspace =>
    rw [← Bool.not_eq_true]
    intro hletter
    -- A letter at the end of the entry is its last visible character, and asks for a space.
    have hneeds : needsSpaceToOpen c = ((c.isAlpha || c.isDigit) || c == ')') := rfl
    rw [lastVisible_eq hc (isAlpha_spec hletter).1, Option.any_some, hneeds, hletter] at hspace
    exact hspace rfl

/-- A deletion takes back what a key has inserted, and leaves no blanks at the end of the entry. -/
theorem deleteLast_insertKey (k : InsertKey) (entry : List Char) :
    deleteLast (insertKey k entry) = trimEnd entry := by
  obtain ⟨c, hc, hvisible⟩ := k.exists_getLast?_text
  have hne : k.text.toList ≠ [] := by
    intro h
    simp [h] at hc
  have htrim : trimEnd (insertKey k entry) = k.spacing.prepare entry ++ k.text.toList := by
    rw [insertKey, trimEnd_append_trailer]
    exact trimEnd_eq_self (List.mem_getLast?_append_of_mem_getLast? hc) hvisible
  have hlength : lastPieceLength (k.spacing.prepare entry ++ k.text.toList) =
      k.text.toList.length := by
    rw [lastPieceLength_append hne, k.lastPieceLength_text]
    intro hopens c hc
    rw [InsertKey.spacing_of_getLast?_text hopens] at hc
    exact isAlpha_prepare hc
  rw [deleteLast, htrim, hlength, List.length_append, Nat.add_sub_cancel, List.take_left,
    trimEnd_prepare]

/-! ## Many keys -/

/-- Blanks at the end of an entry do not matter to a deletion. -/
@[simp]
theorem deleteLast_trimEnd (entry : List Char) : deleteLast (trimEnd entry) = deleteLast entry := by
  rw [deleteLast, trimEnd_trimEnd, deleteLast]

/-- A deletion leaves no blanks at the end of the entry. -/
@[simp]
theorem trimEnd_deleteLast (entry : List Char) : trimEnd (deleteLast entry) = deleteLast entry :=
  trimEnd_trimEnd _

/-- The entry after some inserting keys. -/
def insertAll (keys : List InsertKey) (entry : List Char) : List Char :=
  keys.foldl (fun entry k => insertKey k entry) entry

/-- As many deletions as keys lead back to the entry before the keys, up to blanks at its end. -/
theorem trimEnd_iterate_deleteLast (keys : List InsertKey) (entry : List Char) :
    trimEnd (deleteLast^[keys.length] (insertAll keys entry)) = trimEnd entry := by
  induction keys using List.reverseRecOn with
  | nil => rfl
  | append_singleton keys k ih =>
    -- The first deletion takes back the last key, and the blanks that it trims off do not matter.
    have hlast : deleteLast (insertAll (keys ++ [k]) entry) = trimEnd (insertAll keys entry) := by
      rw [insertAll, List.foldl_concat]
      exact deleteLast_insertKey k _
    rw [List.length_append, List.length_singleton, Function.iterate_succ_apply, hlast, ← ih]
    cases keys.length with
    | zero => exact trimEnd_trimEnd _
    | succ n => rw [Function.iterate_succ_apply, Function.iterate_succ_apply, deleteLast_trimEnd]

namespace Session

variable (A : Arithmetic) (s : Session)

/-- The session after a frame for each of some keys. -/
def pressAll (keys : List Key) : Session := keys.foldl (fun s k => frame A s (.press k)) s

/-- Keys are pressed one after the other. -/
theorem pressAll_append (keys keys' : List Key) :
    pressAll A s (keys ++ keys') = pressAll A (pressAll A s keys) keys' :=
  List.foldl_append

/-- The frame of an inserting key changes the entry as the key does. -/
theorem entry_frame_insert (k : InsertKey) :
    (frame A s (.press (.insert k))).entry.toList = insertKey k s.entry.toList :=
  String.toList_ofList

/-- Inserting keys do to the entry of a session what they do to a text. -/
theorem entry_pressAll_insert (keys : List InsertKey) :
    (pressAll A s (keys.map .insert)).entry.toList = insertAll keys s.entry.toList := by
  rw [pressAll, List.foldl_map]
  exact (List.foldl_hom (fun s : Session => s.entry.toList) fun s k =>
    (entry_frame_insert A s k).symm).symm

/-- Deletions do to the entry of a session what they do to a text. -/
theorem entry_pressAll_delete (n : ℕ) :
    (pressAll A s (List.replicate n .delete)).entry.toList = deleteLast^[n] s.entry.toList := by
  induction n generalizing s with
  | zero => rfl
  | succ n ih =>
    have hframe : (frame A s (.press .delete)).entry.toList = deleteLast s.entry.toList :=
      String.toList_ofList
    rw [List.replicate_succ, pressAll, List.foldl_cons, ← pressAll, ih, hframe,
      Function.iterate_succ_apply]

/-- Deletions take back inserting keys one by one: after some keys and at most as many deletions, the
entry is the one before the last so many keys, without the blanks at its end. -/
theorem entry_insert_delete (keys : List InsertKey) (n : ℕ) (hpos : 1 ≤ n)
    (hn : n ≤ keys.length) :
    (pressAll A s (keys.map .insert ++ List.replicate n .delete)).entry.toList =
      trimEnd (pressAll A s ((keys.take (keys.length - n)).map .insert)).entry.toList := by
  obtain ⟨before, recent, rfl, rfl⟩ : ∃ before recent : List InsertKey,
      keys = before ++ recent ∧ n = recent.length :=
    ⟨keys.take (keys.length - n), keys.drop (keys.length - n), by simp, by simp; omega⟩
  rw [List.length_append, Nat.add_sub_cancel, List.take_left, List.map_append, pressAll_append,
    pressAll_append, entry_pressAll_delete, entry_pressAll_insert, ← trimEnd_iterate_deleteLast recent]
  -- The last deletion has trimmed the entry already.
  obtain ⟨m, hm⟩ := Nat.exists_eq_add_of_le' hpos
  rw [hm, Function.iterate_succ_apply', trimEnd_deleteLast]

/-- A sine behind an `a` is not taken for an arc sine when it is taken back. -/
theorem entry_insert_delete_sin :
    let s : Session := { entry := "a " }
    let keys : List InsertKey := [.trig .sin, .digit 4, .operator .add]
    1 ≤ 3 ∧ 3 ≤ keys.length ∧ (pressAll .machine s (keys.map .insert)).entry = "a  sin(4 + " ∧
      (pressAll .machine s (keys.map .insert ++ List.replicate 3 .delete)).entry.toList =
        trimEnd (pressAll .machine s ((keys.take (keys.length - 3)).map .insert)).entry.toList ∧
      trimEnd (pressAll .machine s ((keys.take (keys.length - 3)).map .insert)).entry.toList =
        ['a'] := by
  intro s keys
  exact ⟨by decide, by decide, by decide +kernel,
    entry_insert_delete .machine s keys 3 (by decide) (by decide), by decide +kernel⟩

end Session

end PocketCalc
