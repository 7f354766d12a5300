import PocketCalc.Display
import PocketCalc.Proofs.Decimal.Layout
import PocketCalc.Proofs.Decimal.Shortest
import PocketCalc.Proofs.Token.Cut

/-!
# A displayed number is an entry

The text of a finite number is one of the two forms of its shortest decimal, behind a minus sign if
the number is negative (`exists_numberText_eq`), and so a written literal (`numberText_spec`). The
literal stands for exactly the magnitude of the number, whichever form the display chose. So nothing is
trimmed off the text (`trim_numberText`), and it is divided into these one or two tokens
(`tokenize_numberText`).
-/

namespace PocketCalc

/-- A text keeps all its characters if it neither starts nor ends with a blank. -/
theorem trim_eq_self {cs : List Char} (hfirst : ∀ c ∈ cs.head?, isBlank c = false)
    (hlast : ∀ c ∈ cs.getLast?, isBlank c = false) : trim cs = cs := by
  have hdrop {cs : List Char} (h : ∀ c ∈ cs.head?, isBlank c = false) :
      cs.dropWhile isBlank = cs := by
    cases cs with
    | nil => rfl
    | cons c cs => exact List.dropWhile_cons_of_neg (by simp [h c rfl])
  rw [trim, hdrop hfirst, trimEnd, hdrop fun c hc => hlast c (by rwa [← List.head?_reverse]),
    List.reverse_reverse]

namespace Magnitude

variable {a : Magnitude}

/-- The positional form of a finite magnitude stands for it. -/
theorem value_positionalLiteral (hfin : a.rank < infiniteRank) :
    a.shortest.positionalLiteral.value = .signed false a := by
  rw [NumberLiteral.value, Decimal.nearest_congr (Decimal.toRat_positionalLiteral _),
    nearest_shortest hfin]

/-- The scientific form of a finite magnitude stands for it. -/
theorem value_scientificLiteral (hfin : a.rank < infiniteRank) :
    a.shortest.scientificLiteral.value = .signed false a := by
  rw [NumberLiteral.value, Decimal.toDecimal_scientificLiteral, nearest_shortest hfin]

/-- The positional form of a finite magnitude fits into an entry. -/
theorem length_positional_lt (hfin : a.rank < infiniteRank) :
    a.shortest.positional.length < maxEntryLength := by
  obtain ⟨hdigits, hlow, hhigh⟩ := shortest_bounds hfin
  have hlen := a.shortest.length_positional_le
  rw [maxEntryLength]
  omega

/-- The scientific form of a finite magnitude fits into an entry. -/
theorem length_scientific_lt (hfin : a.rank < infiniteRank) :
    a.shortest.scientific.length < maxEntryLength := by
  obtain ⟨hdigits, hlow, hhigh⟩ := shortest_bounds hfin
  have hlen := a.shortest.length_scientific_le
  have hexp : (Nat.toDigits 10 a.shortest.leadingExponent.natAbs).length ≤ 3 := by
    rw [Nat.length_toDigits_le_iff (by norm_num) (by norm_num), Decimal.leadingExponent]
    omega
  rw [maxEntryLength]
  omega

end Magnitude

/-- In positional form a finite number is a literal, behind a minus sign if it is negative. -/
theorem Binary64.toList_positional (s : Bool) {a : Magnitude} (hfin : a.rank < infiniteRank) :
    (Binary64.signed s a).positional.toList =
      (if s then ['-'] else []) ++ a.shortest.positionalLiteral.text := by
  rw [positional, String.toList_ofList, write, Magnitude.isInfinite_eq_false hfin,
    Decimal.text_positionalLiteral]
  rfl

namespace Display

variable {s : Bool} {a : Magnitude}

/-- The text of a finite number is one of the two forms of its shortest decimal, behind a minus sign
if the number is negative. -/
theorem exists_numberText_eq (hfin : a.rank < infiniteRank) (hzero : a.rank = 0 → s = false) :
    ∃ n : NumberLiteral,
      (n = a.shortest.positionalLiteral ∨ n = a.shortest.scientificLiteral) ∧
        (numberText (.signed s a)).toList = (if s then ['-'] else []) ++ n.text := by
  have hi := Magnitude.isInfinite_eq_false hfin
  unfold numberText
  split
  · next h => cases h
  · next h =>
    cases h
    split
    · next hz =>
      -- The text of zero is its positional form, too, and zero has no sign here.
      have hshortest : a.shortest = ⟨0, 0⟩ := if_pos hz
      refine ⟨a.shortest.positionalLiteral, .inl rfl, ?_⟩
      rw [Decimal.text_positionalLiteral, hshortest, hzero ((Magnitude.isZero_iff a).mp hz)]
      decide
    · split
      · refine ⟨a.shortest.scientificLiteral, .inr rfl, ?_⟩
        rw [Binary64.scientific, String.toList_ofList, Binary64.write, hi,
          Decimal.text_scientificLiteral]
        rfl
      · exact ⟨a.shortest.positionalLiteral, .inl rfl, Binary64.toList_positional s hfin⟩

/-- The text of a finite number is a literal that stands for its magnitude, behind a minus sign if
the number is negative. -/
theorem numberText_spec (hfin : a.rank < infiniteRank) (hzero : a.rank = 0 → s = false) :
    ∃ n : NumberLiteral, n.IsWritten ∧ n.value = .signed false a ∧ n.text.length < maxEntryLength ∧
      (numberText (.signed s a)).toList = (if s then ['-'] else []) ++ n.text := by
  obtain ⟨n, rfl | rfl, htext⟩ := exists_numberText_eq hfin hzero
  · refine ⟨_, a.shortest.isWritten_positionalLiteral, Magnitude.value_positionalLiteral hfin, ?_,
      htext⟩
    rw [Decimal.text_positionalLiteral]
    exact Magnitude.length_positional_lt hfin
  · refine ⟨_, a.shortest.isWritten_scientificLiteral, Magnitude.value_scientificLiteral hfin, ?_,
      htext⟩
    rw [Decimal.text_scientificLiteral]
    exact Magnitude.length_scientific_lt hfin

/-- Nothing is trimmed off a text that displays a number. -/
theorem trim_numberText (hfin : a.rank < infiniteRank) (hzero : a.rank = 0 → s = false) :
    trim (numberText (.signed s a)).toList = (numberText (.signed s a)).toList := by
  obtain ⟨n, hn, -, -, htext⟩ := numberText_spec hfin hzero
  have hblank : ∀ c ∈ (if s then ['-'] else []) ++ n.text, isBlank c = false := by
    intro c hc
    rcases List.mem_append.mp hc with hc | hc
    · cases s with
      | true => rw [List.mem_singleton.mp hc]; decide
      | false => exact absurd hc List.not_mem_nil
    · exact NumberLiteral.isBlank_of_mem_text hn c hc
  rw [htext]
  exact trim_eq_self (fun c hc => hblank c (List.mem_of_mem_head? hc))
    fun c hc => hblank c (List.mem_of_getLast? hc)

/-- A text that displays a number divides into a number, or a minus sign and a number. -/
theorem tokenize_numberText (hfin : a.rank < infiniteRank) (hzero : a.rank = 0 → s = false) :
    tokenize (numberText (.signed s a)).toList =
      .ok (if s then [⟨.minus, 0⟩, ⟨.number (.signed false a), 1⟩]
        else [⟨.number (.signed false a), 0⟩]) := by
  obtain ⟨n, hn, hvalue, hlen, htext⟩ := numberText_spec hfin hzero
  -- The text is short enough for an entry, with the sign that the bound leaves room for.
  rw [htext, tokenize, if_neg]
  · cases s with
    | true => exact hvalue ▸ tokensFrom_minus_text hn 0
    | false => exact hvalue ▸ tokensFrom_text hn 0
  · rw [List.length_append]
    split
    · rw [List.length_singleton]
      omega
    · rw [List.length_nil]
      omega

end Display

end PocketCalc
