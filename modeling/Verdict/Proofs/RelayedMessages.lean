import Verdict.Proofs.Characters
import Verdict.Wire

/-!
# Messages that end in a position

A message ends in a position in one way at most: its last digits are the column, and the digits
before the word `column` are the line (`EndsInPosition`). What is relayed is told from that
(`Relayed`), and it is what the reader from the end finds (`relayed_eq_iff`). A message that does
not end so is relayed as it is.
-/

namespace Verdict.Wire

/-- The digits write a number of 64 bits. -/
structure IsCount (digits : List Char) (n : Nat) : Prop where
  nonempty : digits ≠ []
  isDigit : ∀ c ∈ digits, c.isDigit = true
  value : Numeral.value digits = n
  fits : n < Nat.pow 2 64

/-- The message is a text with a position behind it. -/
def EndsInPosition (message front : String) (line column : Nat) : Prop :=
  ∃ lineDigits columnDigits, IsCount lineDigits line ∧ IsCount columnDigits column ∧
    message = front ++ " at line " ++ String.ofList lineDigits ++ " column " ++
      String.ofList columnDigits

/-- What a message is relayed as. A position at its end is cut off, and written again unless the
line is 0. -/
inductive Relayed (message : String) : String → Prop
  | whole (h : ∀ front line column, ¬EndsInPosition message front line column) :
    Relayed message message
  | bare {front : String} {column : Nat} (h : EndsInPosition message front 0 column) :
    Relayed message front
  | placed {front : String} {line column : Nat} (h : EndsInPosition message front line column)
    (hline : line ≠ 0) :
    Relayed message (front ++ " at line " ++ toString line ++ " column " ++ toString column)

/-! ## Reading from the end -/

/-- The mark ends in something other than a digit, so that the digits behind it are told from it. -/
def EndsDigits (mark : String) : Prop :=
  ∃ last front, mark.toList.reverse = last :: front ∧ last.isDigit = false

theorem endsDigits_line : EndsDigits " at line " :=
  ⟨' ', _, rfl, by decide⟩

theorem endsDigits_column : EndsDigits " column " :=
  ⟨' ', _, rfl, by decide⟩

/-- The reader finds a mark and a number exactly where they stand at the end of a text. -/
theorem countBehind?_eq_some_iff {mark : String} (hmark : EndsDigits mark) {text front : List Char}
    {n : Nat} : countBehind? mark text.reverse = some (front.reverse, n) ↔
      ∃ digits, IsCount digits n ∧ text = front ++ mark.toList ++ digits := by
  constructor
  · intro h
    have hsplit := List.takeWhile_append_dropWhile (p := Char.isDigit) (l := text.reverse)
    simp only [countBehind?] at h
    split at h
    · cases h
    · next hfound =>
      simp only [Bool.or_eq_true, Bool.not_eq_true', not_or, Bool.not_eq_false,
        List.isPrefixOf_iff_prefix, List.isEmpty_iff] at hfound
      split at h
      · next hfits =>
        obtain ⟨hfront, rfl⟩ := Prod.mk.inj (Option.some.inj h)
        refine ⟨_, ⟨hfound.2, fun c hc => ?_, rfl, hfits⟩, ?_⟩
        · exact List.all_eq_true.mp List.all_takeWhile c (List.mem_reverse.mp hc)
        · rw [← List.prefix_iff_eq_append.mp hfound.1, hfront] at hsplit
          simpa using (congrArg List.reverse hsplit).symm
      · cases h
  · rintro ⟨digits, ⟨hne, hall, rfl, hfits⟩, rfl⟩
    obtain ⟨last, init, hletters, hlast⟩ := hmark
    have hrun : ∀ c ∈ digits.reverse, c.isDigit = true :=
      fun c hc => hall c (List.mem_reverse.mp hc)
    -- the mark ends in no digit, so the run of digits does not reach into it
    have hrest : (mark.toList.reverse ++ front.reverse).head?.any Char.isDigit = false := by
      rw [hletters]
      simpa using hlast
    rw [List.reverse_append, List.reverse_append, countBehind?]
    simp only [Text.takeWhile_run hrun hrest, Text.dropWhile_run hrun hrest, List.reverse_reverse]
    simp [hne, hfits]

theorem endsInPosition_iff {message front : String} {line column : Nat} :
    EndsInPosition message front line column ↔ ∃ before,
      countBehind? " column " message.toList.reverse = some (before, column) ∧
        countBehind? " at line " before = some (front.toList.reverse, line) := by
  constructor
  · rintro ⟨lineDigits, columnDigits, hline, hcolumn, rfl⟩
    refine ⟨(front.toList ++ " at line ".toList ++ lineDigits).reverse, ?_, ?_⟩
    · refine (countBehind?_eq_some_iff endsDigits_column).mpr ⟨columnDigits, hcolumn, ?_⟩
      simp only [String.toList_append, String.toList_ofList]
    · exact (countBehind?_eq_some_iff endsDigits_line).mpr ⟨lineDigits, hline, rfl⟩
  · rintro ⟨before, hcolumn, hline⟩
    rw [← List.reverse_reverse before] at hcolumn hline
    obtain ⟨columnDigits, hcount, hmessage⟩ :=
      (countBehind?_eq_some_iff endsDigits_column).mp hcolumn
    obtain ⟨lineDigits, hlineCount, hbefore⟩ :=
      (countBehind?_eq_some_iff endsDigits_line).mp hline
    refine ⟨lineDigits, columnDigits, hlineCount, hcount, String.toList_injective ?_⟩
    rw [hmessage, hbefore]
    simp only [String.toList_append, String.toList_ofList]

/-! ## What is relayed -/

theorem relayed_of_endsInPosition {message front : String} {line column : Nat}
    (h : EndsInPosition message front line column) :
    relayed message = if line = 0 then front
      else front ++ " at line " ++ toString line ++ " column " ++ toString column := by
  obtain ⟨before, hcolumn, hline⟩ := endsInPosition_iff.mp h
  simp only [relayed, hcolumn, hline, List.reverse_reverse, String.ofList_toList]

theorem relayed_of_not_endsInPosition {message : String}
    (h : ∀ front line column, ¬EndsInPosition message front line column) :
    relayed message = message := by
  unfold relayed
  split
  · rfl
  · next before column hcolumn =>
    split
    · rfl
    · next front line hline =>
      refine absurd (endsInPosition_iff.mpr ⟨before, hcolumn, ?_⟩)
        (h (String.ofList front.reverse) line column)
      rw [hline, String.toList_ofList, List.reverse_reverse]

theorem relayed_eq_iff {message shown : String} :
    relayed message = shown ↔ Relayed message shown := by
  constructor
  · rintro rfl
    by_cases hends : ∃ front line column, EndsInPosition message front line column
    · obtain ⟨front, line, column, h⟩ := hends
      rw [relayed_of_endsInPosition h]
      by_cases hline : line = 0
      · subst hline
        exact .bare h
      · rw [if_neg hline]
        exact .placed h hline
    · simp only [not_exists] at hends
      rw [relayed_of_not_endsInPosition hends]
      exact .whole hends
  · rintro (h | h | ⟨h, hline⟩)
    · exact relayed_of_not_endsInPosition h
    · rw [relayed_of_endsInPosition h, if_pos rfl]
    · rw [relayed_of_endsInPosition h, if_neg hline]

end Verdict.Wire
