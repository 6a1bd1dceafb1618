import Mathlib.Data.List.Forall2
import Mathlib.Tactic.ByCases
import Verdict.Json.Value

/-!
# Texts read as they were written

The compact text of a value is read back to the outline of the value, whatever follows the text and
however large the bound is, as long as it is not less than the length of the text. For an object
this follows from its members (`reads_object`), so it holds of values of any depth.
-/

namespace Verdict.Json

/-! ## Strings

Every character has one of three escapes, and each is read as one piece: a short escape and a
character that stands for itself as the character, a long escape as a unit below the surrogates.
So the reader gives back the text between the quotes, whatever characters it holds
(`readString_escaped`). -/

/-- The escapes of a character: by a letter, by its code point below U+0020, or none. -/
theorem escape_cases (c : Char) :
    (∃ letter, letter ≠ 'u' ∧ Piece.ofEscape? letter = some c ∧ escape c = ['\\', letter]) ∨
      (c.toNat < 0x20 ∧
        escape c = ['\\', 'u', '0', '0', hexChar (c.toNat / 16), hexChar c.toNat]) ∨
      (0x20 ≤ c.toNat ∧ c ≠ '"' ∧ c ≠ '\\' ∧ escape c = [c]) := by
  unfold escape
  by_cases hquote : c = '"'
  · exact .inl ⟨'"', by decide, by rw [hquote]; decide, if_pos hquote⟩
  rw [if_neg hquote]
  by_cases hslash : c = '\\'
  · exact .inl ⟨'\\', by decide, by rw [hslash]; decide, if_pos hslash⟩
  rw [if_neg hslash]
  by_cases hb : c = '\x08'
  · exact .inl ⟨'b', by decide, by rw [hb]; decide, if_pos hb⟩
  rw [if_neg hb]
  by_cases hf : c = '\x0c'
  · exact .inl ⟨'f', by decide, by rw [hf]; decide, if_pos hf⟩
  rw [if_neg hf]
  by_cases hn : c = '\n'
  · exact .inl ⟨'n', by decide, by rw [hn]; decide, if_pos hn⟩
  rw [if_neg hn]
  by_cases hr : c = '\r'
  · exact .inl ⟨'r', by decide, by rw [hr]; decide, if_pos hr⟩
  rw [if_neg hr]
  by_cases ht : c = '\t'
  · exact .inl ⟨'t', by decide, by rw [ht]; decide, if_pos ht⟩
  rw [if_neg ht]
  by_cases hcontrol : c.toNat < 0x20
  · exact .inr (.inl ⟨hcontrol, if_pos hcontrol⟩)
  · exact .inr (.inr ⟨Nat.le_of_not_lt hcontrol, hquote, hslash, if_neg hcontrol⟩)

namespace Piece

theorem hexUnit?_hexChar {n : Nat} (h : n < 0x20) :
    hexUnit? '0' '0' (hexChar (n / 16)) (hexChar n) = some n := by
  revert n
  decide

/-- A piece in front of what a scan found. -/
def before (piece : Piece) (found : List Piece × Except Fault (List Char)) :
    List Piece × Except Fault (List Char) :=
  (piece :: found.1, found.2)

theorem scan_letter {letter c : Char} (hu : letter ≠ 'u') (h : ofEscape? letter = some c)
    (rest : List Char) : scan ('\\' :: letter :: rest) = before (.char c) (scan rest) := by
  -- the goals that follow say that no pattern above the one for short escapes matches
  rw [scan]
  · rw [h]
    rfl
  all_goals
    intros
    simp_all

theorem scan_unit {n : Nat} (h : n < 0x20) (rest : List Char) :
    scan ('\\' :: 'u' :: '0' :: '0' :: hexChar (n / 16) :: hexChar n :: rest) =
      before (.unit n) (scan rest) := by
  rw [scan, hexUnit?_hexChar h]
  rfl

theorem scan_plain {c : Char} (h : 0x20 ≤ c.toNat) (hq : c ≠ '"') (hs : c ≠ '\\')
    (rest : List Char) : scan (c :: rest) = before (.char c) (scan rest) := by
  rw [scan]
  · rw [if_neg (Nat.not_lt.mpr h)]
    rfl
  all_goals
    intros
    simp_all

theorem characters?_unit {n : Nat} (h : n < 0xD800) (rest : List Piece) :
    characters? (.unit n :: rest) = (characters? rest).map (Char.ofNat n :: ·) := by
  have hlow : isLow n = false := by
    simp only [isLow, Bool.and_eq_false_iff, decide_eq_false_iff_not]
    omega
  have hhigh : isHigh n = false := by
    simp only [isHigh, Bool.and_eq_false_iff, decide_eq_false_iff_not]
    omega
  rw [characters?.eq_def]
  simp only [hlow, hhigh, Bool.false_eq_true, if_false]

/-- The pieces of a text that was written with escapes spell the text. -/
theorem scan_escaped (cs rest : List Char) :
    ∃ pieces, scan (cs.flatMap escape ++ '"' :: rest) = (pieces, .ok rest) ∧
      characters? pieces = some cs := by
  induction cs with
  | nil => exact ⟨[], by simp [scan], rfl⟩
  | cons c cs ih =>
    obtain ⟨pieces, hscan, hchars⟩ := ih
    rw [List.flatMap_cons, List.append_assoc]
    rcases escape_cases c with ⟨letter, hu, hletter, he⟩ | ⟨hcontrol, he⟩ | ⟨hle, hq, hs, he⟩
    · refine ⟨.char c :: pieces, ?_, ?_⟩
      · rw [he]
        simp only [List.cons_append, List.nil_append]
        rw [scan_letter hu hletter, hscan]
        rfl
      · rw [characters?, hchars]
        rfl
    · refine ⟨.unit c.toNat :: pieces, ?_, ?_⟩
      · rw [he]
        simp only [List.cons_append, List.nil_append]
        rw [scan_unit hcontrol, hscan]
        rfl
      · rw [characters?_unit (by omega), hchars, Char.ofNat_toNat]
        rfl
    · refine ⟨.char c :: pieces, ?_, ?_⟩
      · rw [he]
        simp only [List.cons_append, List.nil_append]
        rw [scan_plain hle hq hs, hscan]
        rfl
      · rw [characters?, hchars]
        rfl

end Piece

/-- A string is read as it was written. -/
theorem readString_escaped (text : String) (rest : List Char) :
    readString (text.toList.flatMap escape ++ '"' :: rest) = .ok (.ok text, rest) := by
  obtain ⟨pieces, hscan, hchars⟩ := Piece.scan_escaped text.toList rest
  simp only [readString, hscan, hchars]
  rw [String.ofList_toList]

/-! ## Values -/

/-- A text in front of any other is read as this outline, and nothing more is read. -/
def Reads (text : List Char) (outline : Outline) : Prop :=
  ∀ bound rest, text.length ≤ bound → readOutline bound (text ++ rest) = ⟨outline, .ok rest⟩

/-- A member is read if its key is and its value. -/
def ReadsMember (member : String × Value) (outline : Except Fault String × Outline) : Prop :=
  outline.1 = .ok member.1 ∧ Reads member.2.render outline.2

theorem length_quoted (text : String) :
    (quoted text).length = (text.toList.flatMap escape).length + 2 := by
  simp [quoted]

theorem quoted_append (text : String) (rest : List Char) :
    quoted text ++ rest = '"' :: (text.toList.flatMap escape ++ '"' :: rest) := by
  simp [quoted]

theorem reads_null : Reads Value.null.render .null := by
  intro bound rest hbound
  cases bound with
  | zero => cases hbound
  | succ bound => rfl

theorem reads_string (text : String) :
    Reads (Value.string text).render (.string (.ok text)) := by
  intro bound rest hbound
  rw [Value.render, length_quoted] at hbound
  obtain ⟨bound, rfl⟩ := Nat.exists_eq_succ_of_ne_zero (show bound ≠ 0 by omega)
  rw [Value.render, quoted_append]
  show Progress.string _ = _
  rw [Progress.string, readString_escaped]

/-! ## Objects -/

theorem skipBlanks_cons {c : Char} (h : isBlank c = false) (rest : List Char) :
    skipBlanks (c :: rest) = c :: rest := by
  rw [skipBlanks, List.dropWhile_cons_of_neg (by simp [h])]

/-- A member in front of a comma. -/
theorem readMembers_next {text : List Char} {outline : Outline} (h : Reads text outline)
    {bound : Nat} (hbound : text.length ≤ bound) (key : String) (rest : List Char) :
    readMembers (bound + 1) (quoted key ++ ':' :: (text ++ ',' :: rest)) =
      .cons (.ok key, outline) (readMembers bound rest) := by
  rw [quoted_append]
  simp [readMembers, skipBlanks_cons, isBlank, readString_escaped, h bound _ hbound]

/-- A member in front of the closing brace. -/
theorem readMembers_last {text : List Char} {outline : Outline} (h : Reads text outline)
    {bound : Nat} (hbound : text.length ≤ bound) (key : String) (rest : List Char) :
    readMembers (bound + 1) (quoted key ++ ':' :: (text ++ '\x7d' :: rest)) =
      .cons (.ok key, outline) (.closed rest) := by
  rw [quoted_append]
  simp [readMembers, skipBlanks_cons, isBlank, readString_escaped, h bound _ hbound]

/-- The members of an object are read one after the other. -/
theorem readMembers_render {members : List (String × Value)}
    {outlines : List (Except Fault String × Outline)}
    (h : List.Forall₂ ReadsMember members outlines) (hne : members ≠ []) (bound : Nat)
    (rest : List Char)
    (hbound : (Value.commaSeparated (Value.renderMembers members)).length < bound) :
    readMembers bound (Value.commaSeparated (Value.renderMembers members) ++ '\x7d' :: rest) =
      ⟨(outlines, none), .ok rest⟩ := by
  induction h generalizing bound with
  | nil => exact absurd rfl hne
  | @cons member outline members outlines hm hrest ih =>
    obtain ⟨key, value⟩ := member
    obtain ⟨found, outline⟩ := outline
    obtain ⟨rfl, hvalue⟩ : found = .ok key ∧ Reads value.render outline := hm
    obtain ⟨bound, rfl⟩ := Nat.exists_eq_succ_of_ne_zero (Nat.ne_zero_of_lt hbound)
    cases hrest with
    | nil =>
      have htext : Value.commaSeparated (Value.renderMembers [(key, value)]) =
          quoted key ++ ':' :: value.render := rfl
      rw [htext, List.length_append, List.length_cons] at hbound
      rw [htext, List.append_assoc, List.cons_append,
        readMembers_last hvalue (by omega)]
      rfl
    | @cons next outline' members outlines hm hrest =>
      have htext : Value.commaSeparated (Value.renderMembers ((key, value) :: next :: members)) =
          quoted key ++ ':' :: (value.render ++
            ',' :: Value.commaSeparated (Value.renderMembers (next :: members))) := by
        simp [Value.renderMembers, Value.commaSeparated]
      rw [htext] at hbound ⊢
      simp only [List.length_append, List.length_cons] at hbound
      have hmore := ih (List.cons_ne_nil _ _) bound (by omega)
      simp only [List.append_assoc, List.cons_append]
      rw [readMembers_next hvalue (by omega), hmore]
      rfl

theorem exists_quote {members : List (String × Value)} (hne : members ≠ []) :
    ∃ more, Value.commaSeparated (Value.renderMembers members) = '"' :: more := by
  cases members with
  | nil => exact absurd rfl hne
  | cons member members =>
    cases members with
    | nil => exact ⟨_, rfl⟩
    | cons next members => exact ⟨_, rfl⟩

/-- An object is read if its members are. -/
theorem reads_object {members : List (String × Value)}
    {outlines : List (Except Fault String × Outline)}
    (h : List.Forall₂ ReadsMember members outlines) (hne : members ≠ []) :
    Reads (Value.object members).render (.object outlines none) := by
  intro bound rest hbound
  have htext : (Value.object members).render ++ rest =
      '\x7b' :: (Value.commaSeparated (Value.renderMembers members) ++ '\x7d' :: rest) := by
    simp [Value.render]
  simp only [Value.render, List.length_cons, List.length_append] at hbound
  obtain ⟨bound, rfl⟩ := Nat.exists_eq_succ_of_ne_zero (show bound ≠ 0 by omega)
  have hlt : (Value.commaSeparated (Value.renderMembers members)).length < bound := by
    simp only [List.length_nil] at hbound
    omega
  have hread := readMembers_render h hne bound rest hlt
  obtain ⟨more, hmore⟩ := exists_quote hne
  rw [htext]
  rw [hmore, List.cons_append] at hread ⊢
  simp [readOutline, skipBlanks_cons, isBlank, hread, Progress.object]

/-! ## Whole texts -/

theorem Reads.document {text : List Char} {outline : Outline} (h : Reads text outline) :
    Document.ofString (String.ofList text) = ⟨outline, false⟩ := by
  have hread := h (2 * text.length + 2) [] (by omega)
  rw [List.append_nil] at hread
  rw [Document.ofString, String.toList_ofList, Document.ofChars]
  simp only [hread]
  rfl

end Verdict.Json
