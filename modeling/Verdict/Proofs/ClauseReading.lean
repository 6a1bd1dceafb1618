import Verdict.Evaluation
import Verdict.Proofs.Spelling

/-!
# Reading the clauses of a rule

An operand that the recogniser accepts is read as the clause that it spells, with one exception:
a clause that holds a line feed inside its quotes is refused (`parse_text`). No operand is refused
for its comparator.
-/

namespace Verdict

open Text

namespace Operand

/-- The clause that an operand spells. -/
def Spelling.clause (s : Spelling) : Clause :=
  ⟨String.ofList s.name, s.comparator, String.ofList s.literal.content⟩

/-- The quoted literal of an operand runs over the end of a line. -/
def spansLines (clause : String) : Bool :=
  (clause.toList.dropWhile (· != '\'')).contains '\n'

theorem lineFeed_not_mem_word {word : List Char} (hw : ∀ c ∈ word, isWordChar c = true) :
    '\n' ∉ word := by
  intro h
  exact absurd (hw '\n' h) (by decide)

/-- Nothing in front of the value is an apostrophe. -/
theorem Spelling.dropWhile_text (s : Spelling) :
    s.text.dropWhile (· != '\'') = s.literal.written.dropWhile (· != '\'') := by
  have hname : ∀ d ∈ s.name, (d != '\'') = true := by
    intro d hd
    exact bne_iff_ne.mpr (ne_apostrophe_of_isWordChar (isWordChar_of_mem_name s.isName hd))
  have hbefore : ∀ d ∈ s.spaceBefore, (d != '\'') = true := by
    intro d hd
    exact bne_iff_ne.mpr (ne_apostrophe_of_isBlank (s.blankBefore d hd))
  have hsign : ∀ d ∈ s.comparator.sign, (d != '\'') = true := by
    intro d hd
    exact bne_iff_ne.mpr (classes_of_isSignChar (isSignChar_of_mem_sign hd)).2.2
  have hafter : ∀ d ∈ s.spaceAfter, (d != '\'') = true := by
    intro d hd
    exact bne_iff_ne.mpr (ne_apostrophe_of_isBlank (s.blankAfter d hd))
  unfold Spelling.text
  rw [List.dropWhile_append_of_pos hname, List.dropWhile_append_of_pos hbefore,
    List.dropWhile_append_of_pos hsign, List.dropWhile_append_of_pos hafter]

/-- A line feed after the first apostrophe is one of the literal; a bare word holds none. -/
theorem spansLines_text (s : Spelling) :
    spansLines (String.ofList s.text) = s.literal.content.contains '\n' := by
  rw [spansLines, String.toList_ofList, s.dropWhile_text]
  have hwf := s.wellFormed
  generalize s.literal = l at hwf ⊢
  cases l with
  | bare word =>
    obtain ⟨-, hw⟩ := hwf
    have hne : ∀ d ∈ word, (d != '\'') = true := by
      intro d hd
      exact bne_iff_ne.mpr (ne_apostrophe_of_isWordChar (hw d hd))
    have hlf : word.contains '\n' = false := by
      simpa using lineFeed_not_mem_word hw
    have hdrop : word.dropWhile (· != '\'') = [] := List.dropWhile_eq_nil_iff.mpr hne
    rw [Literal.written, Literal.content, hlf, hdrop]
    rfl
  | quoted text =>
    simp [Literal.written, Literal.content]

end Operand

namespace Clause

open Operand

theorem dropQuote_eq_self {cs : List Char} (h : cs.head? ≠ some '\'') : dropQuote cs = cs := by
  cases cs with
  | nil => rfl
  | cons c rest => exact if_neg (by simpa using h)

/-- The quotes of a value are dropped and nothing else. -/
theorem literalOf_written {l : Literal} (h : l.WellFormed) : literalOf l.written = l.content := by
  have hblank := Literal.getLast?_not_blank h
  cases l with
  | bare word =>
    have hne : ∀ c ∈ word, c ≠ '\'' := by
      intro c hc
      exact ne_apostrophe_of_isWordChar (h.2 c hc)
    have hhead : word.head? ≠ some '\'' := by
      intro hc
      exact hne _ (List.mem_of_head? hc) rfl
    have hlast : word.reverse.head? ≠ some '\'' := by
      intro hc
      exact hne _ (List.mem_reverse.mp (List.mem_of_head? hc)) rfl
    rw [Literal.written] at hblank ⊢
    rw [literalOf, dropQuote_eq_self hhead, trimRight_eq_self hblank, dropQuote_eq_self hlast,
      List.reverse_reverse, Literal.content]
  | quoted text =>
    have hend : (text ++ ['\'']).getLast?.any isBlank = false := by
      rw [List.getLast?_concat]
      decide
    rw [Literal.written, literalOf, List.cons_append, dropQuote, if_pos rfl,
      trimRight_eq_self hend, List.reverse_append, List.reverse_singleton, List.singleton_append,
      dropQuote, if_pos rfl, List.reverse_reverse, Literal.content]

/-- The parts of an operand are what it spells. -/
theorem split?_text (s : Spelling) :
    split? s.text = some ⟨s.name, s.comparator.sign, s.literal.content⟩ := by
  obtain ⟨c, rest, hname, hstart, hrest⟩ := s.isName
  have hblank : isBlank c = false :=
    isBlank_eq_false_of_isWordChar (isWordChar_of_isNameStart hstart)
  have hword := head?_afterName s.blankBefore s.comparator (s.spaceAfter ++ s.literal.written)
  have hsign : ∀ d ∈ s.comparator.sign, Comparator.isSignChar d = true := by
    intro d hd
    exact isSignChar_of_mem_sign hd
  have hafter := head?_afterSign s.blankAfter s.wellFormed
  rw [Spelling.text, hname, List.cons_append, split?,
    List.dropWhile_cons_of_neg (Bool.not_eq_true _ ▸ hblank)]
  simp only
  rw [if_pos hstart, dropWhile_run hrest hword, takeWhile_run hrest hword,
    dropWhile_run s.blankBefore (head?_sign_not_blank _ _), takeWhile_run hsign hafter,
    dropWhile_run hsign hafter,
    dropWhile_run s.blankAfter (Literal.head?_not_blank s.wellFormed),
    literalOf_written s.wellFormed]

/-- An operand is read as the clause that it spells, unless its literal holds a line feed. -/
theorem parse_text (s : Spelling) :
    parse (String.ofList s.text) =
      if s.literal.content.contains '\n' then .error (.invalidOperand (String.ofList s.text))
      else .ok s.clause := by
  have hne : s.comparator.sign.isEmpty = false := by
    rw [List.isEmpty_eq_false_iff]
    exact sign_ne_nil s.comparator
  rw [parse, String.toList_ofList, split?_text]
  simp only [hne, Bool.false_or]
  split
  · rfl
  · rw [Comparator.ofSign, String.toList_ofList, Comparator.ofSign?_sign]
    rfl

end Clause

end Verdict
