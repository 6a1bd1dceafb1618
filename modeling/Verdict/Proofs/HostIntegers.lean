import Verdict.Proofs.HostAgreement
import Verdict.Proofs.IntegerOrder

/-!
# Integers of a host

Integers of a host have any size. One that fits 64 bits becomes a number and is compared as the
binary64 number nearest to it; a larger one becomes the text of its digits, which is equal to a
literal as text, and ordered as the number that it writes, or as text where that is out of range.
Whichever way an integer goes, it is level with its own digits (`level_valueOfInt`). So the rule
that compares an attribute with the digits of its integer answers as if it compared equal numbers.
-/

namespace Verdict

open Json Text

/-! ## Digits -/

theorem Number.ofList_integerText (n : ℤ) : String.ofList (integerText n) = toString n := by
  unfold integerText
  cases n with
  | ofNat k =>
    have hsign : ¬Int.ofNat k < 0 := not_lt.mpr (Int.natCast_nonneg k)
    rw [if_neg hsign]
    rfl
  | negSucc k =>
    rw [if_pos (Int.negSucc_lt_zero k), String.ofList_append]
    rfl

theorem Number.not_mem_integerText {c : Char} (hsign : c ≠ '-') (hdigit : c.isDigit = false)
    (n : ℤ) : c ∉ integerText n := by
  have hdigits : c ∉ Nat.toDigits 10 n.natAbs := by
    intro hc
    rw [Numeral.digits_toDigits _ c hc] at hdigit
    cases hdigit
  unfold integerText
  split
  · exact List.not_mem_cons_of_ne_of_not_mem hsign hdigits
  · exact hdigits

/-! ## Values level with a literal -/

namespace Comparator

/-- The comparators that hold between equals. -/
def admitsEqual : Comparator → Bool
  | .equal => true
  | .greaterEqual => true
  | .lessEqual => true
  | .notEqual => false
  | .greater => false
  | .less => false

theorem compare_of_level {value : Value} {literal : String}
    (hequal : value.looselyEquals literal = true) (horder : value.order? literal = some .eq)
    (comparator : Comparator) : comparator.compare value literal = comparator.admitsEqual := by
  obtain ⟨hgt, hlt, hge, hle⟩ := compares_of_order? horder
  cases comparator with
  | greater => exact hgt
  | less => exact hlt
  | greaterEqual => exact hge
  | lessEqual => exact hle
  | equal => exact hequal
  | notEqual => exact congrArg not hequal

end Comparator

namespace Host

namespace Object

theorem valueOfInt_of_fits {n : ℤ}
    (h : -9223372036854775808 ≤ n ∧ n < 18446744073709551616) :
    valueOfInt n = .number (.integer n h.1 h.2) := by
  rw [valueOfInt, Number.ofInt?, dif_pos h]

theorem valueOfInt_of_not_fits {n : ℤ}
    (h : ¬(-9223372036854775808 ≤ n ∧ n < 18446744073709551616)) :
    valueOfInt n = .string (toString n) := by
  rw [valueOfInt, Number.ofInt?, dif_neg h, Number.ofList_integerText]

/-- The value of an integer equals its digits and is level with them, as a number and as a text. -/
theorem level_valueOfInt (n : ℤ) :
    (valueOfInt n).looselyEquals (toString n) = true ∧
      (valueOfInt n).order? (toString n) = some .eq := by
  by_cases h : -9223372036854775808 ≤ n ∧ n < 18446744073709551616
  · have horder := Value.order?_text (.integer n h.1 h.2)
    rw [Number.text, Number.ofList_integerText] at horder
    rw [valueOfInt_of_fits h]
    exact ⟨Value.order?_number_eq_iff.mp horder, horder⟩
  · rw [valueOfInt_of_not_fits h]
    exact ⟨Value.looselyEquals_string_iff.mpr rfl, Value.order?_string_eq_iff.mpr (.inl rfl)⟩

end Object

/-! ## Rules about digits -/

/-- The rule that compares an attribute with the digits of an integer. -/
def digitsRule (name : String) (comparator : Comparator) (n : ℤ) : String :=
  name ++ " " ++ String.ofList comparator.sign ++ " '" ++ toString n ++ "'"

variable {name : String}

/-- The clause that the rule spells. -/
def digitsClause (hname : Operand.IsName name.toList) (hne : ∀ c : Connective, name ≠ c.word)
    (comparator : Comparator) (n : ℤ) : PlainClause where
  name := name.toList
  spaceBefore := [' ']
  comparator := comparator
  spaceAfter := [' ']
  literal := .quoted (Number.integerText n)
  isName := hname
  blankBefore := blanks_space
  blankAfter := blanks_space
  wellFormed := Number.not_mem_integerText (by decide) (by decide) n
  name_ne := fun c h => hne c (String.toList_injective h)
  plain := ⟨Number.not_mem_integerText (by decide) (by decide) n,
    List.forall_mem_singleton.mpr (by decide)⟩

theorem text_digitsClause (hname : Operand.IsName name.toList)
    (hne : ∀ c : Connective, name ≠ c.word) (comparator : Comparator) (n : ℤ) :
    String.ofList (digitsClause hname hne comparator n).text = digitsRule name comparator n := by
  unfold digitsRule
  rw [← Number.ofList_integerText]
  apply String.toList_injective
  simp [digitsClause, Operand.Spelling.text, Operand.Literal.written]

/-- The clause answers as for equals. -/
theorem verdict_digitsClause (hname : Operand.IsName name.toList)
    (hne : ∀ c : Connective, name ≠ c.word) (comparator : Comparator) (n : ℤ) :
    (digitsClause hname hne comparator n).verdict (.object [(name, Object.valueOfInt n)]) =
      comparator.admitsEqual := by
  have hvalue : (Value.object [(name, Object.valueOfInt n)]).attribute?
      (String.ofList name.toList) = some (Object.valueOfInt n) := by
    rw [String.ofList_toList]
    exact List.lookup_cons_self
  have hlevel := Object.level_valueOfInt n
  unfold PlainClause.verdict
  rw [digitsClause, hvalue]
  dsimp only [Operand.Literal.content]
  rw [Number.ofList_integerText]
  exact Comparator.compare_of_level hlevel.1 hlevel.2 comparator

/-- An integer of a host, of any size, matches its own digits: the rule that compares the attribute
with them holds for the comparators that equals satisfy and for no others. So it does for a host
that has the rule parsed and evaluates the tree, and for one that has it checked after any steps. -/
theorem integers_match_digits (n : ℤ) (hname : Operand.IsName name.toList)
    (hne : ∀ c : Connective, name ≠ c.word) (comparator : Comparator)
    (steps : List Session.Step) :
    let rule := digitsRule name comparator n
    let data := Object.dict [(.text name, .int n)]
    (∃ record, data.toRecord = .ok record ∧
        evaluate (Tree.parse? rule) record = .ok comparator.admitsEqual) ∧
      (parseRule (.text rule) >>= fun tree => evaluateTree tree data) =
        .ok comparator.admitsEqual ∧
      (Session.step (Session.after steps) (.hostCheck (.text rule) data)).1 =
        .verdict comparator.admitsEqual := by
  intro rule data
  have hdata : data.toRecord = .ok (.object [(name, Object.valueOfInt n)]) := rfl
  have hevaluate : evaluate (Tree.parse? rule) (.object [(name, Object.valueOfInt n)]) =
      .ok comparator.admitsEqual := by
    have h := (digitsClause hname hne comparator n).evaluate_text
      (.object [(name, Object.valueOfInt n)])
    rw [text_digitsClause, verdict_digitsClause] at h
    exact h
  refine ⟨⟨_, hdata, hevaluate⟩, ?_, ?_⟩
  · have hclauses : ∀ clause ∈ Tree.clausesOf (Tree.parse? rule), isOperand clause = true :=
      Tree.isOperand_of_mem_clausesOf fun _ ht _ hc => Tree.isOperand_of_parse? ht hc
    have h := evaluateTree_ofTree? hclauses hdata
    rw [hevaluate] at h
    exact h
  · rw [Session.hostCheck_after steps rule hdata, hevaluate]
    rfl

/-- The least integer above 64 bits, which binary64 holds, one just below the least with a sign,
which it does not, and one beyond the greatest binary64 number. -/
theorem integers_match_digits_beyond :
    (parseRule (.text "id >= '18446744073709551616'") >>= fun tree =>
        evaluateTree tree (.dict [(.text "id", .int 18446744073709551616)])) = .ok true ∧
      (Session.step (Session.after []) (.hostCheck (.text "id < '-9223372036854775809'")
        (.dict [(.text "id", .int (-9223372036854775809))]))).1 = .verdict false ∧
      (parseRule (.text (digitsRule "id" .equal (10 ^ 400))) >>= fun tree =>
        evaluateTree tree (.dict [(.text "id", .int (10 ^ 400))])) = .ok true := by
  have hname : Operand.IsName "id".toList :=
    ⟨'i', ['d'], rfl, by decide, List.forall_mem_singleton.mpr (by decide)⟩
  have hne : ∀ c : Connective, "id" ≠ c.word := by
    intro c
    cases c <;> decide
  have hleast : digitsRule "id" .greaterEqual 18446744073709551616 =
      "id >= '18446744073709551616'" := by decide +kernel
  have hbelow : digitsRule "id" .less (-9223372036854775809) = "id < '-9223372036854775809'" := by
    decide +kernel
  refine ⟨?_, ?_, (integers_match_digits (10 ^ 400) hname hne .equal []).2.1⟩
  · rw [← hleast]
    exact (integers_match_digits 18446744073709551616 hname hne .greaterEqual []).2.1
  · rw [← hbelow]
    exact (integers_match_digits (-9223372036854775809) hname hne .less []).2.2

end Host

end Verdict
