import Verdict.Proofs.ClauseReading
import Verdict.Proofs.Conjunction
import Verdict.Proofs.History
import Verdict.Proofs.Verdicts

/-!
# When a parsed rule is refused

Every clause of a parsed or combined rule is an operand, and an operand is read unless its quoted
literal holds a line feed. So evaluation gives a verdict unless a literal runs over the end of a
line; then it refuses the leftmost such clause as an invalid operand (`answers_unless_spansLines`).
A comparator is never refused.
-/

namespace Verdict

open Json

/-! ## Operands -/

theorem Clause.refusal?_of_isOperand {clause : String} (h : isOperand clause = true) :
    refusal? clause =
      if Operand.spansLines clause then some (.invalidOperand clause) else none := by
  obtain ⟨s, rfl⟩ := Operand.exists_spelling h
  have hparse := Clause.parse_text s
  rw [← Operand.spansLines_text] at hparse
  by_cases hlf : Operand.spansLines (String.ofList s.text) = true
  · rw [if_pos hlf] at hparse ⊢
    exact refusal?_of_error hparse
  · rw [if_neg hlf] at hparse ⊢
    exact refusal?_of_ok hparse

namespace Tree

/-! ## Combined rules -/

theorem isOperand_of_combine? {rules : List String} {tree : Tree}
    (h : combine? rules = some tree) {clause : String} (hc : clause ∈ tree.clauses) :
    isOperand clause = true := by
  unfold combine? at h
  cases htrees : rules.filterMap parse? with
  | nil =>
    rw [htrees] at h
    cases h
  | cons t trees =>
    rw [htrees, conjoin?] at h
    cases h
    rw [clauses_foldl_join, ← htrees] at hc
    obtain ⟨u, hu, hmem⟩ := List.mem_flatMap.mp hc
    obtain ⟨rule, -, hrule⟩ := List.mem_filterMap.mp hu
    exact isOperand_of_parse? hrule hmem

/-! ## Trees of operands -/

/-- The clauses of a rule that may have no tree. -/
def clausesOf : Option Tree → List String
  | none => []
  | some tree => tree.clauses

/-- The answer is a verdict, unless a literal of the tree runs over the end of a line; then it is
the refusal of the leftmost clause with such a literal. -/
def AnswersUnlessSpansLines (tree : Option Tree) (answer : Except Refusal Bool) : Prop :=
  match (clausesOf tree).find? Operand.spansLines with
  | some clause => answer = .error (.invalidOperand clause)
  | none => ∃ verdict, answer = .ok verdict

theorem findSome?_refusal? {clauses : List String}
    (h : ∀ clause ∈ clauses, isOperand clause = true) :
    clauses.findSome? Clause.refusal? =
      (clauses.find? Operand.spansLines).map Refusal.invalidOperand := by
  induction clauses with
  | nil => rfl
  | cons clause clauses ih =>
    have ih := ih fun c hc => h c (List.mem_cons_of_mem _ hc)
    rw [List.findSome?_cons, List.find?_cons,
      Clause.refusal?_of_isOperand (h clause List.mem_cons_self)]
    cases Operand.spansLines clause with
    | true => rfl
    | false => exact ih

theorem answers_of_isOperand {tree : Option Tree}
    (h : ∀ clause ∈ clausesOf tree, isOperand clause = true) (record : Value) :
    AnswersUnlessSpansLines tree (evaluate tree record) := by
  cases tree with
  | none => exact ⟨false, rfl⟩
  | some tree =>
    have hrefusal : tree.refusal? = _ := findSome?_refusal? h
    show match tree.clauses.find? Operand.spansLines with
      | some clause => tree.check record = .error (.invalidOperand clause)
      | none => ∃ verdict, tree.check record = .ok verdict
    rw [check_eq, hrefusal]
    cases tree.clauses.find? Operand.spansLines with
    | some clause => rfl
    | none => exact ⟨_, rfl⟩

theorem isOperand_of_mem_clausesOf {tree : Option Tree}
    (h : ∀ t, tree = some t → ∀ clause ∈ t.clauses, isOperand clause = true) :
    ∀ clause ∈ clausesOf tree, isOperand clause = true := by
  cases tree with
  | none =>
    intro clause hc
    cases hc
  | some t => exact h t rfl

/-- Evaluating a parsed rule, checking a rule after any steps of the engine, and evaluating combined
rules give a verdict, unless a literal runs over the end of a line. -/
theorem answers_unless_spansLines (rule : String) (rules : List String) (record : Value)
    (steps : List Session.Step) :
    AnswersUnlessSpansLines (parse? rule) (evaluate (parse? rule) record) ∧
      AnswersUnlessSpansLines (parse? rule) ((Session.after steps).check rule record).1 ∧
      AnswersUnlessSpansLines (combine? rules) (evaluate (combine? rules) record) := by
  have hparse : AnswersUnlessSpansLines (parse? rule) (evaluate (parse? rule) record) :=
    answers_of_isOperand (isOperand_of_mem_clausesOf fun _ ht _ hc => isOperand_of_parse? ht hc) _
  refine ⟨hparse, ?_, ?_⟩
  · rw [Session.check_after]
    exact hparse
  · exact answers_of_isOperand
      (isOperand_of_mem_clausesOf fun _ ht _ hc => isOperand_of_combine? ht hc) _

/-- A rule whose literal runs over the end of a line is accepted and then refused. -/
theorem parsed_and_refused :
    parse? "a = 'x\ny'" = some (.leaf "a = 'x\ny'") ∧
      evaluate (parse? "a = 'x\ny'") (.object [("a", .string "x\ny")]) =
        .error (.invalidOperand "a = 'x\ny'") := by
  decide +kernel

end Tree

end Verdict
