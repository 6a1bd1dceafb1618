import Mathlib.Data.List.Induction
import Verdict.Evaluation
import Verdict.Proofs.Spine

/-!
# What evaluation answers

A tree is refused exactly if one of its clauses cannot be read, and then for the leftmost such
clause; otherwise the answer is the verdict of its clauses under its connectives (`check_eq`). The
record decides the verdict only, never whether there is one (`refused_or_decided`).
-/

namespace Verdict

open Json

/-! ## Clauses -/

namespace Clause

/-- Why a clause cannot be read; none if it can. -/
def refusal? (text : String) : Option Refusal :=
  match parse text with
  | .ok _ => none
  | .error refusal => some refusal

/-- The verdict of a clause; one that cannot be read does not hold. -/
def verdict (record : Value) (text : String) : Bool :=
  match parse text with
  | .ok clause => clause.holds record
  | .error _ => false

theorem refusal?_of_ok {text : String} {clause : Clause} (h : parse text = .ok clause) :
    refusal? text = none := by
  unfold refusal?
  rw [h]

theorem refusal?_of_error {text : String} {refusal : Refusal} (h : parse text = .error refusal) :
    refusal? text = some refusal := by
  unfold refusal?
  rw [h]

theorem verdict_of_ok {text : String} {clause : Clause} (h : parse text = .ok clause)
    (record : Value) : verdict record text = clause.holds record := by
  unfold verdict
  rw [h]

/-- The clause can be read, and the record has a value under its name that compares as it says. -/
def HoldsOf (record : Value) (text : String) : Prop :=
  ∃ clause value, parse text = .ok clause ∧ record.attribute? clause.name = some value ∧
    clause.comparator.compare value clause.literal = true

theorem verdict_eq_true_iff {record : Value} {text : String} :
    verdict record text = true ↔ HoldsOf record text := by
  unfold verdict HoldsOf
  cases parse text with
  | error refusal => simp
  | ok clause =>
    simp only [holds]
    cases hvalue : record.attribute? clause.name with
    | none => simp [hvalue]
    | some value => simp [hvalue]

end Clause

/-! ## Trees -/

namespace Tree

/-- The verdict of a tree. -/
def verdict (record : Value) : Tree → Bool
  | .leaf clause => Clause.verdict record clause
  | .join connective left right => connective.apply (left.verdict record) (right.verdict record)

/-- Why a tree is refused: the refusal of its leftmost clause that cannot be read. -/
def refusal? (tree : Tree) : Option Refusal :=
  tree.clauses.findSome? Clause.refusal?

theorem refusal?_join (c : Connective) (l r : Tree) :
    (join c l r).refusal? = l.refusal?.or r.refusal? := by
  unfold refusal?
  rw [clauses_join, List.findSome?_append]

/-- A tree is evaluated to its verdict unless one of its clauses is refused. -/
theorem check_eq (record : Value) (tree : Tree) :
    tree.check record = match tree.refusal? with
      | some refusal => .error refusal
      | none => .ok (tree.verdict record) := by
  induction tree with
  | leaf clause =>
    rw [check, checkClause, refusal?, clauses_leaf, List.findSome?_singleton]
    unfold verdict Clause.verdict Clause.refusal?
    cases Clause.parse clause with
    | ok c => rfl
    | error refusal => rfl
  | join c l r ihl ihr =>
    rw [check, ihl, ihr, refusal?_join]
    cases l.refusal? with
    | some refusal => rfl
    | none =>
      cases r.refusal? with
      | some refusal => rfl
      | none => rfl

theorem check_of_readable {tree : Tree}
    (h : ∀ clause ∈ tree.clauses, Clause.refusal? clause = none) (record : Value) :
    tree.check record = .ok (tree.verdict record) := by
  have hnone : tree.refusal? = none := List.findSome?_eq_none_iff.mpr h
  rw [check_eq, hnone]

/-- The verdict of a spine is the fold of the verdicts of its clauses from left to right. -/
theorem verdict_ofSpine (record : Value) (first : String) (rest : List (Connective × String)) :
    (ofSpine first rest).verdict record =
      rest.foldl (fun v link => link.1.apply v (Clause.verdict record link.2))
        (Clause.verdict record first) := by
  induction rest using List.reverseRecOn with
  | nil => rfl
  | append_singleton rest link ih =>
    rw [ofSpine_concat, verdict, ih, List.foldl_append]
    rfl

/-! ## Refusal and verdict apart -/

/-- A tree as a formula over what holds of its clauses. -/
def Satisfied (holds : String → Prop) : Tree → Prop
  | .leaf clause => holds clause
  | .join .and left right => left.Satisfied holds ∧ right.Satisfied holds
  | .join .or left right => left.Satisfied holds ∨ right.Satisfied holds

theorem verdict_eq_true_iff {record : Value} {tree : Tree} :
    tree.verdict record = true ↔ tree.Satisfied (Clause.HoldsOf record) := by
  induction tree with
  | leaf clause => exact Clause.verdict_eq_true_iff
  | join connective left right ihl ihr =>
    cases connective with
    | and => rw [verdict, Connective.apply, Bool.and_eq_true, ihl, ihr, Satisfied]
    | or => rw [verdict, Connective.apply, Bool.or_eq_true, ihl, ihr, Satisfied]

/-- Clauses that can be read are passed over on the way to the first refusal. -/
theorem refusal?_of_leftmost {tree : Tree} {front back : List String} {clause : String}
    {refusal : Refusal} (hclauses : tree.clauses = front ++ clause :: back)
    (hfront : ∀ text ∈ front, ∃ read, Clause.parse text = .ok read)
    (hclause : Clause.parse clause = .error refusal) : tree.refusal? = some refusal := by
  have hnone : front.findSome? Clause.refusal? = none := by
    rw [List.findSome?_eq_none_iff]
    intro text htext
    obtain ⟨read, hread⟩ := hfront text htext
    exact Clause.refusal?_of_ok hread
  rw [Tree.refusal?, hclauses, List.findSome?_append, hnone, Option.none_or, List.findSome?_cons,
    Clause.refusal?_of_error hclause]

theorem check_eq_error_iff {record : Value} {tree : Tree} {refusal : Refusal} :
    tree.check record = .error refusal ↔ tree.refusal? = some refusal := by
  rw [check_eq]
  cases tree.refusal? <;> simp

/-- Whatever the record, a tree is refused for its leftmost clause that cannot be read. If all can
be read there is a verdict, that of the tree as a formula over what holds of the clauses. Two
records never differ in a refusal. -/
theorem refused_or_decided (tree : Tree) (record : Value) :
    (∀ front clause back refusal, tree.clauses = front ++ clause :: back →
      (∀ text ∈ front, ∃ read, Clause.parse text = .ok read) →
      Clause.parse clause = .error refusal → evaluate (some tree) record = .error refusal) ∧
    ((∀ text ∈ tree.clauses, ∃ read, Clause.parse text = .ok read) →
      ∃ verdict, evaluate (some tree) record = .ok verdict ∧
        (verdict = true ↔ tree.Satisfied (Clause.HoldsOf record))) ∧
    ∀ (other : Value) (refusal : Refusal),
      evaluate (some tree) record = .error refusal ↔
        evaluate (some tree) other = .error refusal := by
  refine ⟨fun front clause back refusal hclauses hfront hclause => ?_, fun hread => ?_,
    fun other refusal => ?_⟩
  · exact check_eq_error_iff.mpr (refusal?_of_leftmost hclauses hfront hclause)
  · refine ⟨tree.verdict record, check_of_readable (fun text htext => ?_) record,
      verdict_eq_true_iff⟩
    obtain ⟨read, hparse⟩ := hread text htext
    exact Clause.refusal?_of_ok hparse
  · exact check_eq_error_iff.trans check_eq_error_iff.symm

/-- A refusal behind a side that decides, and a tree that can be read against a record without any
attribute. -/
theorem refused_or_decided_masked :
    evaluate (some (.join .or (.join .or (.leaf "a = 1") (.leaf "b <> 1")) (.leaf "?")))
        (.object [("a", .string "1")]) = .error (.unknownOperator "<>") ∧
      (∃ verdict, evaluate (some (.join .and (.leaf "a = 1") (.leaf "b =")))
          (.array []) = .ok verdict ∧
        (verdict = true ↔ Satisfied (Clause.HoldsOf (.array []))
          (.join .and (.leaf "a = 1") (.leaf "b =")))) := by
  have hread : Clause.parse "a = 1" = .ok ⟨"a", .equal, "1"⟩ := by decide +kernel
  have hempty : Clause.parse "b =" = .ok ⟨"b", .equal, ""⟩ := by decide +kernel
  have hunknown : Clause.parse "b <> 1" = .error (.unknownOperator "<>") := by decide +kernel
  refine ⟨(refused_or_decided _ _).1 ["a = 1"] "b <> 1" ["?"] _ rfl ?_ hunknown,
    (refused_or_decided _ _).2.1 ?_⟩
  · intro text htext
    rw [List.mem_singleton.mp htext]
    exact ⟨_, hread⟩
  · intro text htext
    rw [clauses_join, clauses_leaf, clauses_leaf, List.singleton_append, List.mem_cons,
      List.mem_singleton] at htext
    rcases htext with rfl | rfl
    · exact ⟨_, hread⟩
    · exact ⟨_, hempty⟩

end Tree

end Verdict
