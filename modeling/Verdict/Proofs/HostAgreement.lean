import Verdict.Proofs.LineFeeds
import Verdict.Proofs.WireRoundTrip

/-!
# The host answers as the engine does

A host gets the tree of a rule as a dictionary and hands it back to have it evaluated, or it has the
rule checked in one step. The dictionary of a tree is read back as the tree, at any depth, unless a
clause is blank (`toTree_ofTree`), and no clause of a rule is. So both ways lead to what evaluating
the parsed rule answers, refusals included, whatever the engine did before (`surface_agrees`).
-/

namespace Verdict

theorem isBlankText_of_isOperand {clause : String} (h : isOperand clause = true) :
    Text.isBlankText clause = false := by
  rw [Text.isBlankText_eq_false_iff]
  unfold isOperand at h
  cases hclause : clause.toList with
  | nil =>
    rw [hclause] at h
    cases h
  | cons c rest =>
    rw [hclause, Operand.accepts, Bool.and_eq_true] at h
    exact ⟨c, List.mem_cons_self,
      Text.isBlank_eq_false_of_isWordChar (Text.isWordChar_of_isNameStart h.1)⟩

namespace Tree

theorem noBlankClause_of_isOperand {tree : Tree}
    (h : ∀ clause ∈ tree.clauses, isOperand clause = true) : tree.NoBlankClause := by
  intro clause hc
  exact Text.isBlankText_eq_false_iff.mp (isBlankText_of_isOperand (h clause hc))

end Tree

namespace Host

open Wire

/-! ## Dictionaries of trees -/

theorem ofTree?_some (tree : Tree) : Object.ofTree? (some tree) =
    node tree.kind (.ofTree? tree.left?) (.ofTree? tree.right?) tree.label := by
  cases tree <;> rfl

/-- The shape of a dictionary of the four fields of a node. -/
theorem shapeOf_node (kind word : String) (left right : Object) :
    shapeOf (node kind left right word) = do
      let l ← shapeOf left
      let r ← shapeOf right
      return .node kind l r (some word) := by
  have hkind : kindOf (node kind left right word) = .ok kind := rfl
  have hvalue : valueOf (node kind left right word) = .ok (some word) := rfl
  rw [node] at hkind hvalue ⊢
  rw [shapeOf, hkind, hvalue]
  simp only [shapeOfEntry, String.reduceEq, if_true, if_false]
  rfl

theorem shapeOf_ofTree (tree : Tree) : shapeOf (Object.ofTree tree) = .ok (Shape.ofTree tree) := by
  induction tree with
  | leaf clause =>
    rw [Object.ofTree, shapeOf_node]
    rfl
  | join connective left right ihl ihr =>
    rw [Object.ofTree, shapeOf_node, ihl, ihr]
    rfl

/-- The dictionary of a tree is read back as the tree. -/
theorem toTree_ofTree {tree : Tree} (h : tree.NoBlankClause) :
    (Object.ofTree tree).toTree = .ok (some tree) := by
  rw [Object.toTree, shapeOf_ofTree]
  simp only [bind, Except.bind, Shape.check_ofTree, if_pos h]
  rfl

theorem toTree_ofTree? {tree : Option Tree}
    (h : ∀ clause ∈ Tree.clausesOf tree, isOperand clause = true) :
    (Object.ofTree? tree).toTree = .ok tree := by
  cases tree with
  | none => rfl
  | some tree => exact toTree_ofTree (Tree.noBlankClause_of_isOperand h)

/-! ## Answers to the host -/

/-- An answer as the host gets it. -/
def toHost (answer : Except Refusal Bool) : Except Fault Bool :=
  answer.mapError .refused

theorem evaluateTree_eq {data : Object} {record : Json.Value} (hdata : data.toRecord = .ok record)
    (tree : Object) :
    evaluateTree tree data = tree.toTree >>= fun tree => toHost (evaluate tree record) := by
  cases data with
  | dict entries =>
    rw [evaluateTree]
    refine congrArg (tree.toTree >>= ·) (funext fun tree => ?_)
    simp only [hdata, bind, Except.bind]
    cases evaluate tree record with
    | ok verdict => rfl
    | error refusal => rfl
  | _ => cases hdata

/-- A tree that is handed out and back is evaluated as it is. -/
theorem evaluateTree_ofTree? {tree : Option Tree} {data : Object} {record : Json.Value}
    (h : ∀ clause ∈ Tree.clausesOf tree, isOperand clause = true)
    (hdata : data.toRecord = .ok record) :
    evaluateTree (.ofTree? tree) data = toHost (evaluate tree record) := by
  rw [evaluateTree_eq hdata, toTree_ofTree? h]
  rfl

theorem rulesOf_list (rules : List String) :
    rulesOf (.list (rules.map .text)) = .ok rules := by
  rw [rulesOf]
  induction rules with
  | nil => rfl
  | cons rule rules ih =>
    rw [List.map_cons, List.mapM_cons, ih]
    rfl

end Host

namespace Session

/-- The answer to a host that asked for a verdict. -/
def Answer.ofHost : Except Host.Fault Bool → Answer
  | .ok b => .verdict b
  | .error fault => .hostRefused fault

/-- After any steps a check for the host answers what evaluating the parsed rule answers. -/
theorem hostCheck_after (steps : List Step) (rule : String) {data : Host.Object}
    {record : Json.Value} (hdata : data.toRecord = .ok record) :
    (step (after steps) (.hostCheck (.text rule) data)).1 =
      .ofHost (Host.toHost (evaluate (Tree.parse? rule) record)) := by
  simp only [step, Host.textOf, hdata]
  rw [check_after]
  cases evaluate (Tree.parse? rule) record <;> rfl

end Session

namespace Host

/-- A host that has a rule parsed and hands the tree back for evaluation, or has the rule checked
after any steps of the engine, gets what evaluating the parsed rule answers, and the same holds of
combined rules. The dictionary of any tree without a blank clause is read back as the tree. -/
theorem surface_agrees (rule : String) (rules : List String) (steps : List Session.Step)
    (data : Object) (record : Json.Value) (hdata : data.toRecord = .ok record) :
    (parseRule (.text rule) >>= fun tree => evaluateTree tree data) =
        toHost (evaluate (Tree.parse? rule) record) ∧
      (Session.step (Session.after steps) (.hostCheck (.text rule) data)).1 =
        .ofHost (toHost (evaluate (Tree.parse? rule) record)) ∧
      (combineRules (.list (rules.map .text)) >>= fun tree => evaluateTree tree data) =
        toHost (evaluate (Tree.combine? rules) record) ∧
      ∀ tree : Tree, tree.NoBlankClause → (Object.ofTree tree).toTree = .ok (some tree) := by
  refine ⟨?_, Session.hostCheck_after steps rule hdata, ?_, fun tree h => toTree_ofTree h⟩
  · exact evaluateTree_ofTree?
      (Tree.isOperand_of_mem_clausesOf fun _ ht _ hc => Tree.isOperand_of_parse? ht hc) hdata
  · rw [combineRules, rulesOf_list]
    exact evaluateTree_ofTree?
      (Tree.isOperand_of_mem_clausesOf fun _ ht _ hc => Tree.isOperand_of_combine? ht hc) hdata

/-- A record with an integer that fits no 64 bits, after the cache was switched off; a rule that
holds, and two of which one is refused. -/
theorem surface_agrees_off :
    (parseRule (.text "id = '99999999999999999999' OR x") >>= fun tree =>
        evaluateTree tree (.dict [(.text "id", .int 99999999999999999999)])) = .ok true ∧
      (combineRules (.list [.text "", .text "id = 'a\nb'"]) >>= fun tree =>
        evaluateTree tree (.dict [(.text "id", .int 99999999999999999999)])) =
          .error (.refused (.invalidOperand "id = 'a\nb'")) ∧
      (Object.ofTree (.join .or (.leaf "AND") (.leaf "'"))).toTree =
        .ok (some (.join .or (.leaf "AND") (.leaf "'"))) := by
  obtain ⟨hparse, -, hcombine, htree⟩ := surface_agrees "id = '99999999999999999999' OR x"
    ["", "id = 'a\nb'"] [.configure ⟨false, 16⟩]
    (.dict [(.text "id", .int 99999999999999999999)])
    (.object [("id", .string "99999999999999999999")]) rfl
  refine ⟨?_, ?_, htree _ ?_⟩
  · rw [hparse]
    decide +kernel
  · exact hcombine.trans (by decide +kernel)
  · rw [Tree.noBlankClause_join, Tree.noBlankClause_leaf, Tree.noBlankClause_leaf]
    decide +kernel

end Host

end Verdict
