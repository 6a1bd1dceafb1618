import Verdict.Proofs.JsonTexts
import Verdict.Wire

/-!
# The round trip of a tree over the wire

A tree that is written is read back, as a value at any depth and as a text as far as the reader
nests. Three steps go into it.

1. What is written is read back to the shape of the tree (`shapeOf_toValue`, `shapeOfText_toText`).
   The reader of a text counts the nodes below each other, so a tree deeper than its limit is a
   fault of the text, whatever its clauses are.
2. The shape of a tree passes the check exactly if no clause is blank (`check_ofTree`).
3. Both codecs check the shape that they have read (`round_trip`).
-/

namespace Verdict

open Json

/-- Every clause holds a character that is no white space. -/
def Tree.NoBlankClause (tree : Tree) : Prop :=
  ∀ clause ∈ tree.clauses, ∃ c ∈ clause.toList, Text.isBlank c = false

instance (tree : Tree) : Decidable tree.NoBlankClause :=
  inferInstanceAs (Decidable (∀ clause ∈ tree.clauses, ∃ c ∈ clause.toList, Text.isBlank c = false))

theorem Text.isBlankText_eq_false_iff {text : String} :
    isBlankText text = false ↔ ∃ c ∈ text.toList, isBlank c = false := by
  simp [isBlankText]

namespace Tree

theorem noBlankClause_leaf {clause : String} :
    (leaf clause).NoBlankClause ↔ Text.isBlankText clause = false := by
  rw [Text.isBlankText_eq_false_iff]
  simp [NoBlankClause]

theorem noBlankClause_join {connective : Connective} {left right : Tree} :
    (join connective left right).NoBlankClause ↔ left.NoBlankClause ∧ right.NoBlankClause := by
  simp [NoBlankClause, or_imp, forall_and]

end Tree

namespace Wire

/-- Two readers one after the other, each of which fails unless its condition holds. -/
theorem bind_both {ε α β γ : Type} {p q : Prop} [Decidable p] [Decidable q] {x : Except ε α}
    {y : Except ε β} {a : α} {b : β} {e : ε} (hx : x = if p then .ok a else .error e)
    (hy : y = if q then .ok b else .error e) (next : α → β → Except ε γ) :
    (do
      let u ← x
      let v ← y
      next u v) = if p ∧ q then next a b else .error e := by
  rw [hx, hy]
  by_cases hp : p
  · by_cases hq : q
    · rw [if_pos hp, if_pos hq, if_pos ⟨hp, hq⟩]
      rfl
    · have hboth : ¬(p ∧ q) := by
        intro h
        exact hq h.2
      rw [if_pos hp, if_neg hq, if_neg hboth]
      rfl
  · have hboth : ¬(p ∧ q) := by
      intro h
      exact hp h.1
    rw [if_neg hp, if_neg hboth]
    rfl

/-! ## Checking the shape of a tree -/

/-- A tree is written as its kind, the trees left and right of it and its label. -/
theorem toValue_some (tree : Tree) : toValue (some tree) =
    .object [("kind", .string tree.kind), ("left", toValue tree.left?),
      ("right", toValue tree.right?), ("value", .string tree.label)] := by
  cases tree <;> rfl

theorem Shape.isAbsent_ofTree (tree : Tree) : (Shape.ofTree tree).isAbsent = false := by
  cases tree <;> rfl

/-- The shape of a tree makes the tree again unless a clause is blank. -/
theorem Shape.check_ofTree (tree : Tree) :
    (Shape.ofTree tree).check =
      if tree.NoBlankClause then .ok (some tree) else .error (.invalidNode .missingClause) := by
  induction tree with
  | leaf clause =>
    rw [Shape.ofTree, Shape.check, if_pos rfl]
    by_cases hblank : Text.isBlankText clause = true
    · have hn : ¬(Tree.leaf clause).NoBlankClause := by
        rw [Tree.noBlankClause_leaf]
        simpa using hblank
      rw [if_neg hn]
      exact if_pos hblank
    · have hn : (Tree.leaf clause).NoBlankClause := by
        rw [Tree.noBlankClause_leaf]
        simpa using hblank
      rw [if_pos hn]
      exact if_neg hblank
  | join connective left right ihl ihr =>
    have hword : Connective.ofWord connective.word = .ok connective := by
      cases connective <;> decide
    have hkind : ¬"operator" = "operand" := by decide
    simp only [Shape.ofTree, Shape.check, if_neg hkind, if_true, hword, isAbsent_ofTree,
      Tree.noBlankClause_join]
    exact bind_both ihl ihr _

/-! ## Reading what was written -/

/-- The shape of an object of the four fields of a node. -/
theorem shapeOf_node (kind word : String) (left right : Value) :
    shapeOf (.object [("kind", .string kind), ("left", left), ("right", right),
        ("value", .string word)]) = do
      let l ← shapeOf left
      let r ← shapeOf right
      return .node kind l r (some word) := by
  rw [shapeOf]
  simp only [shapeOfMembers, Field.ofKey?, String.reduceEq, if_true, if_false, Draft.has,
    Draft.empty, Option.isSome_none, Bool.false_eq_true, Draft.fill, Draft.finish, textOf,
    optionalTextOf]
  cases shapeOf left with
  | error fault => rfl
  | ok l =>
    cases shapeOf right with
    | error fault => rfl
    | ok r => rfl

/-- The value of a tree has the shape of the tree. -/
theorem shapeOf_toValue (tree : Tree) : shapeOf tree.toValue = .ok (Shape.ofTree tree) := by
  induction tree with
  | leaf clause =>
    rw [Tree.toValue, shapeOf_node]
    rfl
  | join connective left right ihl ihr =>
    rw [Tree.toValue, shapeOf_node, ihl, ihr]
    rfl

/-- The outline of an object of the four fields of a node. -/
def nodeOutline (kind word : String) (left right : Outline) : Outline :=
  .object [(.ok "kind", .string (.ok kind)), (.ok "left", left), (.ok "right", right),
    (.ok "value", .string (.ok word))] none

/-- The outline of the text of a tree. -/
def outlineOf : Tree → Outline
  | .leaf clause => nodeOutline "operand" clause .null .null
  | .join connective left right =>
    nodeOutline "operator" connective.word (outlineOf left) (outlineOf right)

theorem reads_node (kind word : String) {left right : Value} {l r : Outline}
    (hl : Reads left.render l) (hr : Reads right.render r) :
    Reads (Value.object [("kind", .string kind), ("left", left), ("right", right),
      ("value", .string word)]).render (nodeOutline kind word l r) :=
  reads_object
    (.cons ⟨rfl, reads_string kind⟩ (.cons ⟨rfl, hl⟩ (.cons ⟨rfl, hr⟩
      (.cons ⟨rfl, reads_string word⟩ .nil)))) (List.cons_ne_nil _ _)

theorem reads_tree (tree : Tree) : Reads tree.toValue.render (outlineOf tree) := by
  induction tree with
  | leaf clause => exact reads_node _ _ reads_null reads_null
  | join connective left right ihl ihr => exact reads_node _ _ ihl ihr

/-- A node takes one level, and the nodes below it share what is left. -/
theorem readShape_nodeOutline (room : Nat) (kind word : String) (left right : Outline) :
    readShape (room + 1) (nodeOutline kind word left right) = do
      let l ← readShape room left
      let r ← readShape room right
      return .node kind l r (some word) := by
  rw [nodeOutline, readShape]
  simp only [readShapeMembers, Field.ofKey?, Draft.has, Draft.empty, Option.isSome_none,
    Draft.fill, Draft.finish, readText, readOptionalText, Outline.close]
  cases readShape room left with
  | error fault => rfl
  | ok l =>
    cases readShape room right with
    | error fault => rfl
    | ok r => rfl

/-- The outline of a tree has its shape if the nodes nest within the room. -/
theorem readShape_outlineOf (tree : Tree) (room : Nat) :
    readShape room (outlineOf tree) =
      if tree.depth < room then .ok (Shape.ofTree tree) else .error .malformed := by
  induction tree generalizing room with
  | leaf clause =>
    cases room with
    | zero => rfl
    | succ room =>
      have hdepth : (Tree.leaf clause).depth < room + 1 := Nat.succ_pos room
      rw [outlineOf, readShape_nodeOutline, if_pos hdepth]
      cases room <;> rfl
  | join connective left right ihl ihr =>
    cases room with
    | zero => rfl
    | succ room =>
      have hdepth : (Tree.join connective left right).depth < room + 1 ↔
          left.depth < room ∧ right.depth < room := by
        rw [Tree.depth]
        omega
      rw [outlineOf, readShape_nodeOutline, bind_both (ihl room) (ihr room)]
      simp only [hdepth]
      rfl

/-- The text of a tree has the shape of the tree if it nests within the limit. -/
theorem shapeOfText_toText (tree : Tree) :
    shapeOfText (toText (some tree)) =
      if tree.depth < nestingLimit then .ok (Shape.ofTree tree) else .error .malformed := by
  rw [shapeOfText, toText, toValue, Value.toText_eq, (reads_tree tree).document,
    readShape_outlineOf]
  split <;> rfl

/-! ## The round trip -/

/-- A tree is read back from its value unless a clause is blank, and from its text if besides it
nests no deeper than the reader does; a rule without a tree is null in both. -/
theorem round_trip :
    (∀ tree : Tree, ofValue (toValue (some tree)) =
      if tree.NoBlankClause then .ok (some tree) else .error (.invalidNode .missingClause)) ∧
    (∀ tree : Tree, ofText (toText (some tree)) =
      if tree.depth ≤ 126 then
        if tree.NoBlankClause then .ok (some tree) else .error (.invalidNode .missingClause)
      else .error (.unreadable .malformed)) ∧
    (toValue none = .null ∧ ofValue (toValue none) = .ok none) ∧
    (toText none = "null" ∧ ofText (toText none) = .ok none) := by
  refine ⟨fun tree => ?_, fun tree => ?_, ⟨rfl, rfl⟩, ?_, ?_⟩
  · rw [ofValue, toValue, shapeOf_toValue]
    exact Shape.check_ofTree tree
  · rw [ofText, shapeOfText_toText]
    have hlimit : tree.depth < nestingLimit ↔ tree.depth ≤ 126 := Nat.lt_succ_iff
    by_cases hdepth : tree.depth ≤ 126
    · rw [if_pos (hlimit.mpr hdepth), if_pos hdepth]
      exact Shape.check_ofTree tree
    · rw [if_neg (mt hlimit.mp hdepth), if_neg hdepth]
      rfl
  · rfl
  · rfl

end Wire

end Verdict
