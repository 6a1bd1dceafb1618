import Verdict.Proofs.FieldReading

/-!
# The first fault of a tree that came as a value

A value is read as a tree in two steps. First its whole shape is read: a value with the shape of a
node has it in every node below, told field by field (`NodeShaped`), and any other value but null
cannot be read. Then its nodes are checked in the order in which they stand, each before the nodes
below it and left before right (`nodes`). If all are well formed the value is a tree, and writing
the tree gives the value back, reduced to its fields; otherwise the first node that is not is
reported (`accepts_or_reports`).
-/

namespace Verdict.Wire

open Json

/-! ## Nodes of a value -/

/-- No node stands here. -/
def isNull : Value → Bool
  | .null => true
  | _ => false

theorem isNull_iff {value : Value} : isNull value = true ↔ value = .null := by
  cases value <;> simp [isNull]

/-- What stands in a field is smaller than the node. -/
theorem sizeOf_fieldOf_lt {node : Value} (h : ¬isNull node = true) (field : Field) :
    sizeOf (fieldOf field node) < sizeOf node := by
  have hmissing : sizeOf Value.null < sizeOf node := by
    cases node with
    | null => exact absurd rfl h
    | bool b =>
      simp only [Value.null.sizeOf_spec, Value.bool.sizeOf_spec, Bool.sizeOf_eq_one]
      omega
    | number n =>
      simp only [Value.null.sizeOf_spec, Value.number.sizeOf_spec]
      cases n <;> simp only [Number.integer.sizeOf_spec, Number.real.sizeOf_spec] <;> omega
    | string text =>
      obtain ⟨bytes⟩ := text
      simp only [Value.null.sizeOf_spec, Value.string.sizeOf_spec, String.ofByteArray.sizeOf_spec]
      omega
    | array items =>
      simp only [Value.null.sizeOf_spec, Value.array.sizeOf_spec]
      cases items <;> simp only [List.nil.sizeOf_spec, List.cons.sizeOf_spec] <;> omega
    | object members =>
      simp only [Value.null.sizeOf_spec, Value.object.sizeOf_spec]
      cases members <;> simp only [List.nil.sizeOf_spec, List.cons.sizeOf_spec] <;> omega
  rcases fieldOf_cases field node with hnull | ⟨items, rfl, hitem⟩ | ⟨members, rfl, hmember⟩
  · rwa [hnull]
  · have hlt := List.sizeOf_lt_of_mem hitem
    rw [Value.array.sizeOf_spec]
    omega
  · have hlt := List.sizeOf_lt_of_mem hmember
    rw [Prod.mk.sizeOf_spec] at hlt
    rw [Value.object.sizeOf_spec]
    omega

/-- The nodes of a value in the order in which they are checked: each before those below it, and
left before right. -/
def nodes (value : Value) : List Value :=
  if _ : isNull value then []
  else value :: (nodes (fieldOf .left value) ++ nodes (fieldOf .right value))
termination_by sizeOf value
decreasing_by all_goals exact sizeOf_fieldOf_lt ‹_› _

/-- The value of the same tree with the four fields of each node and nothing else. -/
def reduced (value : Value) : Value :=
  if _ : isNull value then .null
  else
    .object [("kind", fieldOf .kind value), ("left", reduced (fieldOf .left value)),
      ("right", reduced (fieldOf .right value)), ("value", fieldOf .value value)]
termination_by sizeOf value
decreasing_by all_goals exact sizeOf_fieldOf_lt ‹_› _

/-! ## Shapes -/

/-- A value with the shape of a node: its kind is a text, its value a text or nothing, and left and
right of it stand nodes or nothing. -/
inductive NodeShaped : Value → Prop
  | node {value : Value} {kind : String} (layout : HasLayout value)
    (kind : fieldOf .kind value = .string kind)
    (text : fieldOf .value value = .null ∨ ∃ text, fieldOf .value value = .string text)
    (left : fieldOf .left value ≠ .null → NodeShaped (fieldOf .left value))
    (right : fieldOf .right value ≠ .null → NodeShaped (fieldOf .right value)) :
    NodeShaped value

/-- The node of a value spells these parts. -/
structure Spells (node : Value) (kind : String) (left right : Shape) (value : Option String) :
    Prop where
  kind : fieldOf .kind node = .string kind
  left : shapeOf (fieldOf .left node) = .ok left
  right : shapeOf (fieldOf .right node) = .ok right
  value : optionalTextOf (fieldOf .value node) = .ok value

theorem textOf_eq_ok {value : Value} {text : String} :
    textOf value = .ok text ↔ value = .string text := by
  cases value <;> simp [textOf]

/-- A value is read as a node exactly if it can be one and its fields are read. -/
theorem shapeOf_eq_ok_iff {node : Value} (hnode : node ≠ .null) {shape : Shape} :
    shapeOf node = .ok shape ↔ HasLayout node ∧ ∃ kind left right value,
      Spells node kind left right value ∧ shape = .node kind left right value := by
  rw [← toOption_eq_some_iff]
  constructor
  · intro h
    have hlayout : HasLayout node := by
      by_contra hnot
      rw [shapeOf_of_not_hasLayout hnode hnot] at h
      cases h
    rw [shapeOf_toOption hlayout, Draft.complete?_empty_eq_some_iff] at h
    obtain ⟨kind, left, right, value, hkind, hleft, hright, hvalue, rfl⟩ := h
    exact ⟨hlayout, kind, left, right, value,
      ⟨textOf_eq_ok.mp hkind, hleft, hright, hvalue⟩, rfl⟩
  · rintro ⟨hlayout, kind, left, right, value, hspells, rfl⟩
    rw [shapeOf_toOption hlayout, Draft.complete?_empty_eq_some_iff]
    exact ⟨kind, left, right, value, textOf_eq_ok.mpr hspells.kind, hspells.left, hspells.right,
      hspells.value, rfl⟩

theorem optionalTextOf_isOk_iff {value : Value} :
    (∃ text, optionalTextOf value = .ok text) ↔ value = .null ∨ ∃ text, value = .string text := by
  cases value <;> simp [optionalTextOf]

/-- The shape of a value can be read exactly if it is null or has the shape of a node. -/
theorem NodeShaped.exists_shapeOf {value : Value} (h : NodeShaped value) :
    ∃ shape, shapeOf value = .ok shape := by
  induction h with
  | @node value kind layout hkind htext hleft hright ihl ihr =>
    have hchild : ∀ field,
        (fieldOf field value ≠ .null → ∃ shape, shapeOf (fieldOf field value) = .ok shape) →
        ∃ shape, shapeOf (fieldOf field value) = .ok shape := by
      intro field h
      by_cases hnull : fieldOf field value = .null
      · exact ⟨.absent, by rw [hnull, shapeOf]⟩
      · exact h hnull
    obtain ⟨l, hl⟩ := hchild .left ihl
    obtain ⟨r, hr⟩ := hchild .right ihr
    obtain ⟨text, hvalue⟩ := optionalTextOf_isOk_iff.mpr htext
    have hnode : value ≠ .null := by
      rintro rfl
      cases layout
    exact ⟨_, (shapeOf_eq_ok_iff hnode).mpr
      ⟨layout, kind, l, r, text, ⟨hkind, hl, hr, hvalue⟩, rfl⟩⟩

theorem NodeShaped.isNull_eq_false {value : Value} (h : NodeShaped value) :
    isNull value = false := by
  obtain ⟨layout⟩ := h
  cases value with
  | null => cases layout
  | _ => rfl

theorem nodeShaped_of_shapeOf {value : Value} (hnode : value ≠ .null) {shape : Shape}
    (h : shapeOf value = .ok shape) : NodeShaped value := by
  obtain ⟨layout, kind, left, right, text, hspells, rfl⟩ := (shapeOf_eq_ok_iff hnode).mp h
  have hnull : ¬isNull value = true := mt isNull_iff.mp hnode
  exact .node layout hspells.kind (optionalTextOf_isOk_iff.mp ⟨text, hspells.value⟩)
    (fun hl => nodeShaped_of_shapeOf hl hspells.left)
    (fun hr => nodeShaped_of_shapeOf hr hspells.right)
termination_by sizeOf value
decreasing_by all_goals exact sizeOf_fieldOf_lt hnull _

theorem nodes_of_isNull {value : Value} (h : isNull value = true) : nodes value = [] := by
  rw [nodes, dif_pos h]

/-- All nodes of a value with the shape of a node have the shape of a node. -/
theorem nodeShaped_of_mem_nodes {value node : Value} (h : NodeShaped value)
    (hnode : node ∈ nodes value) : NodeShaped node := by
  induction h with
  | @node value kind layout hkind htext hleft hright ihl ihr =>
    have hchild : ∀ field, (fieldOf field value ≠ .null →
        node ∈ nodes (fieldOf field value) → NodeShaped node) →
        node ∈ nodes (fieldOf field value) → NodeShaped node := by
      intro field ih hmem
      refine ih (fun hnull => ?_) hmem
      rw [hnull, nodes_of_isNull rfl] at hmem
      cases hmem
    have hshaped : NodeShaped value := .node layout hkind htext hleft hright
    rw [nodes, dif_neg (by simp [hshaped.isNull_eq_false]), List.mem_cons, List.mem_append] at hnode
    rcases hnode with rfl | hl | hr
    · exact hshaped
    · exact hchild .left ihl hl
    · exact hchild .right ihr hr

/-! ## Well-formed nodes -/

/-- The text that a node holds in a field, if a text stands there. -/
def textIn? (field : Field) (node : Value) : Option String :=
  match fieldOf field node with
  | .string text => some text
  | _ => none

theorem textIn?_eq_some {field : Field} {node : Value} {text : String} :
    textIn? field node = some text ↔ fieldOf field node = .string text := by
  unfold textIn?
  cases fieldOf field node <;> simp

/-- A node that is well formed in itself: an operand with a clause that is not blank and no nodes
below it, or an operator with a connective and two nodes. -/
def WellFormed (node : Value) : Prop :=
  (textIn? .kind node = some "operand" ∧
    isNull (fieldOf .left node) = true ∧ isNull (fieldOf .right node) = true ∧
    ∃ clause ∈ textIn? .value node, Text.isBlankText clause = false) ∨
  (textIn? .kind node = some "operator" ∧
    isNull (fieldOf .left node) = false ∧ isNull (fieldOf .right node) = false ∧
    (textIn? .value node = some "AND" ∨ textIn? .value node = some "OR"))

instance (node : Value) : Decidable (WellFormed node) :=
  inferInstanceAs (Decidable (_ ∨ _))

/-- What is said of a node that is not well formed. Only an operator whose value is a text other
than the two connectives is an unknown operator. -/
inductive Reports (node : Value) : Refusal → Prop
  | unknownOperator {word : String} (kind : textIn? .kind node = some "operator")
    (value : textIn? .value node = some word) (and : word ≠ "AND") (or : word ≠ "OR") :
    Reports node (.unknownOperator word)
  | missingConnective (kind : textIn? .kind node = some "operator")
    (value : textIn? .value node = none) : Reports node (.invalidNode .missingConnective)
  | missingChild {connective : Connective} (kind : textIn? .kind node = some "operator")
    (value : textIn? .value node = some connective.word)
    (child : isNull (fieldOf .left node) = true ∨ isNull (fieldOf .right node) = true) :
    Reports node (.invalidNode (.missingChild connective))
  | childOfOperand (kind : textIn? .kind node = some "operand")
    (child : isNull (fieldOf .left node) = false ∨ isNull (fieldOf .right node) = false) :
    Reports node (.invalidNode .childOfOperand)
  | missingClause (kind : textIn? .kind node = some "operand")
    (left : isNull (fieldOf .left node) = true) (right : isNull (fieldOf .right node) = true)
    (value : ∀ clause ∈ textIn? .value node, Text.isBlankText clause = true) :
    Reports node (.invalidNode .missingClause)
  | unknownKind {kind : String} (hkind : textIn? .kind node = some kind)
    (operand : kind ≠ "operand") (operator : kind ≠ "operator") :
    Reports node (.invalidNode (.unknownKind kind))

/-! ## Checking one node -/

theorem isAbsent_of_shapeOf {value : Value} {shape : Shape} (h : shapeOf value = .ok shape) :
    shape.isAbsent = isNull value := by
  by_cases hnull : value = .null
  · subst hnull
    cases h
    rfl
  · obtain ⟨-, _, _, _, _, -, rfl⟩ := (shapeOf_eq_ok_iff hnull).mp h
    rw [Shape.isAbsent, Bool.eq_false_iff.mpr (mt isNull_iff.mp hnull)]

/-- The answers left and right of an operator, joined. -/
def joinOf (connective : Connective) (left right : Except Refusal (Option Tree)) :
    Except Refusal (Option Tree) := do
  match ← left, ← right with
  | some l, some r => return some (.join connective l r)
  | _, _ => .error (.invalidNode (.missingChild connective))

namespace Spells

variable {node : Value} {kind : String} {left right : Shape} {value : Option String}

theorem textIn?_kind (h : Spells node kind left right value) : textIn? .kind node = some kind :=
  textIn?_eq_some.mpr h.kind

theorem textIn?_value (h : Spells node kind left right value) : textIn? .value node = value := by
  have hvalue := h.value
  unfold textIn?
  cases hfield : fieldOf .value node <;> rw [hfield] at hvalue <;> cases hvalue <;> rfl

theorem fieldOf_value {word : String} (h : Spells node kind left right (some word)) :
    fieldOf .value node = .string word :=
  textIn?_eq_some.mp h.textIn?_value

theorem isAbsent_left (h : Spells node kind left right value) :
    left.isAbsent = isNull (fieldOf .left node) :=
  isAbsent_of_shapeOf h.left

theorem isAbsent_right (h : Spells node kind left right value) :
    right.isAbsent = isNull (fieldOf .right node) :=
  isAbsent_of_shapeOf h.right

/-- An operand that is not well formed is refused. -/
theorem check_operand (h : Spells node "operand" left right value) (hnot : ¬WellFormed node) :
    ∃ refusal, (Shape.node "operand" left right value).check = .error refusal ∧
      Reports node refusal := by
  by_cases hchildren : (left.isAbsent && right.isAbsent) = true
  · have hnull := hchildren
    rw [h.isAbsent_left, h.isAbsent_right, Bool.and_eq_true] at hnull
    have hblank : ∀ clause ∈ textIn? .value node, Text.isBlankText clause = true := by
      intro clause hclause
      by_contra hfilled
      exact hnot (.inl ⟨h.textIn?_kind, hnull.1, hnull.2, clause, hclause, by simpa using hfilled⟩)
    refine ⟨_, ?_, .missingClause h.textIn?_kind hnull.1 hnull.2 hblank⟩
    cases value with
    | none => rw [Shape.check, if_pos rfl, if_pos hchildren]
    | some clause =>
      rw [Shape.check, if_pos rfl, if_pos hchildren, if_pos (hblank clause h.textIn?_value)]
  · refine ⟨.invalidNode .childOfOperand, ?_, .childOfOperand h.textIn?_kind ?_⟩
    · cases value <;> rw [Shape.check, if_pos rfl, if_neg hchildren]
    · rwa [h.isAbsent_left, h.isAbsent_right, Bool.not_eq_true, Bool.and_eq_false_iff] at hchildren

/-- An operator that is not well formed is refused. -/
theorem check_operator (h : Spells node "operator" left right value) (hnot : ¬WellFormed node) :
    ∃ refusal, (Shape.node "operator" left right value).check = .error refusal ∧
      Reports node refusal := by
  have hoperand : ¬"operator" = "operand" := by decide
  cases value with
  | none =>
    refine ⟨_, ?_, .missingConnective h.textIn?_kind h.textIn?_value⟩
    rw [Shape.check, if_neg hoperand, if_pos rfl]
  | some word =>
    rw [Shape.check, if_neg hoperand, if_pos rfl, Connective.ofWord]
    cases hword : Connective.ofWord? word with
    | none =>
      have hword_ne : ∀ connective : Connective, word ≠ connective.word := by
        rintro connective rfl
        rw [Connective.ofWord?_word] at hword
        cases hword
      exact ⟨_, rfl, .unknownOperator h.textIn?_kind h.textIn?_value (hword_ne .and) (hword_ne .or)⟩
    | some connective =>
      obtain rfl := Connective.ofWord?_eq_some_iff.mp hword
      have hconnective : textIn? .value node = some "AND" ∨ textIn? .value node = some "OR" := by
        rw [h.textIn?_value]
        cases connective
        · exact .inl rfl
        · exact .inr rfl
      have hchild : (left.isAbsent || right.isAbsent) = true := by
        by_contra hboth
        rw [Bool.not_eq_true, Bool.or_eq_false_iff, h.isAbsent_left, h.isAbsent_right] at hboth
        exact hnot (.inr ⟨h.textIn?_kind, hboth.1, hboth.2, hconnective⟩)
      refine ⟨.invalidNode (.missingChild connective), if_pos hchild,
        .missingChild h.textIn?_kind h.textIn?_value ?_⟩
      rwa [h.isAbsent_left, h.isAbsent_right, Bool.or_eq_true] at hchild

theorem check_of_not_wellFormed (h : Spells node kind left right value) (hnot : ¬WellFormed node) :
    ∃ refusal, (Shape.node kind left right value).check = .error refusal ∧
      Reports node refusal := by
  by_cases hoperand : kind = "operand"
  · subst hoperand
    exact h.check_operand hnot
  by_cases hoperator : kind = "operator"
  · subst hoperator
    exact h.check_operator hnot
  · refine ⟨_, ?_, .unknownKind h.textIn?_kind hoperand hoperator⟩
    cases value <;> rw [Shape.check, if_neg hoperand, if_neg hoperator]

/-- An operand that is well formed is the leaf of its clause. -/
theorem check_leaf (h : Spells node "operand" left right value) (hwell : WellFormed node) :
    ∃ clause, value = some clause ∧ isNull (fieldOf .left node) = true ∧
      isNull (fieldOf .right node) = true ∧
      (Shape.node "operand" left right value).check = .ok (some (.leaf clause)) := by
  rcases hwell with ⟨-, hl, hr, clause, hclause, hfilled⟩ | ⟨hkind, -⟩
  · rw [h.textIn?_value] at hclause
    obtain rfl : value = some clause := hclause
    have hchildren : (left.isAbsent && right.isAbsent) = true := by
      rw [h.isAbsent_left, h.isAbsent_right, hl, hr]
      rfl
    refine ⟨clause, rfl, hl, hr, ?_⟩
    rw [Shape.check, if_pos rfl, if_pos hchildren, if_neg (by simp [hfilled])]
  · rw [h.textIn?_kind] at hkind
    exact absurd (Option.some.inj hkind) (by decide)

/-- An operator that is well formed joins what stands left and right of it. -/
theorem check_join (h : Spells node "operator" left right value) (hwell : WellFormed node) :
    ∃ connective : Connective, value = some connective.word ∧
      isNull (fieldOf .left node) = false ∧ isNull (fieldOf .right node) = false ∧
      (Shape.node "operator" left right value).check =
        joinOf connective left.check right.check := by
  have hoperand : ¬"operator" = "operand" := by decide
  rcases hwell with ⟨hkind, -⟩ | ⟨-, hl, hr, hword⟩
  · rw [h.textIn?_kind] at hkind
    exact absurd (Option.some.inj hkind) hoperand
  · have hconnective : ∃ connective : Connective, value = some connective.word := by
      rw [h.textIn?_value] at hword
      rcases hword with hand | hor
      · exact ⟨.and, hand⟩
      · exact ⟨.or, hor⟩
    obtain ⟨connective, rfl⟩ := hconnective
    have hchildren : ¬(left.isAbsent || right.isAbsent) = true := by
      rw [h.isAbsent_left, h.isAbsent_right, hl, hr]
      exact Bool.false_ne_true
    refine ⟨connective, rfl, hl, hr, ?_⟩
    rw [Shape.check, if_neg hoperand, if_pos rfl, Connective.ofWord, Connective.ofWord?_word]
    exact if_neg hchildren

theorem kind_of_wellFormed (h : Spells node kind left right value) (hwell : WellFormed node) :
    kind = "operand" ∨ kind = "operator" := by
  rcases hwell with ⟨hkind, -⟩ | ⟨hkind, -⟩
  · rw [h.textIn?_kind] at hkind
    exact .inl (Option.some.inj hkind)
  · rw [h.textIn?_kind] at hkind
    exact .inr (Option.some.inj hkind)

end Spells

/-! ## Checking all nodes -/

/-- The answer of a check of these nodes in order: the tree that is written like this if all are
well formed, and otherwise what is said of the first one that is not. -/
def Judges (nodes : List Value) (written : Value) (answer : Except Refusal (Option Tree)) : Prop :=
  match nodes.find? fun node => decide ¬WellFormed node with
  | none => ∃ tree, answer = .ok tree ∧ toValue tree = written
  | some node => ∃ refusal, answer = .error refusal ∧ Reports node refusal

theorem reduced_of_isNull {value : Value} (h : isNull value = true) : reduced value = .null := by
  rw [reduced, dif_pos h]

theorem exists_tree_of_written {value : Value} (hvalue : isNull value = false)
    {tree : Option Tree} (h : toValue tree = reduced value) : ∃ t, tree = some t := by
  cases tree with
  | some t => exact ⟨t, rfl⟩
  | none =>
    rw [reduced, dif_neg (by simp [hvalue])] at h
    cases h

/-- What stands left and right of a well-formed operator is checked in this order. -/
theorem judges_joinOf {connective : Connective} {left right : Value}
    {l r : Except Refusal (Option Tree)} (hleft : isNull left = false)
    (hright : isNull right = false) (hl : Judges (nodes left) (reduced left) l)
    (hr : Judges (nodes right) (reduced right) r) :
    Judges (nodes left ++ nodes right)
      (.object [("kind", .string "operator"), ("left", reduced left), ("right", reduced right),
        ("value", .string connective.word)]) (joinOf connective l r) := by
  unfold Judges at hl hr ⊢
  rw [List.find?_append]
  cases hfindl : (nodes left).find? fun node => decide ¬WellFormed node with
  | some node =>
    rw [hfindl] at hl
    obtain ⟨refusal, rfl, hreports⟩ := hl
    exact ⟨refusal, rfl, hreports⟩
  | none =>
    rw [hfindl] at hl
    obtain ⟨tl, rfl, hwl⟩ := hl
    obtain ⟨tl, rfl⟩ := exists_tree_of_written hleft hwl
    cases hfindr : (nodes right).find? fun node => decide ¬WellFormed node with
    | some node =>
      rw [hfindr] at hr
      obtain ⟨refusal, rfl, hreports⟩ := hr
      exact ⟨refusal, rfl, hreports⟩
    | none =>
      rw [hfindr] at hr
      obtain ⟨tr, rfl, hwr⟩ := hr
      obtain ⟨tr, rfl⟩ := exists_tree_of_written hright hwr
      refine ⟨some (.join connective tl tr), rfl, ?_⟩
      rw [← hwl, ← hwr]
      rfl

/-- The check of a shape walks the nodes of the value. -/
theorem judges_check {value : Value} {shape : Shape} (h : shapeOf value = .ok shape) :
    Judges (nodes value) (reduced value) shape.check := by
  by_cases hnull : isNull value = true
  · obtain rfl := isNull_iff.mp hnull
    cases h
    rw [nodes_of_isNull hnull, reduced_of_isNull hnull]
    exact ⟨none, rfl, rfl⟩
  obtain ⟨-, kind, left, right, text, hspells, rfl⟩ :=
    (shapeOf_eq_ok_iff (mt isNull_iff.mpr hnull)).mp h
  rw [nodes, dif_neg hnull, reduced, dif_neg hnull, hspells.kind]
  by_cases hwell : WellFormed value
  · -- the node has nothing to report, so the answer is that of the nodes below it
    have hcons : ∀ (below : List Value) (written : Value) (answer : Except Refusal (Option Tree)),
        Judges below written answer → Judges (value :: below) written answer := by
      intro below written answer hbelow
      unfold Judges
      rw [List.find?_cons_of_neg (by simpa using hwell)]
      exact hbelow
    apply hcons
    rcases hspells.kind_of_wellFormed hwell with rfl | rfl
    · obtain ⟨clause, rfl, hl, hr, hcheck⟩ := hspells.check_leaf hwell
      rw [nodes_of_isNull hl, nodes_of_isNull hr, reduced_of_isNull hl, reduced_of_isNull hr,
        hspells.fieldOf_value, hcheck]
      exact ⟨some (.leaf clause), rfl, rfl⟩
    · obtain ⟨connective, rfl, hl, hr, hcheck⟩ := hspells.check_join hwell
      rw [hcheck, hspells.fieldOf_value]
      exact judges_joinOf hl hr (judges_check hspells.left) (judges_check hspells.right)
  · unfold Judges
    rw [List.find?_cons_of_pos (by simpa using hwell)]
    exact hspells.check_of_not_wellFormed hwell
termination_by sizeOf value
decreasing_by all_goals exact sizeOf_fieldOf_lt hnull _

/-! ## Values as trees -/

/-- Null is read as no tree. A value without the shape of a node cannot be read. One that has it is
a tree exactly if all its nodes are well formed, and then its fields are what the tree writes;
otherwise the first node that is not well formed is reported. -/
theorem accepts_or_reports :
    ofValue .null = .ok none ∧
      (∀ value, value ≠ .null → ¬NodeShaped value →
        ∃ fault, ofValue value = .error (.unreadable fault)) ∧
      ∀ value, NodeShaped value →
        ((∃ tree, ofValue value = .ok (some tree)) ↔ ∀ node ∈ nodes value, WellFormed node) ∧
        (∀ tree, ofValue value = .ok (some tree) → toValue (some tree) = reduced value) ∧
        ∀ node, (nodes value).find? (fun node => decide ¬WellFormed node) = some node →
          ∃ refusal, ofValue value = .error refusal ∧ Reports node refusal := by
  refine ⟨rfl, fun value hnull hnot => ?_, fun value hshaped => ?_⟩
  · cases h : shapeOf value with
    | ok shape => exact absurd (nodeShaped_of_shapeOf hnull h) hnot
    | error fault => exact ⟨fault, by rw [ofValue, h, checked]⟩
  · obtain ⟨shape, h⟩ := hshaped.exists_shapeOf
    have hof : ofValue value = shape.check := by rw [ofValue, h, checked]
    have hjudges := judges_check h
    rw [hof]
    unfold Judges at hjudges
    cases hfind : (nodes value).find? fun node => decide ¬WellFormed node with
    | none =>
      rw [hfind] at hjudges
      obtain ⟨tree, hcheck, hwritten⟩ := hjudges
      obtain ⟨tree, rfl⟩ := exists_tree_of_written hshaped.isNull_eq_false hwritten
      rw [hcheck]
      refine ⟨iff_of_true ⟨tree, rfl⟩ ?_, ?_, ?_⟩
      · simpa using hfind
      · intro other hother
        cases hother
        exact hwritten
      · intro node hnode
        cases hnode
    | some node =>
      rw [hfind] at hjudges
      obtain ⟨refusal, hcheck, hreports⟩ := hjudges
      rw [hcheck]
      refine ⟨iff_of_false ?_ ?_, ?_, ?_⟩
      · rintro ⟨tree, htree⟩
        cases htree
      · intro hall
        have hnot := List.find?_some hfind
        exact of_decide_eq_true hnot (hall node (List.mem_of_find?_eq_some hfind))
      · intro tree htree
        cases htree
      · intro other hother
        cases hother
        exact ⟨refusal, rfl, hreports⟩

/-- An array whose left node is an object with another member and whose right node names no
connective. -/
theorem accepts_or_reports_xor :
    ∃ refusal,
      ofValue (.array [.string "operator",
        .object [("note", .bool true), ("value", .string "a=1"), ("kind", .string "operand")],
        .array [.string "operator", .null, .null, .string "XOR"], .string "AND"]) =
          .error refusal ∧
      Reports (.array [.string "operator", .null, .null, .string "XOR"]) refusal := by
  have hleft : NodeShaped (.object [("note", .bool true), ("value", .string "a=1"),
      ("kind", .string "operand")]) :=
    .node (by decide) rfl (.inr ⟨_, rfl⟩) (fun h => absurd rfl h) (fun h => absurd rfl h)
  have hright : NodeShaped (.array [.string "operator", .null, .null, .string "XOR"]) :=
    .node ⟨by decide, by decide⟩ rfl (.inr ⟨_, rfl⟩) (fun h => absurd rfl h) (fun h => absurd rfl h)
  refine (accepts_or_reports.2.2 _ ?_).2.2 _ ?_
  · exact .node ⟨by decide, by decide⟩ rfl (.inr ⟨_, rfl⟩) (fun _ => hleft) (fun _ => hright)
  · simp [nodes, isNull, fieldOf, Field.key, Field.place, List.lookup_cons, WellFormed, textIn?,
      Text.isBlankText, Text.isBlank, Text.blankRanges]

end Verdict.Wire
