import Verdict.Proofs.ClauseReading
import Verdict.Proofs.History
import Verdict.Proofs.Layout
import Verdict.Proofs.Verdicts

/-!
# The meaning of a plain rule

A plain rule is a row of clauses with connectives between them, spaced freely, whose words are no
connectives. Its quoted literals may hold anything but an apostrophe and a line feed.

1. The scan crosses a plain clause in any place (`PlainClause.crosses`): its words are no
   connectives, and its quote follows the sign, so it opens a literal that its own quote closes.
2. So the rule parses to the spine of its clauses (`parse?_of_steady`).
3. Each clause is read back as what it spells (`PlainClause.parse_text`), so the verdict is the fold
   of the verdicts of the clauses from left to right.
-/

namespace Verdict

open Text Json

/-! ## Plain rules -/

/-- A value that is read as it is written: a word that is no connective, or a quoted text without a
line feed whose quote has nothing but ASCII blanks between the sign and itself. -/
def Operand.Literal.Plain (space : List Char) : Operand.Literal → Prop
  | .bare word => ∀ c : Connective, word ≠ c.letters
  | .quoted text => '\n' ∉ text ∧ ∀ c ∈ space, isAsciiBlank c = true

/-- A clause of a plain rule. -/
structure PlainClause extends Operand.Spelling where
  name_ne : ∀ c : Connective, name ≠ c.letters
  plain : literal.Plain spaceAfter

/-- A connective between white space, and the clause after it. -/
structure PlainLink where
  spaceBefore : List Char
  connective : Connective
  spaceAfter : List Char
  clause : PlainClause
  blankBefore : Blanks spaceBefore
  before_ne : spaceBefore ≠ []
  blankAfter : Blanks spaceAfter
  after_ne : spaceAfter ≠ []

/-- A first clause and links, between white space. -/
structure PlainRule where
  padBefore : List Char
  first : PlainClause
  links : List PlainLink
  padAfter : List Char
  blankBefore : Blanks padBefore
  blankAfter : Blanks padAfter

/-- The text of links, in front of the white space at the end. -/
def PlainLink.textOf (pad : List Char) : List PlainLink → List Char
  | [] => pad
  | l :: links =>
    l.spaceBefore ++ l.connective.letters ++ l.spaceAfter ++ l.clause.text ++ textOf pad links

namespace PlainRule

/-- The text of a plain rule. -/
def text (rule : PlainRule) : String :=
  String.ofList (rule.padBefore ++ rule.first.text ++ PlainLink.textOf rule.padAfter rule.links)

/-- The left-deep tree of the clauses. -/
def tree (rule : PlainRule) : Tree :=
  rule.links.foldl
    (fun tree l => .join l.connective tree (.leaf (String.ofList l.clause.text)))
    (.leaf (String.ofList rule.first.text))

end PlainRule

/-- The comparison of a clause, which a missing attribute does not satisfy. -/
def PlainClause.verdict (record : Value) (clause : PlainClause) : Bool :=
  match record.attribute? (String.ofList clause.name) with
  | some value => clause.comparator.compare value (String.ofList clause.literal.content)
  | none => false

/-- The verdicts of the clauses under the connectives, from left to right. -/
def PlainRule.verdict (record : Value) (rule : PlainRule) : Bool :=
  rule.links.foldl (fun v l => l.connective.apply v (l.clause.verdict record))
    (rule.first.verdict record)

/-! ## Crossing a plain clause -/

namespace PlainClause

open Token

theorem ofLetters?_of_ne {word : List Char} (h : ∀ c : Connective, word ≠ c.letters) :
    Connective.ofLetters? word = none := by
  cases hw : Connective.ofLetters? word with
  | none => rfl
  | some c => exact absurd (Connective.eq_letters_of_ofLetters? hw) (h c)

/-- What stands in front of the value, last character first. -/
def frontReversed (s : Operand.Spelling) : List Char :=
  s.spaceAfter.reverse ++ (s.comparator.sign.reverse ++ (s.spaceBefore.reverse ++ s.name.reverse))

/-- Up to its value a clause is plain text. -/
theorem modeAfter?_upToValue (s : Operand.Spelling) (hname : ∀ c : Connective, s.name ≠ c.letters)
    {lead : List Char} (hl : Blanks lead) (after : List Char) :
    modeAfter? after false lead s.text =
      modeAfter? after false (frontReversed s ++ lead) s.literal.written := by
  have hword : ∀ d ∈ s.name, isWordChar d = true := by
    intro d hd
    exact Operand.isWordChar_of_mem_name s.isName hd
  have hsign : ∀ d ∈ s.comparator.sign, isWordChar d = false ∧ d ≠ '\'' := by
    intro d hd
    exact (classes_of_isSignChar (Operand.isSignChar_of_mem_sign hd)).2
  have hafter := Operand.head?_afterName s.blankBefore s.comparator
    (s.spaceAfter ++ (s.literal.written ++ after))
  unfold Operand.Spelling.text frontReversed
  rw [modeAfter?_append,
    modeAfter?_word hword (ofLetters?_of_ne hname) hl.head?_not_word (by simpa using hafter),
    Option.bind_some, modeAfter?_append, modeAfter?_blanks s.blankBefore, Option.bind_some,
    modeAfter?_append, modeAfter?_inert hsign, Option.bind_some,
    modeAfter?_append, modeAfter?_blanks s.blankAfter, Option.bind_some]
  simp only [List.append_assoc]

theorem find?_sign_reverse (c : Comparator) (before : List Char) :
    ((c.sign.reverse ++ before).find? fun d => !isAsciiBlank d).any
      (fun d => d == '=' || d == '<' || d == '>') = true := by
  cases c <;> rfl

theorem opensLiteral_frontReversed {s : Operand.Spelling}
    (h : ∀ c ∈ s.spaceAfter, isAsciiBlank c = true) (lead : List Char) {after : List Char}
    (ha : '\'' ∈ after) : opensLiteral (frontReversed s ++ lead) after = true := by
  have hskip : s.spaceAfter.reverse.find? (fun d => !isAsciiBlank d) = none := by
    rw [List.find?_eq_none]
    intro d hd
    rw [h d (List.mem_reverse.mp hd)]
    decide
  unfold opensLiteral frontReversed
  rw [List.append_assoc, List.find?_append, hskip, Option.none_or, List.append_assoc,
    find?_sign_reverse, Bool.true_and]
  exact List.contains_iff_mem.mpr ha

theorem head?_frontReversed (s : Operand.Spelling) (lead : List Char) :
    (frontReversed s ++ lead).head?.any isWordChar = false := by
  unfold frontReversed
  by_cases hs : s.spaceAfter = []
  · rw [hs, List.reverse_nil, List.nil_append, List.append_assoc]
    cases s.comparator <;> rfl
  · rw [List.append_assoc]
    exact head?_not_word_of_blanks s.blankAfter.reverse (by simpa using hs) _

/-- A clause whose words are no connectives is crossed in front of anything that does not continue
its last word. -/
theorem crosses_bare {s : Operand.Spelling} {word after : List Char}
    (hname : ∀ c : Connective, s.name ≠ c.letters) (hl : s.literal = .bare word)
    (hword : ∀ c : Connective, word ≠ c.letters) (ha : after.head?.any isWordChar = false) :
    Crosses s.text after := by
  intro lead hlead
  have hwf := s.wellFormed
  rw [modeAfter?_upToValue s hname hlead, hl]
  rw [hl] at hwf
  exact modeAfter?_word hwf.2 (ofLetters?_of_ne hword) (head?_frontReversed _ _) ha

/-- A clause with a quoted value is crossed if its quote follows the sign. -/
theorem crosses_quoted {s : Operand.Spelling} {text : List Char}
    (hname : ∀ c : Connective, s.name ≠ c.letters) (hl : s.literal = .quoted text)
    (hspace : ∀ c ∈ s.spaceAfter, isAsciiBlank c = true) (after : List Char) :
    Crosses s.text after := by
  intro lead hlead
  have hwf := s.wellFormed
  rw [modeAfter?_upToValue s hname hlead, hl]
  rw [hl] at hwf
  exact modeAfter?_literal hwf (opensLiteral_frontReversed hspace lead (by simp))

/-- The scan crosses a plain clause in front of anything that does not continue its last word. -/
theorem crosses (clause : PlainClause) {after : List Char}
    (ha : after.head?.any isWordChar = false) : Crosses clause.text after := by
  have hplain := clause.plain
  cases hl : clause.literal with
  | bare word =>
    rw [hl] at hplain
    exact crosses_bare clause.name_ne hl hplain ha
  | quoted text =>
    rw [hl] at hplain
    exact crosses_quoted clause.name_ne hl hplain.2 after

/-- A plain clause is read as what it spells. -/
theorem parse_text (clause : PlainClause) :
    Clause.parse (String.ofList clause.text) = .ok clause.toSpelling.clause := by
  have hcontent : clause.literal.content.contains '\n' = false := by
    have hwf := clause.wellFormed
    have hplain := clause.plain
    generalize clause.literal = l at hwf hplain ⊢
    cases l with
    | bare word =>
      show word.contains '\n' = false
      simpa using Operand.lineFeed_not_mem_word hwf.2
    | quoted text =>
      show text.contains '\n' = false
      simpa using hplain.1
  rw [Clause.parse_text, hcontent]
  rfl

theorem verdict_text (clause : PlainClause) (record : Value) :
    Clause.verdict record (String.ofList clause.text) = clause.verdict record :=
  Clause.verdict_of_ok clause.parse_text record

end PlainClause

/-! ## The row of clauses -/

namespace PlainLink

/-- A link as a joint of a row of clauses. -/
def joint (l : PlainLink) : Token.Joint :=
  ⟨l.spaceBefore, l.connective, l.spaceAfter, l.clause.text⟩

theorem spaced_joint (l : PlainLink) : l.joint.Spaced :=
  ⟨l.blankBefore, l.before_ne, l.blankAfter, l.after_ne⟩

theorem textOf_eq (pad : List Char) (links : List PlainLink) :
    textOf pad links = Token.joined pad (links.map joint) := by
  induction links with
  | nil => rfl
  | cons l links ih =>
    rw [textOf, List.map_cons, Token.joined, ih]
    simp only [joint, List.append_assoc]

theorem steady {pad : List Char} (hpad : Blanks pad) (clause : PlainClause)
    (links : List PlainLink) : Token.Steady pad clause.text (links.map joint) := by
  induction links generalizing clause with
  | nil => exact ⟨Operand.isOperand_text _, clause.crosses hpad.head?_not_word⟩
  | cons l links ih =>
    exact ⟨Operand.isOperand_text _,
      clause.crosses (Token.head?_not_word_of_blanks l.blankBefore l.before_ne _),
      l.spaced_joint, ih l.clause⟩

end PlainLink

namespace PlainRule

theorem tree_eq (rule : PlainRule) :
    rule.tree = Tree.ofSpine (String.ofList rule.first.text)
      (rule.links.map fun l => (l.connective, String.ofList l.clause.text)) := by
  unfold tree Tree.ofSpine
  rw [List.foldl_map]

theorem parse?_text (rule : PlainRule) : Tree.parse? rule.text = some rule.tree := by
  have h := Token.parse?_of_steady rule.blankBefore rule.blankAfter
    (PlainLink.steady rule.blankAfter rule.first rule.links)
  unfold text
  rw [PlainLink.textOf_eq, List.append_assoc, h, tree_eq, List.map_map]
  rfl

theorem refusal?_of_mem_clauses (rule : PlainRule) {clause : String}
    (h : clause ∈ rule.tree.clauses) : Clause.refusal? clause = none := by
  rw [tree_eq, Tree.clauses_ofSpine] at h
  rcases List.mem_cons.mp h with rfl | h
  · exact Clause.refusal?_of_ok rule.first.parse_text
  · rw [List.map_map] at h
    obtain ⟨l, -, rfl⟩ := List.mem_map.mp h
    exact Clause.refusal?_of_ok l.clause.parse_text

theorem verdict_tree (rule : PlainRule) (record : Value) :
    rule.tree.verdict record = rule.verdict record := by
  unfold verdict
  rw [tree_eq, Tree.verdict_ofSpine, List.foldl_map, PlainClause.verdict_text]
  simp only [PlainClause.verdict_text]

/-- A plain rule parses to the left-deep tree of its clauses, and evaluating the tree and checking
the rule, after any steps of the engine, both answer the fold of the verdicts of its clauses. -/
theorem parses_and_evaluates (rule : PlainRule) (record : Value) (steps : List Session.Step) :
    Tree.parse? rule.text = some rule.tree ∧
      evaluate (Tree.parse? rule.text) record = .ok (rule.verdict record) ∧
      ((Session.after steps).check rule.text record).1 = .ok (rule.verdict record) := by
  have hparse := rule.parse?_text
  have heval : evaluate (Tree.parse? rule.text) record = .ok (rule.verdict record) := by
    rw [hparse, evaluate, Tree.check_of_readable fun _ h => rule.refusal?_of_mem_clauses h,
      verdict_tree]
  exact ⟨hparse, heval, (Session.check_after steps rule.text record).trans heval⟩

/-- The quoted word is a literal and no connective, and the record lacks the second attribute. -/
theorem answers_quoted_connective :
    Tree.parse? "a= 'AND' OR b<1" = some (.join .or (.leaf "a= 'AND'") (.leaf "b<1")) ∧
      evaluate (Tree.parse? "a= 'AND' OR b<1") (.object [("a", .string "AND")]) = .ok true := by
  let first : PlainClause :=
    { name := ['a'], spaceBefore := [], comparator := .equal, spaceAfter := [' ']
      literal := .quoted ['A', 'N', 'D']
      isName := ⟨'a', [], rfl, by decide, by simp⟩
      blankBefore := blanks_nil
      blankAfter := blanks_space
      wellFormed := show '\'' ∉ ['A', 'N', 'D'] by decide
      name_ne := by intro c; cases c <;> decide
      plain := ⟨by decide, List.forall_mem_singleton.mpr (by decide)⟩ }
  let second : PlainClause :=
    { name := ['b'], spaceBefore := [], comparator := .less, spaceAfter := []
      literal := .bare ['1']
      isName := ⟨'b', [], rfl, by decide, by simp⟩
      blankBefore := blanks_nil
      blankAfter := blanks_nil
      wellFormed := ⟨List.cons_ne_nil _ _, List.forall_mem_singleton.mpr (by decide)⟩
      name_ne := by intro c; cases c <;> decide
      plain := by intro c; cases c <;> decide }
  let link : PlainLink :=
    ⟨[' '], .or, [' '], second, blanks_space, List.cons_ne_nil _ _, blanks_space,
      List.cons_ne_nil _ _⟩
  let rule : PlainRule := ⟨[], first, [link], [], blanks_nil, blanks_nil⟩
  have htext : rule.text = "a= 'AND' OR b<1" := by decide
  obtain ⟨hparse, heval, -⟩ := rule.parses_and_evaluates (.object [("a", .string "AND")]) []
  rw [htext] at hparse heval
  exact ⟨hparse, heval⟩

end PlainRule

end Verdict
