import Verdict.Operand

/-!
# Rules

A rule text is cut into tokens at its connectives, and the tokens are folded into a tree of clauses.
-/

namespace Verdict

/-! ## Connectives

A rule joins its clauses with the words `AND` and `OR`. -/

/-- How two verdicts are joined. -/
inductive Connective where
  | and
  | or
deriving DecidableEq

namespace Connective

/-- The word that a rule and the wire shape write. -/
def word : Connective → String
  | .and => "AND"
  | .or => "OR"

/-- Reads a word; only the two upper-case words are connectives. -/
def ofWord? (word : String) : Option Connective :=
  if word = "AND" then some .and else if word = "OR" then some .or else none

/-- The joined verdict. -/
def apply : Connective → Bool → Bool → Bool
  | .and, left, right => left && right
  | .or, left, right => left || right

@[simp] theorem ofWord?_word (c : Connective) : ofWord? c.word = some c := by
  cases c <;> decide

theorem ofWord?_eq_some_iff {text : String} {c : Connective} :
    ofWord? text = some c ↔ text = c.word := by
  constructor
  · intro h
    unfold ofWord? at h
    split at h
    · next ht => cases h; exact ht
    · split at h
      · next ht => cases h; exact ht
      · cases h
  · rintro rfl
    exact ofWord?_word c

end Connective

/-! ## Rule trees

A parsed rule is a binary tree: clauses at the leaves, connectives at the joins. -/

/-- A parsed rule. -/
inductive Tree where
  /-- A single clause, kept as its text. -/
  | leaf (clause : String)
  /-- Two rules under a connective. -/
  | join (connective : Connective) (left right : Tree)
deriving DecidableEq

namespace Tree

/-- The clause of a leaf, or the word of a join. -/
def label : Tree → String
  | .leaf clause => clause
  | .join connective _ _ => connective.word

/-- The kind of node, as the wire shape names it. -/
def kind : Tree → String
  | .leaf _ => "operand"
  | .join _ _ _ => "operator"

/-- The left subtree of a join. -/
def left? : Tree → Option Tree
  | .leaf _ => none
  | .join _ left _ => some left

/-- The right subtree of a join. -/
def right? : Tree → Option Tree
  | .leaf _ => none
  | .join _ _ right => some right

/-- The height; a leaf has height 0. -/
def depth : Tree → Nat
  | .leaf _ => 0
  | .join _ left right => 1 + max left.depth right.depth

/-- The clauses from left to right. -/
def clauses : Tree → List String
  | .leaf clause => [clause]
  | .join _ left right => left.clauses ++ right.clauses

@[simp] theorem clauses_leaf (clause : String) : (leaf clause).clauses = [clause] := rfl

@[simp] theorem clauses_join (c : Connective) (l r : Tree) :
    (join c l r).clauses = l.clauses ++ r.clauses := rfl

theorem clauses_ne_nil (t : Tree) : t.clauses ≠ [] := by
  induction t with
  | leaf clause => simp
  | join c l r ihl _ => simp [ihl]

end Tree

/-! ## Tokens of a rule

A rule text is cut at its connectives. A connective is the word `AND` or `OR` outside quoted
literals with no word character directly before or after it. What stands between two connectives
is an operand if it has the form of one once the white space around it is gone, and is dropped
otherwise.

An apostrophe opens a literal when the nearest character before it that is no ASCII blank ends a
comparator and a later apostrophe can close it; any other apostrophe is plain text. -/

/-- A token of a rule. -/
inductive Token where
  | operand (clause : String)
  | connective (connective : Connective)
deriving DecidableEq

namespace Connective

/-- The letters of the word. -/
def letters (c : Connective) : List Char :=
  c.word.toList

/-- The connective that stands at the front of `text` when `before` is the text before it, last
character first. -/
def at? (before text : List Char) : Option Connective :=
  if before.head?.any Text.isWordChar then none
  else [Connective.and, .or].find? fun c =>
    c.letters.isPrefixOf text && !(text.drop c.letters.length).head?.any Text.isWordChar

end Connective

namespace Token

open Text

/-- An apostrophe opens a literal between the text before it, last character first, and the text
after it. -/
def opensLiteral (before after : List Char) : Bool :=
  (before.find? fun c => !isAsciiBlank c).any (fun c => c == '=' || c == '<' || c == '>')
    && after.contains '\''

/-- The token of the text between two connectives, given last character first. -/
def ofSegment (reversed : List Char) : List Token :=
  let clause := String.ofList (trim reversed.reverse)
  if isOperand clause then [.operand clause] else []

/-- Scans the rest of a rule. `pass` letters of a connective that was just found are still to be
passed over, `quoted` says that the scan is inside a literal, and `segment` is the text since the
last connective, last character first. -/
def scan (pass : Nat) (quoted : Bool) (segment : List Char) : List Char → List Token
  | [] => ofSegment segment
  | c :: rest =>
    match pass with
    | pass + 1 => scan pass quoted segment rest
    | 0 =>
      if quoted then scan 0 (c != '\'') (c :: segment) rest
      else match Connective.at? segment (c :: rest) with
        | some found =>
          ofSegment segment ++ .connective found :: scan (found.letters.length - 1) false [] rest
        | none => scan 0 (c == '\'' && opensLiteral segment rest) (c :: segment) rest

/-- The tokens of a rule, in order. -/
def ofRule (rule : String) : List Token :=
  scan 0 false [] rule.toList

end Token

/-! ## From rule text to tree

Tokens are folded from left to right into a left-deep tree: there is no precedence. A connective
waits until an operand takes it; an operand takes the latest connective that waits, and one that
finds none is dropped. Several rules are combined under `AND`. -/

/-- A rule as far as its tokens have been read. -/
structure Growth where
  /-- The tree so far. -/
  tree : Option Tree
  /-- The connectives that no operand has taken, latest first. -/
  waiting : List Connective

namespace Growth

/-- Nothing has been read. -/
def empty : Growth :=
  ⟨none, []⟩

/-- Takes one more token. -/
def push (g : Growth) : Token → Growth
  | .connective c => ⟨g.tree, c :: g.waiting⟩
  | .operand clause =>
    match g.tree, g.waiting with
    | none, waiting => ⟨some (.leaf clause), waiting⟩
    | some tree, c :: waiting => ⟨some (.join c tree (.leaf clause)), waiting⟩
    | some tree, [] => ⟨some tree, []⟩

end Growth

namespace Tree

/-- The tree of a token list, if it holds an operand. -/
def ofTokens? (tokens : List Token) : Option Tree :=
  (tokens.foldl Growth.push .empty).tree

/-- The tree of a rule, if any clause is found in it. -/
def parse? (rule : String) : Option Tree :=
  ofTokens? (Token.ofRule rule)

/-- Trees joined from left to right under `AND`. -/
def conjoin? : List Tree → Option Tree
  | [] => none
  | tree :: trees => some (trees.foldl (join .and) tree)

/-- The tree of several rules; rules without a tree are left out. -/
def combine? (rules : List String) : Option Tree :=
  conjoin? (rules.filterMap parse?)

end Tree

end Verdict
