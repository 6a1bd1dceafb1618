import Verdict.Json.Value
import Verdict.Rule

/-!
# Clauses and evaluation

A clause is read from its text, or refused. It compares the value of an attribute with a literal,
and a tree joins the verdicts of its clauses. Refusals of trees and settings have their place here
too, so that there is one type of them.
-/

namespace Verdict

/-! ## Refusals

Everything that can go wrong with a rule, a tree or the settings, as causes. The wording stands in
one function. -/

/-- What is wrong with a node of a tree that came from outside. -/
inductive Defect where
  /-- An operand has a left or a right node. -/
  | childOfOperand
  /-- An operand has no clause, or a blank one. -/
  | missingClause
  /-- An operator has no connective. -/
  | missingConnective
  /-- An operator lacks one of its two nodes. -/
  | missingChild (connective : Connective)
  /-- The node is neither an operand nor an operator. -/
  | unknownKind (kind : String)
deriving DecidableEq

/-- The wording of a defect. -/
def Defect.message : Defect → String
  | .childOfOperand => "operand node with children"
  | .missingClause => "operand node without a clause"
  | .missingConnective => "operator node without a connective"
  | .missingChild connective => connective.word ++ " node needs two children"
  | .unknownKind kind => "unknown node kind: " ++ kind

/-- Why a rule, a tree or settings are refused. -/
inductive Refusal where
  /-- The clause is no comparison. -/
  | invalidOperand (clause : String)
  /-- The comparator or connective is not known. -/
  | unknownOperator (sign : String)
  /-- The tree is not well formed. -/
  | invalidNode (defect : Defect)
  /-- The text or value could not be read. -/
  | unreadable (fault : Json.Fault)
  /-- The cache would hold nothing. -/
  | zeroCapacity
deriving DecidableEq

/-- The wording of a refusal. -/
def Refusal.message : Refusal → String
  | .invalidOperand clause => "Invalid operand: " ++ clause
  | .unknownOperator sign => "Unknown operator: " ++ sign
  | .invalidNode defect => "Invalid node: " ++ defect.message
  | .unreadable fault => "Serialization error: " ++ fault.description
  | .zeroCapacity => "Invalid config: cache_capacity must be greater than 0"

/-- Reads the word of a connective. -/
def Connective.ofWord (word : String) : Except Refusal Connective :=
  match ofWord? word with
  | some c => .ok c
  | none => .error (.unknownOperator word)

/-- Reads the sign of a comparator. -/
def Comparator.ofSign (sign : String) : Except Refusal Comparator :=
  match ofSign? sign.toList with
  | some c => .ok c
  | none => .error (.unknownOperator sign)

/-! ## Clauses

A clause compares an attribute with a literal. It is read more loosely than an operand is
recognised: any run of comparison signs is taken as the comparator, so that an unknown one is
reported as such, the value may be missing, and a quote on either side of it may be missing too.
A value may not hold a line feed. -/

/-- The name of an attribute, how the attribute is compared, and the literal it is compared
with. -/
structure Clause where
  name : String
  comparator : Comparator
  literal : String
deriving DecidableEq

namespace Clause

open Text

/-- The parts of a clause as they are written. -/
structure Parts where
  name : List Char
  sign : List Char
  value : List Char

/-- Without one apostrophe at the front, if there is one. -/
def dropQuote : List Char → List Char
  | [] => []
  | c :: rest => if c = '\'' then rest else c :: rest

/-- The value without its quotes and without the white space after it. -/
def literalOf (text : List Char) : List Char :=
  (dropQuote (trimRight (dropQuote text)).reverse).reverse

/-- Splits the text of a clause. Each part is taken as far as it goes and white space between the
parts is passed over; there is no split without a name. -/
def split? (text : List Char) : Option Parts :=
  match text.dropWhile isBlank with
  | [] => none
  | c :: rest =>
    if isNameStart c then
      let afterName := (rest.dropWhile isWordChar).dropWhile isBlank
      some
        { name := c :: rest.takeWhile isWordChar
          sign := afterName.takeWhile Comparator.isSignChar
          value := literalOf ((afterName.dropWhile Comparator.isSignChar).dropWhile isBlank) }
    else none

/-- Reads a clause. -/
def parse (text : String) : Except Refusal Clause :=
  match split? text.toList with
  | none => .error (.invalidOperand text)
  | some parts =>
    if parts.sign.isEmpty || parts.value.contains '\n' then .error (.invalidOperand text)
    else do
      let comparator ← Comparator.ofSign (String.ofList parts.sign)
      return ⟨String.ofList parts.name, comparator, String.ofList parts.value⟩

end Clause

/-! ## Comparing values with literals

A literal is always text. A number compares with a literal that writes a number as numbers do. A
string is equal to a literal only as text, but the order takes a string that writes a number for
that number. Everything else that has a text compares as text, by code point; null, arrays and
objects compare with nothing. -/

open Json

/-- The order of texts by code point. -/
def textOrder (s t : String) : Ordering :=
  if s = t then .eq else if s < t then .lt else .gt

namespace Json.Value

/-- The number that a value is or writes. -/
def numeric? : Value → Option Binary64
  | .number n => some n.toBinary64
  | .string text => numberOfText? text
  | _ => none

/-- The text of a value. -/
def text? : Value → Option String
  | .string text => some text
  | .number n => some n.text
  | .bool true => some "true"
  | .bool false => some "false"
  | _ => none

/-- The value equals the literal. -/
def looselyEquals (value : Value) (literal : String) : Bool :=
  match value with
  | .number n =>
    match numberOfText? literal with
    | some y => n.toBinary64.order y == .eq
    | none => n.text == literal
  | value => value.text? == some literal

/-- How the value compares with the literal, if it has a text at all. -/
def order? (value : Value) (literal : String) : Option Ordering :=
  match value.numeric?, numberOfText? literal with
  | some x, some y => some (x.order y)
  | _, _ => value.text?.map fun text => textOrder text literal

end Json.Value

/-- The comparison holds between a value and a literal. -/
def Comparator.compare (comparator : Comparator) (value : Value) (literal : String) : Bool :=
  match comparator with
  | .equal => value.looselyEquals literal
  | .notEqual => !value.looselyEquals literal
  | .greater => value.order? literal == some .gt
  | .less => value.order? literal == some .lt
  | .greaterEqual => (value.order? literal).any (·.isGE)
  | .lessEqual => (value.order? literal).any (·.isLE)

/-! ## Verdicts

A tree is evaluated against a record. Both sides of every join are evaluated, so that a clause
that cannot be read is reported even where the other side decides. -/

/-- The clause holds of the record; a missing attribute satisfies no comparison. -/
def Clause.holds (clause : Clause) (record : Value) : Bool :=
  match record.attribute? clause.name with
  | some value => clause.comparator.compare value clause.literal
  | none => false

/-- Reads a clause and evaluates it. -/
def checkClause (clause : String) (record : Value) : Except Refusal Bool := do
  return (← Clause.parse clause).holds record

/-- Evaluates a tree. -/
def Tree.check (record : Value) : Tree → Except Refusal Bool
  | .leaf clause => checkClause clause record
  | .join connective left right => do
    let l ← left.check record
    let r ← right.check record
    return connective.apply l r

/-- Evaluates a rule that may have no tree; without one the verdict is false. -/
def evaluate (tree : Option Tree) (record : Value) : Except Refusal Bool :=
  match tree with
  | some tree => tree.check record
  | none => .ok false

end Verdict
