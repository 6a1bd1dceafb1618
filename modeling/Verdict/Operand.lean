/-!
# Operands

The text between two connectives of a rule is an operand when it is a name, a comparator and a
value. This module has the characters that rule text is made of, the comparators, and the form of an
operand.
-/

/-! ## Characters of rule text

White space is the Unicode property White_Space. Names and bare values are written with the ASCII
letters, digits, the underscore and the point. -/

namespace Verdict.Text

/-! ### White space -/

/-- The closed ranges of code points that carry the property White_Space, ascending. -/
def blankRanges : List (Nat × Nat) :=
  [(0x09, 0x0D), (0x20, 0x20), (0x85, 0x85), (0xA0, 0xA0), (0x1680, 0x1680), (0x2000, 0x200A),
   (0x2028, 0x2029), (0x202F, 0x202F), (0x205F, 0x205F), (0x3000, 0x3000)]

/-- A white space character. -/
def isBlank (c : Char) : Bool :=
  blankRanges.any fun r => r.1 ≤ c.toNat && c.toNat ≤ r.2

/-- An ASCII blank: space, tab, line feed, form feed or carriage return. The vertical tab is
white space and not one of these. -/
def isAsciiBlank (c : Char) : Bool :=
  c == ' ' || c == '\t' || c == '\n' || c == '\x0c' || c == '\r'

theorem isBlank_of_isAsciiBlank {c : Char} (h : isAsciiBlank c = true) : isBlank c = true := by
  simp only [isAsciiBlank, Bool.or_eq_true, beq_iff_eq] at h
  rcases h with (((h | h) | h) | h) | h <;> subst h <;> decide

/-- Without the white space at the end. -/
def trimRight (cs : List Char) : List Char :=
  (cs.reverse.dropWhile isBlank).reverse

/-- Without the white space at both ends. -/
def trim (cs : List Char) : List Char :=
  trimRight (cs.dropWhile isBlank)

/-- A text that holds nothing but white space. -/
def isBlankText (text : String) : Bool :=
  text.toList.all isBlank

/-! ### Words -/

/-- A character of a name or of a bare value. -/
def isWordChar (c : Char) : Bool :=
  c.isAlphanum || c == '_' || c == '.'

/-- A character that a name may start with. -/
def isNameStart (c : Char) : Bool :=
  c.isAlpha || c == '_'

theorem isWordChar_of_isNameStart {c : Char} (h : isNameStart c = true) :
    isWordChar c = true := by
  simp only [isNameStart, isWordChar, Char.isAlphanum, Bool.or_eq_true] at h ⊢
  rcases h with h | h
  · exact .inl (.inl (.inl h))
  · exact .inl (.inr h)

end Verdict.Text

namespace Verdict

/-! ## Comparators

The six signs that compare an attribute with a literal. -/

/-- How an attribute is compared with a literal. -/
inductive Comparator where
  | greater
  | less
  | greaterEqual
  | lessEqual
  | equal
  | notEqual
deriving DecidableEq

namespace Comparator

/-- The sign as a rule writes it. -/
def sign : Comparator → List Char
  | .greater => ['>']
  | .less => ['<']
  | .greaterEqual => ['>', '=']
  | .lessEqual => ['<', '=']
  | .equal => ['=']
  | .notEqual => ['!', '=']

/-- All comparators, the longer signs first. -/
def all : List Comparator :=
  [.greaterEqual, .lessEqual, .notEqual, .greater, .less, .equal]

/-- The comparator whose sign is exactly this text. -/
def ofSign? (text : List Char) : Option Comparator :=
  all.find? fun c => c.sign == text

/-- The comparator at the front of a text, the longest that fits, and what follows it. -/
def read? : List Char → Option (Comparator × List Char)
  | '>' :: '=' :: rest => some (.greaterEqual, rest)
  | '<' :: '=' :: rest => some (.lessEqual, rest)
  | '!' :: '=' :: rest => some (.notEqual, rest)
  | '>' :: rest => some (.greater, rest)
  | '<' :: rest => some (.less, rest)
  | '=' :: rest => some (.equal, rest)
  | _ => none

/-- A character that some sign is written with. -/
def isSignChar (c : Char) : Bool :=
  c == '<' || c == '>' || c == '=' || c == '!'

@[simp] theorem ofSign?_sign (c : Comparator) : ofSign? c.sign = some c := by
  cases c <;> decide

theorem eq_sign_append_of_read? {text rest : List Char} {c : Comparator}
    (h : read? text = some (c, rest)) : text = c.sign ++ rest := by
  unfold read? at h
  split at h <;> cases h <;> rfl

end Comparator

end Verdict

/-! ## Operands

White space is allowed around the comparator of an operand and nowhere else. A value is a quoted
literal, which may hold anything but an apostrophe, or a bare word. -/

namespace Verdict.Operand

open Text

/-- A value and nothing after it: a closed quoted literal or a bare word. -/
def acceptsValue : List Char → Bool
  | [] => false
  | c :: rest =>
    if c = '\'' then rest.dropWhile (· != '\'') == ['\'']
    else (c :: rest).all isWordChar

/-- A comparator, white space and a value. -/
def acceptsComparison (text : List Char) : Bool :=
  match Comparator.read? text with
  | some (_, rest) => acceptsValue (rest.dropWhile isBlank)
  | none => false

/-- A name, white space and a comparison. The name is read as far as it goes. -/
def accepts : List Char → Bool
  | [] => false
  | c :: rest =>
    isNameStart c && acceptsComparison ((rest.dropWhile isWordChar).dropWhile isBlank)

end Verdict.Operand

namespace Verdict

/-- The text, taken as it stands, is an operand. -/
def isOperand (text : String) : Bool :=
  Operand.accepts text.toList

end Verdict
