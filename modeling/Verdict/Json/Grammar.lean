import Verdict.Json.Spelling
import Verdict.Number.Numeral

/-!
# Outlines of JSON texts

An outline is what a JSON text spells up to its first fault, together with the fault. It is made
without knowing what the text should hold; a reader then walks it in the order of the text and
stops at the first thing it cannot accept, which is either a fault of the text or a mismatch.

What a reader does not use it passes over, and it is then more tolerant: a surrogate may stand
alone, a number may be out of range, nesting may be deep.
-/

namespace Verdict.Json

/-- What a JSON text spells, up to its first fault. -/
inductive Outline where
  | null
  | bool (value : Bool)
  | number (numeral : Numeral)
  /-- A closed string: its text, or the fault of a surrogate that stands alone. -/
  | string (text : Except Fault String)
  /-- An array: its items in order, and how it breaks off if it is not closed. -/
  | array (items : List Outline) (ending : Option Break)
  /-- An object: its members in order, and how it breaks off if it is not closed. -/
  | object (members : List (Except Fault String × Outline)) (ending : Option Break)
  /-- No value stands here. -/
  | broken (reason : Break)

namespace Outline

mutual

/-- Passes over a value. -/
def skip : Outline → Except Fault Unit
  | .null => .ok ()
  | .bool _ => .ok ()
  | .number _ => .ok ()
  | .string _ => .ok ()
  | .array items ending => skipItems ending items
  | .object members ending => skipMembers ending members
  | .broken reason => .error reason.skipped

/-- Passes over the items of an array and its end. -/
def skipItems (ending : Option Break) : List Outline → Except Fault Unit
  | [] => match ending with
    | none => .ok ()
    | some reason => .error reason.skipped
  | item :: rest => do item.skip; skipItems ending rest

/-- Passes over the members of an object and its end. -/
def skipMembers (ending : Option Break) :
    List (Except Fault String × Outline) → Except Fault Unit
  | [] => match ending with
    | none => .ok ()
    | some reason => .error reason.skipped
  | (_, value) :: rest => do value.skip; skipMembers ending rest

end

end Outline

/-- A whole JSON text: the value it starts with, and whether anything but blanks follows it. -/
structure Document where
  root : Outline
  trailing : Bool

/-! ## The grammar

Reads the outline of a text. The readers of arrays and objects are bounded by the length of the
text, since each value and each separator takes at least one character. -/

/-- A blank between tokens. -/
def isBlank (c : Char) : Bool :=
  c == ' ' || c == '\t' || c == '\n' || c == '\r'

/-- The text without the blanks at its front. -/
def skipBlanks (text : List Char) : List Char :=
  text.dropWhile isBlank

/-! ## Scalars -/

/-- The rest of a word whose first letter has been read. -/
def readWord : (letters text : List Char) → Except Fault (List Char)
  | [], text => .ok text
  | _ :: _, [] => .error .truncated
  | letter :: letters, c :: text =>
    if c = letter then readWord letters text else .error .malformed

/-- How a number breaks where a digit is missing. At the end of the text it is cut short for a
reader that uses it, and malformed for one that passes over it. -/
def missingDigit : List Char → Break
  | [] => ⟨.truncated, .malformed⟩
  | _ :: _ => .both .malformed

/-- The digits before the point: a zero, or digits that start with another. -/
def readWhole : List Char → Except Break (List Char × List Char)
  | [] => .error (missingDigit [])
  | c :: rest =>
    if c = '0' then
      if rest.head?.any Char.isDigit then .error (.both .malformed) else .ok (['0'], rest)
    else if c.isDigit then .ok (c :: rest.takeWhile Char.isDigit, rest.dropWhile Char.isDigit)
    else .error (.both .malformed)

/-- One or more digits. -/
def readDigits (text : List Char) : Except Break (List Char × List Char) :=
  let digits := text.takeWhile Char.isDigit
  let rest := text.dropWhile Char.isDigit
  if digits.isEmpty then .error (missingDigit rest) else .ok (digits, rest)

/-- The fraction, if a point stands here. -/
def readFraction : List Char → Except Break (Option (List Char) × List Char)
  | [] => .ok (none, [])
  | c :: rest =>
    if c = '.' then (readDigits rest).map fun (digits, rest) => (some digits, rest)
    else .ok (none, c :: rest)

/-- The power of ten, if its mark stands here. -/
def readPower : List Char → Except Break (Option Int × List Char)
  | [] => .ok (none, [])
  | c :: rest =>
    if c = 'e' ∨ c = 'E' then
      let (negative, unsigned) := Numeral.readSign rest
      (readDigits unsigned).map fun (digits, rest) =>
        (some (if negative then -(Numeral.value digits : Int) else Numeral.value digits), rest)
    else .ok (none, c :: rest)

/-- A number. -/
def readNumeral (text : List Char) : Except Break (Numeral × List Char) := do
  let negative := text.head? == some '-'
  let (whole, text) ← readWhole (if negative then text.tail else text)
  let (fraction, text) ← readFraction text
  let (power, text) ← readPower text
  return (⟨negative, whole, fraction, power⟩, text)

/-! ## Values -/

/-- What was read, and the text that follows it, or the break where reading stopped. -/
structure Progress (α : Type) where
  found : α
  rest : Except Break (List Char)

/-- The elements of a list in order, and how it breaks off if it is not closed. -/
abbrev Listing (α : Type) : Type :=
  List α × Option Break

namespace Progress

/-- No value stands here. -/
def broken (reason : Break) : Progress Outline :=
  ⟨.broken reason, .error reason⟩

/-- A list that breaks off before its next element. -/
def breakOff {α : Type} (reason : Break) : Progress (Listing α) :=
  ⟨([], some reason), .error reason⟩

/-- A list that ends. -/
def closed {α : Type} (rest : List Char) : Progress (Listing α) :=
  ⟨([], none), .ok rest⟩

/-- A list with one more element in front. -/
def cons {α : Type} (x : α) (more : Progress (Listing α)) : Progress (Listing α) :=
  ⟨(x :: more.found.1, more.found.2), more.rest⟩

/-- The array of the items that were read. -/
def array (items : Progress (Listing Outline)) : Progress Outline :=
  ⟨.array items.found.1 items.found.2, items.rest⟩

/-- The object of the members that were read. -/
def object (members : Progress (Listing (Except Fault String × Outline))) : Progress Outline :=
  ⟨.object members.found.1 members.found.2, members.rest⟩

/-- A word whose first letter has been read. -/
def word (letters : List Char) (value : Outline) (text : List Char) : Progress Outline :=
  match readWord letters text with
  | .ok rest => ⟨value, .ok rest⟩
  | .error fault => broken (.both fault)

/-- A string whose opening quote has been read. -/
def string (text : List Char) : Progress Outline :=
  match readString text with
  | .ok (text, rest) => ⟨.string text, .ok rest⟩
  | .error reason => broken reason

/-- A number. -/
def number (text : List Char) : Progress Outline :=
  match readNumeral text with
  | .ok (numeral, rest) => ⟨.number numeral, .ok rest⟩
  | .error reason => broken reason

end Progress

mutual

/-- A value. -/
def readOutline : (bound : Nat) → List Char → Progress Outline
  | 0, _ => .broken (.both .malformed)
  | bound + 1, text =>
    match skipBlanks text with
    | [] => .broken (.both .truncated)
    | c :: rest =>
      if c = 'n' then .word ['u', 'l', 'l'] .null rest
      else if c = 't' then .word ['r', 'u', 'e'] (.bool true) rest
      else if c = 'f' then .word ['a', 'l', 's', 'e'] (.bool false) rest
      else if c = '"' then .string rest
      else if c = '[' then .array <|
        match skipBlanks rest with
        | [] => .breakOff (.both .truncated)
        | c :: after => if c = ']' then .closed after else readItems bound (c :: after)
      else if c = '\x7b' then .object <|
        match skipBlanks rest with
        | [] => .breakOff (.both .truncated)
        | c :: after => if c = '\x7d' then .closed after else readMembers bound (c :: after)
      else if c = '-' ∨ c.isDigit then .number (c :: rest)
      else .broken (.both .malformed)

/-- The items of an array, from the front of one to the end of the array. -/
def readItems : (bound : Nat) → List Char → Progress (Listing Outline)
  | 0, _ => .breakOff (.both .malformed)
  | bound + 1, text =>
    let item := readOutline bound text
    .cons item.found <| match item.rest with
      | .error reason => .breakOff reason
      | .ok rest => match skipBlanks rest with
        | [] => .breakOff (.both .truncated)
        | c :: rest =>
          if c = ']' then .closed rest
          else if c = ',' then readItems bound rest
          else .breakOff (.both .malformed)

/-- The members of an object, from the front of one to the end of the object. -/
def readMembers : (bound : Nat) → List Char → Progress (Listing (Except Fault String × Outline))
  | 0, _ => .breakOff (.both .malformed)
  | bound + 1, text =>
    match skipBlanks text with
    | [] => .breakOff (.both .truncated)
    | quote :: rest =>
      if quote = '"' then
        match readString rest with
        | .error reason => .breakOff reason
        | .ok (key, rest) =>
          let value : Progress Outline := match skipBlanks rest with
            | [] => .broken (.both .truncated)
            | c :: rest => if c = ':' then readOutline bound rest else .broken (.both .malformed)
          .cons (key, value.found) <| match value.rest with
            | .error reason => .breakOff reason
            | .ok rest => match skipBlanks rest with
              | [] => .breakOff (.both .truncated)
              | c :: rest =>
                if c = '\x7d' then .closed rest
                else if c = ',' then readMembers bound rest
                else .breakOff (.both .malformed)
      else .breakOff (.both .malformed)

end

namespace Document

/-- The outline of a whole text. -/
def ofChars (text : List Char) : Document :=
  let root := readOutline (2 * text.length + 2) text
  match root.rest with
  | .ok rest => ⟨root.found, !(skipBlanks rest).isEmpty⟩
  | .error _ => ⟨root.found, false⟩

/-- The outline of a whole text. -/
def ofString (text : String) : Document :=
  ofChars text.toList

end Document

end Verdict.Json
