/-!
# Strings of a JSON text

Between the quotes of a JSON string stand characters and escapes. An escape `\u` writes one unit of
sixteen bits; two units that are a high and a low surrogate make one character, and a surrogate
without its partner is a fault for a reader that wants the text, not for one that passes over it.
-/

namespace Verdict.Json

/-! ## Faults -/

/-- Why a JSON text or value is refused. -/
inductive Fault where
  /-- The text breaks the grammar, nests too deep or holds a number out of range. -/
  | malformed
  /-- The text ends too early. -/
  | truncated
  /-- The text is valid and does not have the expected shape. -/
  | mismatch
deriving DecidableEq

/-- What a refusal says about the fault. -/
def Fault.description : Fault → String
  | .malformed => "malformed text"
  | .truncated => "unexpected end of text"
  | .mismatch => "unexpected shape"

/-! ## Pieces -/

/-- How an unfinished token fails, for a reader that uses it and for one that passes over it. -/
structure Break where
  used : Fault
  skipped : Fault
deriving DecidableEq

/-- The same fault for both readers. -/
def Break.both (fault : Fault) : Break :=
  ⟨fault, fault⟩

/-- A piece of a string between its quotes. -/
inductive Piece where
  /-- A character, written as itself or by a short escape. -/
  | char (c : Char)
  /-- A unit of sixteen bits, written by a long escape. -/
  | unit (n : Nat)
deriving DecidableEq

namespace Piece

/-! ### The characters of the pieces -/

/-- The first half of a character above U+FFFF. -/
def isHigh (n : Nat) : Bool :=
  0xD800 ≤ n && n ≤ 0xDBFF

/-- The second half of a character above U+FFFF. -/
def isLow (n : Nat) : Bool :=
  0xDC00 ≤ n && n ≤ 0xDFFF

/-- The character of a high and a low surrogate. -/
def ofPair (high low : Nat) : Char :=
  Char.ofNat (0x10000 + (high - 0xD800) * 0x400 + (low - 0xDC00))

/-- The characters that pieces spell; none when a surrogate stands alone. -/
def characters? : List Piece → Option (List Char)
  | [] => some []
  | .char c :: rest => (characters? rest).map (c :: ·)
  | .unit n :: rest =>
    if isLow n then none
    else if isHigh n then
      match rest with
      | .unit m :: rest => if isLow m then (characters? rest).map (ofPair n m :: ·) else none
      | _ => none
    else (characters? rest).map (Char.ofNat n :: ·)

/-- A surrogate that stands alone whatever follows the pieces. A high surrogate at the very end may
still find its partner. -/
def hasLoneSurrogate : List Piece → Bool
  | [] => false
  | .char _ :: rest => hasLoneSurrogate rest
  | .unit n :: rest =>
    if isLow n then true
    else if isHigh n then
      match rest with
      | [] => false
      | .unit m :: rest => !isLow m || hasLoneSurrogate rest
      | .char _ :: _ => true
    else hasLoneSurrogate rest

/-! ## Reading the pieces -/

/-- The character of a short escape. -/
def ofEscape? (letter : Char) : Option Char :=
  if letter = '"' then some '"'
  else if letter = '\\' then some '\\'
  else if letter = '/' then some '/'
  else if letter = 'b' then some '\x08'
  else if letter = 'f' then some '\x0c'
  else if letter = 'n' then some '\n'
  else if letter = 'r' then some '\r'
  else if letter = 't' then some '\t'
  else none

/-- The value of a hexadecimal digit. -/
def hexDigit? (c : Char) : Option Nat :=
  if c.isDigit then some (c.toNat - '0'.toNat)
  else if 'a' ≤ c ∧ c ≤ 'f' then some (c.toNat - 'a'.toNat + 10)
  else if 'A' ≤ c ∧ c ≤ 'F' then some (c.toNat - 'A'.toNat + 10)
  else none

/-- The unit that four hexadecimal digits write. -/
def hexUnit? (a b c d : Char) : Option Nat := do
  return (((← hexDigit? a) * 16 + (← hexDigit? b)) * 16 + (← hexDigit? c)) * 16 + (← hexDigit? d)

/-- Why fewer than four characters cannot be the digits of a long escape. Digits are looked for in
the next four bytes, so what counts is whether four bytes are left. -/
def shortUnitFault (rest : List Char) : Fault :=
  if rest.foldl (fun size c => size + c.utf8Size) 0 < 4 then .truncated else .malformed

/-- The pieces up to the closing quote, and what follows it; or the pieces up to the first fault,
and the fault. -/
def scan : List Char → List Piece × Except Fault (List Char)
  | [] => ([], .error .truncated)
  | ['\\'] => ([], .error .truncated)
  | '\\' :: 'u' :: a :: b :: c :: d :: rest =>
    match hexUnit? a b c d with
    | some n => let (pieces, ending) := scan rest; (.unit n :: pieces, ending)
    | none => ([], .error .malformed)
  | '\\' :: 'u' :: rest => ([], .error (shortUnitFault rest))
  | '\\' :: letter :: rest =>
    match ofEscape? letter with
    | some c => let (pieces, ending) := scan rest; (.char c :: pieces, ending)
    | none => ([], .error .malformed)
  | '"' :: rest => ([], .ok rest)
  | c :: rest =>
    if c.toNat < 0x20 then ([], .error .malformed)
    else let (pieces, ending) := scan rest; (.char c :: pieces, ending)

end Piece

/-- A string after its opening quote: what it spells and what follows it, or how it breaks. -/
def readString (text : List Char) : Except Break (Except Fault String × List Char) :=
  match Piece.scan text with
  | (pieces, .error fault) =>
    .error ⟨if Piece.hasLoneSurrogate pieces then .malformed else fault, fault⟩
  | (pieces, .ok rest) =>
    match Piece.characters? pieces with
    | some cs => .ok (.ok (String.ofList cs), rest)
    | none => .ok (.error .malformed, rest)

/-! ## Writing strings -/

/-- A hexadecimal digit in lower case. -/
def hexChar (n : Nat) : Char :=
  Nat.digitChar (n % 16)

/-- A character as a string holds it. The quote, the backslash and the control characters below
U+0020 are escaped, by a letter where there is one; everything else stands for itself. -/
def escape (c : Char) : List Char :=
  if c = '"' then ['\\', '"']
  else if c = '\\' then ['\\', '\\']
  else if c = '\x08' then ['\\', 'b']
  else if c = '\x0c' then ['\\', 'f']
  else if c = '\n' then ['\\', 'n']
  else if c = '\r' then ['\\', 'r']
  else if c = '\t' then ['\\', 't']
  else if c.toNat < 0x20 then ['\\', 'u', '0', '0', hexChar (c.toNat / 16), hexChar c.toNat]
  else [c]

/-- A string between quotes. -/
def quoted (text : String) : List Char :=
  '"' :: text.toList.flatMap escape ++ ['"']

end Verdict.Json
