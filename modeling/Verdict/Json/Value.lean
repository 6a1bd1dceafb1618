import Verdict.Json.Grammar
import Verdict.Number.Basic

/-!
# JSON values

Values without the text that spelled them. The members of an object are kept as a list; a key that
is given again replaces its value, so a key stands in it once.
-/

namespace Verdict.Json

/-- A JSON value. -/
inductive Value where
  | null
  | bool (value : Bool)
  | number (value : Number)
  | string (text : String)
  | array (items : List Value)
  | object (members : List (String × Value))

namespace Value

/-- Gives a key its value: in place if the key is there, at the end otherwise. -/
def insert (key : String) (value : Value) :
    List (String × Value) → List (String × Value)
  | [] => [(key, value)]
  | (k, v) :: rest => if k = key then (key, value) :: rest else (k, v) :: insert key value rest

/-- The members of an object after entries in order; of entries with one key the last counts. -/
def ofEntries (entries : List (String × Value)) : List (String × Value) :=
  entries.foldl (fun members entry => insert entry.1 entry.2 members) []

/-- The value of a key of an object. Only objects have keys, and a key is looked up as it stands,
never as a path. -/
def attribute? (key : String) : Value → Option Value
  | .object members => members.lookup key
  | _ => none

end Value

/-! ## Reading -/

namespace Outline

/-- The number of a numeral; out of range it is a fault of the text. -/
def readNumber (numeral : Numeral) : Except Fault Number :=
  match Number.ofNumeral? numeral with
  | some n => .ok n
  | none => .error .malformed

/-- Whether a list is closed, for a reader that uses it. -/
def close : Option Break → Except Fault Unit
  | none => .ok ()
  | some reason => .error reason.used

mutual

/-- Reads any value that nests at most `room` levels deep. -/
def value (room : Nat) : Outline → Except Fault Value
  | .null => .ok .null
  | .bool b => .ok (.bool b)
  | .number numeral => (readNumber numeral).map .number
  | .string text => text.map .string
  | .array items ending =>
    match room with
    | 0 => .error .malformed
    | room + 1 => (values room ending items).map .array
  | .object members ending =>
    match room with
    | 0 => .error .malformed
    | room + 1 => (entries room ending members).map fun entries => .object (Value.ofEntries entries)
  | .broken reason => .error reason.used

/-- Reads the items of an array. -/
def values (room : Nat) (ending : Option Break) : List Outline → Except Fault (List Value)
  | [] => (close ending).map fun _ => []
  | item :: rest => do
    let v ← item.value room
    let vs ← values room ending rest
    return v :: vs

/-- Reads the members of an object, in order. -/
def entries (room : Nat) (ending : Option Break) :
    List (Except Fault String × Outline) → Except Fault (List (String × Value))
  | [] => (close ending).map fun _ => []
  | (key, item) :: rest => do
    let k ← key
    let v ← item.value room
    let vs ← entries room ending rest
    return (k, v) :: vs

end

end Outline

/-- The levels that a text may nest. -/
def nestingLimit : Nat :=
  127

/-- Refuses what follows the value of a text. -/
def Document.finish {α : Type} (document : Document) (a : α) : Except Fault α :=
  if document.trailing then .error .malformed else .ok a

/-- Reads the value of a whole text. -/
def Value.ofString (text : String) : Except Fault Value := do
  let document := Document.ofString text
  document.finish (← document.root.value nestingLimit)

/-! ## Writing -/

namespace Value

/-- A list of texts with commas between them. -/
def commaSeparated : List (List Char) → List Char
  | [] => []
  | [text] => text
  | text :: rest => text ++ ',' :: commaSeparated rest

/-- The text of a number. Unlike the canonical text it keeps a binary64 number recognisable. -/
def numberText : Number → List Char
  | .integer n _ _ => Number.integerText n
  | .real x => x.shortest.layout

mutual

/-- The compact text of a value, its members in order. -/
def render : Value → List Char
  | .null => ['n', 'u', 'l', 'l']
  | .bool true => ['t', 'r', 'u', 'e']
  | .bool false => ['f', 'a', 'l', 's', 'e']
  | .number n => numberText n
  | .string text => quoted text
  | .array items => '[' :: commaSeparated (renderItems items) ++ [']']
  | .object members => '\x7b' :: commaSeparated (renderMembers members) ++ ['\x7d']

/-- The texts of the items of an array. -/
def renderItems : List Value → List (List Char)
  | [] => []
  | item :: rest => item.render :: renderItems rest

/-- The texts of the members of an object. -/
def renderMembers : List (String × Value) → List (List Char)
  | [] => []
  | (key, value) :: rest => (quoted key ++ ':' :: value.render) :: renderMembers rest

end

mutual

/-- The compact text of a value in front of another text, written in one pass. -/
def renderBefore (rest : List Char) : Value → List Char
  | .null => 'n' :: 'u' :: 'l' :: 'l' :: rest
  | .bool true => 't' :: 'r' :: 'u' :: 'e' :: rest
  | .bool false => 'f' :: 'a' :: 'l' :: 's' :: 'e' :: rest
  | .number n => numberText n ++ rest
  | .string text => quoted text ++ rest
  | .array items => '[' :: renderItemsBefore (']' :: rest) items
  | .object members => '\x7b' :: renderMembersBefore ('\x7d' :: rest) members

/-- The texts of the items of an array, with commas between them, in front of another text. -/
def renderItemsBefore (rest : List Char) : List Value → List Char
  | [] => rest
  | [item] => item.renderBefore rest
  | item :: next :: more => item.renderBefore (',' :: renderItemsBefore rest (next :: more))

/-- The texts of the members of an object, with commas between them, in front of another text. -/
def renderMembersBefore (rest : List Char) : List (String × Value) → List Char
  | [] => rest
  | [(key, value)] => quoted key ++ ':' :: value.renderBefore rest
  | (key, value) :: next :: more =>
    quoted key ++ ':' :: value.renderBefore (',' :: renderMembersBefore rest (next :: more))

end

mutual

/-- One pass writes what the parts of a value write. -/
theorem renderBefore_eq (rest : List Char) :
    (value : Value) → value.renderBefore rest = value.render ++ rest
  | .null => rfl
  | .bool true => rfl
  | .bool false => rfl
  | .number n => rfl
  | .string text => rfl
  | .array items => by
    rw [renderBefore, renderItemsBefore_eq, render]
    simp
  | .object members => by
    rw [renderBefore, renderMembersBefore_eq, render]
    simp

theorem renderItemsBefore_eq (rest : List Char) :
    (items : List Value) →
      renderItemsBefore rest items = commaSeparated (renderItems items) ++ rest
  | [] => rfl
  | [item] => renderBefore_eq rest item
  | item :: next :: more => by
    rw [renderItemsBefore, renderBefore_eq, renderItemsBefore_eq]
    simp [renderItems, commaSeparated]

theorem renderMembersBefore_eq (rest : List Char) :
    (members : List (String × Value)) →
      renderMembersBefore rest members = commaSeparated (renderMembers members) ++ rest
  | [] => rfl
  | [(key, value)] => by
    rw [renderMembersBefore, renderBefore_eq]
    simp [renderMembers, commaSeparated]
  | (key, value) :: next :: more => by
    rw [renderMembersBefore, renderBefore_eq, renderMembersBefore_eq]
    simp [renderMembers, commaSeparated]

end

/-- The compact text of a value. -/
def toText (value : Value) : String :=
  String.ofList (value.renderBefore [])

theorem toText_eq (value : Value) : value.toText = String.ofList value.render := by
  rw [toText, renderBefore_eq, List.append_nil]

end Value

end Verdict.Json
