import Verdict.Evaluation

/-!
# Trees on the wire

On the wire a node has four fields: its kind, a left and a right node, and a value. A shape is a
node with fields of the right type; whether it makes a tree is checked once the whole shape has
been read, each node before the nodes below it and left before right. A tree is written to a value
and to a text, and read back from either.
-/

namespace Verdict

namespace Wire

/-! ## Shapes -/

/-- The shape of a node, or of the place where a node is missing. -/
inductive Shape where
  | absent
  | node (kind : String) (left right : Shape) (value : Option String)
deriving DecidableEq

namespace Shape

/-- No node stands here. -/
def isAbsent : Shape → Bool
  | .absent => true
  | .node _ _ _ _ => false

/-- The shape of a tree. -/
def ofTree : Tree → Shape
  | .leaf clause => .node "operand" .absent .absent (some clause)
  | .join connective left right =>
    .node "operator" (ofTree left) (ofTree right) (some connective.word)

/-- The tree of a shape, or the refusal of the first node that makes none. An operand has a clause
that is not blank and no nodes below it; an operator has a connective and two nodes. -/
def check : Shape → Except Refusal (Option Tree)
  | .absent => .ok none
  | .node kind left right value =>
    if kind = "operand" then
      if left.isAbsent && right.isAbsent then
        match value with
        | none => .error (.invalidNode .missingClause)
        | some clause =>
          if Text.isBlankText clause then .error (.invalidNode .missingClause)
          else .ok (some (.leaf clause))
      else .error (.invalidNode .childOfOperand)
    else if kind = "operator" then
      match value with
      | none => .error (.invalidNode .missingConnective)
      | some word => do
        let connective ← Connective.ofWord word
        if left.isAbsent || right.isAbsent then
          .error (.invalidNode (.missingChild connective))
        else match ← left.check, ← right.check with
          | some l, some r => return some (.join connective l r)
          | _, _ => .error (.invalidNode (.missingChild connective))
    else .error (.invalidNode (.unknownKind kind))

end Shape

/-! ## Fields -/

/-- The fields of a node, in the order in which a list writes them. -/
inductive Field where
  | kind
  | left
  | right
  | value
deriving DecidableEq

namespace Field

/-- The field at a place of a list. -/
def at? : Nat → Option Field
  | 0 => some .kind
  | 1 => some .left
  | 2 => some .right
  | 3 => some .value
  | _ => none

/-- The field that a key names. -/
def ofKey? (key : String) : Option Field :=
  if key = "kind" then some .kind
  else if key = "left" then some .left
  else if key = "right" then some .right
  else if key = "value" then some .value
  else none

end Field

/-- What an element of a list or a member of an object is when read as a field: as a text, as a
text or nothing, and as a node or nothing. -/
structure Content where
  text : Except Json.Fault String
  optionalText : Except Json.Fault (Option String)
  node : Except Json.Fault Shape

/-- The fields of a node that have been read. -/
structure Draft where
  kind : Option String
  left : Option Shape
  right : Option Shape
  value : Option (Option String)

namespace Draft

/-- No field has been read. -/
def empty : Draft :=
  ⟨none, none, none, none⟩

/-- The field has been read. -/
def has (draft : Draft) : Field → Bool
  | .kind => draft.kind.isSome
  | .left => draft.left.isSome
  | .right => draft.right.isSome
  | .value => draft.value.isSome

/-- Takes a field. -/
def fill (draft : Draft) (field : Field) (content : Content) : Except Json.Fault Draft :=
  match field with
  | .kind => content.text.map fun kind => ⟨some kind, draft.left, draft.right, draft.value⟩
  | .left => content.node.map fun left => ⟨draft.kind, some left, draft.right, draft.value⟩
  | .right => content.node.map fun right => ⟨draft.kind, draft.left, some right, draft.value⟩
  | .value =>
    content.optionalText.map fun value => ⟨draft.kind, draft.left, draft.right, some value⟩

/-- The node of the fields that were read. Only the kind is required. -/
def finish (draft : Draft) : Except Json.Fault Shape :=
  match draft.kind with
  | none => .error .mismatch
  | some kind =>
    .ok (.node kind (draft.left.getD .absent) (draft.right.getD .absent) (draft.value.getD none))

end Draft

end Wire

/-! ## Trees as JSON values

A node is written as an object of its four fields. It is read from such an object, whose other
members do not matter, or from an array of one to four fields in order. A field that is missing or
null is absent; the kind may not be. -/

open Json

/-! ### Writing -/

/-- The value of a tree. -/
def Tree.toValue : Tree → Value
  | .leaf clause =>
    .object [("kind", .string "operand"), ("left", .null), ("right", .null),
      ("value", .string clause)]
  | .join connective left right =>
    .object [("kind", .string "operator"), ("left", left.toValue), ("right", right.toValue),
      ("value", .string connective.word)]

namespace Wire

/-- The value of a rule that may have no tree. -/
def toValue (tree : Option Tree) : Value :=
  match tree with
  | none => .null
  | some tree => tree.toValue

/-! ### Reading -/

/-- A value that must be a text. -/
def textOf : Value → Except Fault String
  | .string text => .ok text
  | _ => .error .mismatch

/-- A value that is a text or nothing. -/
def optionalTextOf : Value → Except Fault (Option String)
  | .null => .ok none
  | .string text => .ok (some text)
  | _ => .error .mismatch

mutual

/-- A value that is a node or nothing. -/
def shapeOf : Value → Except Fault Shape
  | .null => .ok .absent
  | .array items => shapeOfItems 0 .empty items
  | .object members => shapeOfMembers .empty members
  | _ => .error .mismatch

/-- The rest of the fields in order. -/
def shapeOfItems (place : Nat) (draft : Draft) : List Value → Except Fault Shape
  | [] => draft.finish
  | item :: rest =>
    match Field.at? place with
    | none => .error .mismatch
    | some field => do
      let draft ← draft.fill field ⟨textOf item, optionalTextOf item, shapeOf item⟩
      shapeOfItems (place + 1) draft rest

/-- The rest of the fields by key. -/
def shapeOfMembers (draft : Draft) : List (String × Value) → Except Fault Shape
  | [] => draft.finish
  | (key, item) :: rest =>
    match Field.ofKey? key with
    | none => shapeOfMembers draft rest
    | some field =>
      if draft.has field then .error .mismatch
      else do
        let draft ← draft.fill field ⟨textOf item, optionalTextOf item, shapeOf item⟩
        shapeOfMembers draft rest

end

/-- Checks what was read. -/
def checked (shape : Except Fault Shape) : Except Refusal (Option Tree) :=
  match shape with
  | .error fault => .error (.unreadable fault)
  | .ok shape => shape.check

/-- The tree that a value writes; null is the absent tree. -/
def ofValue (value : Value) : Except Refusal (Option Tree) :=
  checked (shapeOf value)

/-! ### Nodes inside other data

The refusal of a node that stands inside other data is relayed as a message. A message that ends in
a position, ` at line 3 column 14`, is taken for one that was relayed before: the position is cut
off and, unless the line is 0, written again behind the rest. -/

/-- What stands in front of a mark and a number of 64 bits at the end of a text, and the number.
Texts are given last character first. -/
def countBehind? (mark : String) (reversed : List Char) : Option (List Char × Nat) :=
  let letters := mark.toList.reverse
  let digits := (reversed.takeWhile Char.isDigit).reverse
  let rest := reversed.dropWhile Char.isDigit
  if !letters.isPrefixOf rest || digits.isEmpty then none
  else if Numeral.value digits < Nat.pow 2 64 then
    some (rest.drop letters.length, Numeral.value digits)
  else none

/-- A message as it is relayed. -/
def relayed (message : String) : String :=
  match countBehind? " column " message.toList.reverse with
  | none => message
  | some (before, column) =>
    match countBehind? " at line " before with
    | none => message
    | some (front, line) =>
      let front := String.ofList front.reverse
      if line = 0 then front
      else front ++ " at line " ++ toString line ++ " column " ++ toString column

/-- Why a node that stands inside other data is refused: as data of the wrong shape, with the
wording of the refusal as it is relayed if the node could be read. -/
structure EmbeddedFault where
  fault : Fault
  message : Option String
deriving DecidableEq

/-- The tree of a node that stands inside other data, where null is no node. The shape is read like
any other data; a refusal of the node comes in words. -/
def embedded (value : Value) : Except EmbeddedFault Tree :=
  match shapeOf value with
  | .error fault => .error ⟨fault, none⟩
  | .ok shape =>
    match shape.check with
    | .ok (some tree) => .ok tree
    | .ok none => .error ⟨.mismatch, none⟩
    | .error refusal => .error ⟨.mismatch, some (relayed refusal.message)⟩

/-! ## Trees as JSON text

The text of a tree is the compact text of its value. Reading goes through the text in order and
stops at the first fault, be it of the text or of the shape; whether the nodes make a tree is
checked after the last character. -/

/-- The fault of something that is not what a field wants. A word, a number or a string is read to
its end first; of an array or an object its opening bracket is enough. -/
def mistyped {α : Type} : Outline → Except Fault α
  | .number numeral => do
    let _ ← Outline.readNumber numeral
    .error .mismatch
  | .string text => do
    let _ ← text
    .error .mismatch
  | .broken reason => .error reason.used
  | _ => .error .mismatch

/-- An outline that must be a text. -/
def readText : Outline → Except Fault String
  | .string text => text
  | other => mistyped other

/-- An outline that is a text or nothing. -/
def readOptionalText : Outline → Except Fault (Option String)
  | .null => .ok none
  | .string text => text.map some
  | other => mistyped other

mutual

/-- An outline that is a node or nothing, nested at most `room` levels deep. -/
def readShape (room : Nat) : Outline → Except Fault Shape
  | .null => .ok .absent
  | .array items ending =>
    match room with
    | 0 => .error .malformed
    | room + 1 => readShapeItems room ending 0 .empty items
  | .object members ending =>
    match room with
    | 0 => .error .malformed
    | room + 1 => readShapeMembers room ending .empty members
  | other => mistyped other

/-- The rest of the fields in order. After the last field the list must end. -/
def readShapeItems (room : Nat) (ending : Option Break) (place : Nat) (draft : Draft) :
    List Outline → Except Fault Shape
  | [] => do
    Outline.close ending
    draft.finish
  | item :: rest =>
    match Field.at? place with
    | none => .error .malformed
    | some field => do
      let draft ← draft.fill field ⟨readText item, readOptionalText item, readShape room item⟩
      readShapeItems room ending (place + 1) draft rest

/-- The rest of the fields by key. A field may be given once; other members are passed over. -/
def readShapeMembers (room : Nat) (ending : Option Break) (draft : Draft) :
    List (Except Fault String × Outline) → Except Fault Shape
  | [] => do
    Outline.close ending
    draft.finish
  | (key, item) :: rest => do
    match Field.ofKey? (← key) with
    | none =>
      item.skip
      readShapeMembers room ending draft rest
    | some field =>
      if draft.has field then .error .mismatch
      else
        let draft ← draft.fill field ⟨readText item, readOptionalText item, readShape room item⟩
        readShapeMembers room ending draft rest

end

/-- The shape that a whole text writes. -/
def shapeOfText (text : String) : Except Fault Shape := do
  let document := Document.ofString text
  document.finish (← readShape nestingLimit document.root)

/-- The tree that a text writes; null is the absent tree. -/
def ofText (text : String) : Except Refusal (Option Tree) :=
  checked (shapeOfText text)

/-- The compact text of a rule that may have no tree. -/
def toText (tree : Option Tree) : String :=
  (toValue tree).toText

end Wire

end Verdict
