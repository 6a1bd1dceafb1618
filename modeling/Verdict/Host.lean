import Verdict.Wire

/-!
# Objects of a dynamic host

A host program with dynamic types hands over its own objects. Its integers have any size, its
floats may be infinite or no number, its dictionaries have keys of many kinds, and an object of a
kind of its own is known by its attributes and by the text it shows. In its texts a surrogate may
stand alone, which is no character.
-/

namespace Verdict.Host

/-! ## Texts -/

/-- A letter of a text: a character, or a surrogate by its number. -/
inductive Letter where
  | char (c : Char)
  | surrogate (number : Fin 2048)
deriving DecidableEq

namespace Letter

/-- The letter is no character. -/
def isSurrogate : Letter → Bool
  | .char _ => false
  | .surrogate _ => true

/-- The characters that stand for a letter where a text must be had. The three bytes of a surrogate
are three faults, and each is replaced. -/
def replaced : Letter → List Char
  | .char c => [c]
  | .surrogate _ => ['\ufffd', '\ufffd', '\ufffd']

end Letter

/-- The letters of a text of characters. -/
def lettersOf (text : String) : List Letter :=
  text.toList.map .char

/-- The text of letters, surrogates replaced. -/
def replacedText (letters : List Letter) : String :=
  String.ofList (letters.flatMap Letter.replaced)

@[simp] theorem replacedText_lettersOf (text : String) : replacedText (lettersOf text) = text := by
  simp [replacedText, lettersOf, List.flatMap_map, Letter.replaced]

/-- A text in which a surrogate stands, so that it is no sequence of characters. -/
structure BrokenText where
  letters : List Letter
  broken : letters.any Letter.isSurrogate = true
deriving DecidableEq

/-! ## Objects -/

/-- A float: a number of the format, an infinity with a sign, or no number. -/
inductive Floating where
  | finite (value : Binary64)
  | infinite (negative : Bool)
  | notNumber
deriving DecidableEq

/-- A key of a dictionary. -/
inductive Key where
  | text (text : String)
  | brokenText (text : BrokenText)
  /-- A key that is no text, by the text it shows. -/
  | other (shown : List Letter)
deriving DecidableEq

/-- The text under which a key is kept. A key that is no text shows one, and so does a text in which
a surrogate stands. -/
def Key.shown : Key → String
  | .text s => s
  | .brokenText broken => replacedText broken.letters
  | .other shown => replacedText shown

/-- An object that the host hands over. -/
inductive Object where
  | nothing
  | bool (value : Bool)
  | int (value : Int)
  | real (value : Floating)
  | text (text : String)
  | brokenText (text : BrokenText)
  | list (items : List Object)
  | tuple (items : List Object)
  /-- A dictionary: its entries in order. -/
  | dict (entries : List (Key × Object))
  /-- An object of another kind: the text it shows and its attributes. -/
  | other (shown : List Letter) (attributes : List (String × Object))

/-- Why an object is refused. -/
inductive Fault where
  /-- A dictionary lacks a key. -/
  | missingKey (key : String)
  /-- An object lacks an attribute. -/
  | missingAttribute (name : String)
  /-- An object is of the wrong type. -/
  | wrongType
  /-- A text holds a surrogate. -/
  | brokenText
  /-- An integer does not fit 64 bits, or is negative where it may not be. -/
  | outOfRange
  /-- What the objects write is refused. -/
  | refused (refusal : Refusal)
deriving DecidableEq

namespace Object

/-- The object is the host's nothing. -/
def isNothing : Object → Bool
  | .nothing => true
  | _ => false

/-- The entry of a dictionary under a text. -/
def entry? (name : String) : List (Key × Object) → Option Object
  | [] => none
  | (.text s, object) :: rest => if s = name then some object else entry? name rest
  | _ :: rest => entry? name rest

/-- What an object holds under a name: an entry of a dictionary or an attribute of any other
object. -/
def field? (name : String) : Object → Option Object
  | .dict entries => entry? name entries
  | .other _ attributes => attributes.lookup name
  | _ => none

/-- What an object holds under a name, where nothing counts as missing. -/
def optionalField? (name : String) (object : Object) : Option Object :=
  (object.field? name).filter fun o => !o.isNothing

/-! ## Values of objects

Every object but a text with a surrogate converts to a value. An integer beyond 64 bits becomes its
digits as a text, a float that is no finite number becomes null, and an object without a counterpart
becomes the text it shows. A key of a dictionary becomes the text it shows; of entries whose keys
show one text the last counts. -/

open Json

/-- The value of an integer. -/
def valueOfInt (n : Int) : Value :=
  match Number.ofInt? n with
  | some number => .number number
  | none => .string (String.ofList (Number.integerText n))

mutual

/-- The value of an object. -/
def toValue : Object → Except Fault Value
  | .nothing => .ok .null
  | .bool b => .ok (.bool b)
  | .int n => .ok (valueOfInt n)
  | .real (.finite x) => .ok (.number (.real x))
  | .real _ => .ok .null
  | .text s => .ok (.string s)
  | .brokenText _ => .error .brokenText
  | .list items => return .array (← toValues items)
  | .tuple items => return .array (← toValues items)
  | .dict entries => return .object (Value.ofEntries (← toEntries entries))
  | .other shown _ => .ok (.string (replacedText shown))

/-- The values of objects in order. -/
def toValues : List Object → Except Fault (List Value)
  | [] => .ok []
  | item :: rest => return (← item.toValue) :: (← toValues rest)

/-- The entries of a dictionary in order, each under the text of its key. -/
def toEntries : List (Key × Object) → Except Fault (List (String × Value))
  | [] => .ok []
  | (key, object) :: rest => return (key.shown, ← object.toValue) :: (← toEntries rest)

end

/-- The record of an object; only dictionaries are records. -/
def toRecord : Object → Except Fault Value
  | .dict entries => (Object.dict entries).toValue
  | _ => .error .wrongType

end Object

/-! ## Trees as objects

A node is written as a dictionary of its four fields, and read from a dictionary or from the
attributes of any other object. Nothing stands for the absent tree. The whole shape is read, each
node before the nodes below it and left before right, before it is checked. -/

open Wire

/-! ### Writing -/

/-- A dictionary of the four fields of a node. -/
def node (kind : String) (left right : Object) (value : String) : Object :=
  .dict [(.text "kind", .text kind), (.text "left", left), (.text "right", right),
    (.text "value", .text value)]

/-- The dictionary of a tree. -/
def Object.ofTree : Tree → Object
  | .leaf clause => node "operand" .nothing .nothing clause
  | .join connective left right =>
    node "operator" (Object.ofTree left) (Object.ofTree right) connective.word

/-- The object of a rule that may have no tree. -/
def Object.ofTree? (tree : Option Tree) : Object :=
  match tree with
  | none => .nothing
  | some tree => .ofTree tree

/-! ### Reading -/

/-- A text that an object must be. -/
def textOf : Object → Except Fault String
  | .text text => .ok text
  | .brokenText _ => .error .brokenText
  | _ => .error .wrongType

/-- The kind of a node: a text that must be there. A dictionary without it lacks a key, any other
object an attribute. -/
def kindOf (object : Object) : Except Fault String :=
  match object.field? "kind", object with
  | some kind, _ => textOf kind
  | none, .dict _ => .error (.missingKey "kind")
  | none, _ => .error (.missingAttribute "kind")

/-- The value of a node: a text, if it is there. -/
def valueOf (object : Object) : Except Fault (Option String) :=
  match object.optionalField? "value" with
  | none => .ok none
  | some value => (textOf value).map some

mutual

/-- The shape of an object; nothing is the absent node. -/
def shapeOf : Object → Except Fault Shape
  | .nothing => .ok .absent
  | .dict entries => do
    let kind ← kindOf (.dict entries)
    let value ← valueOf (.dict entries)
    let left ← shapeOfEntry "left" entries
    let right ← shapeOfEntry "right" entries
    return .node kind left right value
  | .other shown attributes => do
    let kind ← kindOf (.other shown attributes)
    let value ← valueOf (.other shown attributes)
    let left ← shapeOfAttribute "left" attributes
    let right ← shapeOfAttribute "right" attributes
    return .node kind left right value
  | _ => .error (.missingAttribute "kind")

/-- The shape of the entry of a dictionary under a text. -/
def shapeOfEntry (name : String) : List (Key × Object) → Except Fault Shape
  | [] => .ok .absent
  | (.text s, object) :: rest =>
    if s = name then shapeOf object else shapeOfEntry name rest
  | _ :: rest => shapeOfEntry name rest

/-- The shape of an attribute. -/
def shapeOfAttribute (name : String) : List (String × Object) → Except Fault Shape
  | [] => .ok .absent
  | (attributeName, object) :: rest =>
    if attributeName = name then shapeOf object else shapeOfAttribute name rest

end

/-- The tree of an object. -/
def Object.toTree (object : Object) : Except Fault (Option Tree) := do
  match (← shapeOf object).check with
  | .ok tree => return tree
  | .error refusal => .error (.refused refusal)

/-! ## Rules -/

/-- The texts that rules must be: a list or a tuple of texts. -/
def rulesOf : Object → Except Fault (List String)
  | .list items => items.mapM textOf
  | .tuple items => items.mapM textOf
  | _ => .error .wrongType

/-- The tree of a rule, as an object. -/
def parseRule (rule : Object) : Except Fault Object := do
  return .ofTree? (Tree.parse? (← textOf rule))

/-- The tree of several rules, as an object. -/
def combineRules (rules : Object) : Except Fault Object := do
  return .ofTree? (Tree.combine? (← rulesOf rules))

/-- Evaluates a tree against a record. That the record is a dictionary comes first, then the tree
is read, and then the record converts. -/
def evaluateTree (tree : Object) : Object → Except Fault Bool
  | .dict entries => do
    let tree ← tree.toTree
    let record ← (Object.dict entries).toRecord
    match evaluate tree record with
    | .ok verdict => return verdict
    | .error refusal => .error (.refused refusal)
  | _ => .error .wrongType

end Verdict.Host
