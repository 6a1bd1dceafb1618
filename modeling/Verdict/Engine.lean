import Verdict.Wire

/-!
# The engine

The engine parses and checks rules, with a cache of parsed rules behind it and settings for the
cache that can be changed at any time.
-/

namespace Verdict

/-! ## The cache of parsed rules

A cache keeps the tree of each rule text it was asked for, also of texts without a tree. It is
emptied when a new rule comes in and the limit is reached; a lower limit takes effect only then. -/

/-- Parsed rules by their text, latest first, and the number of them at which the cache is full. -/
structure Cache where
  entries : List (String × Option Tree)
  capacity : Nat

namespace Cache

/-- A cache that holds nothing. -/
def withCapacity (capacity : Nat) : Cache :=
  ⟨[], capacity⟩

/-- The number of rules held. -/
def size (cache : Cache) : Nat :=
  cache.entries.length

/-- The entry of a rule: the tree it was parsed to, if it has one. -/
def get? (cache : Cache) (rule : String) : Option (Option Tree) :=
  cache.entries.lookup rule

/-- The rule is held. -/
def contains (cache : Cache) (rule : String) : Bool :=
  (cache.get? rule).isSome

/-- Keeps the entries and changes the limit. -/
def setCapacity (cache : Cache) (capacity : Nat) : Cache :=
  ⟨cache.entries, capacity⟩

/-- Forgets the entries and keeps the limit. -/
def clear (cache : Cache) : Cache :=
  ⟨[], cache.capacity⟩

/-- Takes in a rule that is not held; a full cache is emptied first. -/
def insert (cache : Cache) (rule : String) (tree : Option Tree) : Cache :=
  let kept := if cache.capacity ≤ cache.size then [] else cache.entries
  ⟨(rule, tree) :: kept, cache.capacity⟩

/-- The tree of a rule, taken from the cache or parsed and taken in. -/
def getOrParse (cache : Cache) (rule : String) : Option Tree × Cache :=
  match cache.get? rule with
  | some tree => (tree, cache)
  | none =>
    let tree := Tree.parse? rule
    (tree, cache.insert rule tree)

end Cache

/-! ## Settings

Settings only tune the cache of parsed rules; no verdict depends on them. They are read from a JSON
object, whose other members do not matter, or from an array of the two fields in order. -/

open Json

/-- Whether parsed rules are kept, and how many. -/
structure Settings where
  cacheEnabled : Bool
  cacheCapacity : Nat
deriving DecidableEq

namespace Settings

/-- The cache is on and keeps 2048 rules. -/
def standard : Settings :=
  ⟨true, 2048⟩

/-- Refuses a cache that holds nothing. -/
def validate (settings : Settings) : Except Refusal Unit :=
  if settings.cacheCapacity = 0 then .error .zeroCapacity else .ok ()

/-- The numbers of entries that fit 64 bits. -/
def capacityLimit : Nat :=
  Nat.pow 2 64

/-! ### Reading -/

/-- An outline that must be a truth value. -/
def readBool : Outline → Except Fault Bool
  | .bool b => .ok b
  | other => Wire.mistyped other

/-- An outline that must be a capacity: a whole number of at most 64 bits that is not negative. -/
def readCapacity : Outline → Except Fault Nat
  | .number numeral => do
    match ← Outline.readNumber numeral with
    | .integer n _ _ => if n < 0 then .error .mismatch else .ok n.toNat
    | .real _ => .error .mismatch
  | other => Wire.mistyped other

/-- The settings that have been read. -/
structure Draft where
  cacheEnabled : Option Bool
  cacheCapacity : Option Nat

/-- The fields of the settings, in the order in which a list writes them. -/
inductive Field where
  | cacheEnabled
  | cacheCapacity
deriving DecidableEq

/-- The field at a place of a list. -/
def Field.at? : Nat → Option Field
  | 0 => some .cacheEnabled
  | 1 => some .cacheCapacity
  | _ => none

/-- The field that a key names. -/
def Field.ofKey? (key : String) : Option Field :=
  if key = "cache_enabled" then some .cacheEnabled
  else if key = "cache_capacity" then some .cacheCapacity
  else none

namespace Draft

/-- No field has been read. -/
def empty : Draft :=
  ⟨none, none⟩

/-- The field has been read. -/
def has (draft : Draft) : Field → Bool
  | .cacheEnabled => draft.cacheEnabled.isSome
  | .cacheCapacity => draft.cacheCapacity.isSome

/-- Takes a field. -/
def fill (draft : Draft) (field : Field) (item : Outline) : Except Fault Draft :=
  match field with
  | .cacheEnabled => (readBool item).map fun enabled => ⟨some enabled, draft.cacheCapacity⟩
  | .cacheCapacity => (readCapacity item).map fun capacity => ⟨draft.cacheEnabled, some capacity⟩

/-- The settings with the standard ones where no field was read. -/
def finish (draft : Draft) : Settings :=
  ⟨draft.cacheEnabled.getD standard.cacheEnabled, draft.cacheCapacity.getD standard.cacheCapacity⟩

end Draft

/-- The rest of the fields in order. -/
def readItems (ending : Option Break) (place : Nat) (draft : Draft) :
    List Outline → Except Fault Settings
  | [] => (Outline.close ending).map fun _ => draft.finish
  | item :: rest =>
    match Field.at? place with
    | none => .error .malformed
    | some field => do readItems ending (place + 1) (← draft.fill field item) rest

/-- The rest of the fields by key. -/
def readMembers (ending : Option Break) (draft : Draft) :
    List (Except Fault String × Outline) → Except Fault Settings
  | [] => (Outline.close ending).map fun _ => draft.finish
  | (key, item) :: rest => do
    match Field.ofKey? (← key) with
    | none =>
      item.skip
      readMembers ending draft rest
    | some field =>
      if draft.has field then .error .mismatch
      else readMembers ending (← draft.fill field item) rest

/-- An outline that must be settings. -/
def read : Outline → Except Fault Settings
  | .array items ending => readItems ending 0 .empty items
  | .object members ending => readMembers ending .empty members
  | other => Wire.mistyped other

/-- The settings that a text writes. -/
def ofText (text : String) : Except Refusal Settings :=
  let document := Document.ofString text
  match read document.root >>= document.finish with
  | .error fault => .error (.unreadable fault)
  | .ok settings => settings.validate.map fun _ => settings

end Settings

/-! ## Steps of the engine

The limit of the cache can also be set apart from the settings. -/

/-- The settings in force and the cache. -/
structure Engine where
  settings : Settings
  cache : Cache

namespace Engine

/-- The standard settings and an empty cache. -/
def initial : Engine :=
  ⟨.standard, .withCapacity Settings.standard.cacheCapacity⟩

/-- Puts valid settings in force: the cache takes their limit, and forgets its rules if it is
switched off. Invalid settings change nothing. -/
def configure (engine : Engine) (settings : Settings) : Except Refusal Unit × Engine :=
  match settings.validate with
  | .error refusal => (.error refusal, engine)
  | .ok _ =>
    let cache := engine.cache.setCapacity settings.cacheCapacity
    (.ok (), ⟨settings, if settings.cacheEnabled then cache else cache.clear⟩)

/-- Puts the settings of a JSON text in force. -/
def configureText (engine : Engine) (text : String) : Except Refusal Unit × Engine :=
  match Settings.ofText text with
  | .error refusal => (.error refusal, engine)
  | .ok settings => engine.configure settings

/-- The tree of a rule. The cache is used unless it is switched off. -/
def parse (engine : Engine) (rule : String) : Option Tree × Engine :=
  if engine.settings.cacheEnabled then
    let (tree, cache) := engine.cache.getOrParse rule
    (tree, ⟨engine.settings, cache⟩)
  else (Tree.parse? rule, engine)

/-- The verdict of a rule on a record. A blank rule is false and leaves the cache alone. -/
def check (engine : Engine) (rule : String) (record : Json.Value) :
    Except Refusal Bool × Engine :=
  if Text.isBlankText rule then (.ok false, engine)
  else
    let (tree, engine) := engine.parse rule
    (evaluate tree record, engine)

/-- Changes the limit of the cache and not the settings. -/
def setCacheCapacity (engine : Engine) (capacity : Nat) : Engine :=
  ⟨engine.settings, engine.cache.setCapacity capacity⟩

/-- Forgets all parsed rules. -/
def clearCache (engine : Engine) : Engine :=
  ⟨engine.settings, engine.cache.clear⟩

end Engine

end Verdict
