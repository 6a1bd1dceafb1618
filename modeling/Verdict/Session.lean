import Verdict.Engine
import Verdict.Host

/-!
# Sessions

A session is a sequence of steps on one engine. Some steps come from a dynamic host and bring host
objects; they act on the same settings and the same cache.
-/

namespace Verdict

namespace Host

/-! ## Settings from host objects -/

/-- Whether the cache is on: a truth value, standard if it is missing. -/
def cacheEnabledOf (object : Object) : Except Fault Bool :=
  match object.optionalField? "cache_enabled" with
  | none => .ok Settings.standard.cacheEnabled
  | some (.bool b) => .ok b
  | some _ => .error .wrongType

/-- The limit of the cache: an integer, as which a truth value counts, standard if it is missing. -/
def cacheCapacityOf (object : Object) : Except Fault Nat :=
  match object.optionalField? "cache_capacity" with
  | none => .ok Settings.standard.cacheCapacity
  | some (.bool b) => .ok (if b then 1 else 0)
  | some (.int n) =>
    if 0 ≤ n ∧ n.toNat < Settings.capacityLimit then .ok n.toNat else .error .outOfRange
  | some _ => .error .wrongType

/-- The settings of an object; nothing stands for the standard ones. -/
def settingsOf : Object → Except Fault Settings
  | .nothing => .ok .standard
  | object => do return ⟨← cacheEnabledOf object, ← cacheCapacityOf object⟩

end Host

namespace Session

/-- A step of a session. -/
inductive Step where
  | configure (settings : Settings)
  | configureText (text : String)
  | check (rule : String) (record : Json.Value)
  | parse (rule : String)
  | setCacheCapacity (capacity : Nat)
  | clearCache
  /-- The host configures the engine. -/
  | hostConfigure (settings : Host.Object)
  /-- The host checks a rule. -/
  | hostCheck (rule record : Host.Object)

/-- What a step answers. -/
inductive Answer where
  | done
  | verdict (verdict : Bool)
  | tree (tree : Option Tree)
  | refused (refusal : Refusal)
  /-- The host's objects are refused, or what they write is. -/
  | hostRefused (fault : Host.Fault)

namespace Answer

/-- The answer of a step that only succeeds or fails. -/
def ofUnit : Except Refusal Unit → Answer
  | .ok _ => .done
  | .error refusal => .refused refusal

/-- The answer of a check. -/
def ofVerdict : Except Refusal Bool → Answer
  | .ok b => .verdict b
  | .error refusal => .refused refusal

/-- The same answer to the host. -/
def toHost : Answer → Answer
  | .refused refusal => .hostRefused (.refused refusal)
  | answer => answer

end Answer

/-- Takes a step. A step of the host whose objects are refused changes nothing. -/
def step (engine : Engine) : Step → Answer × Engine
  | .configure settings =>
    let (result, engine) := engine.configure settings
    (.ofUnit result, engine)
  | .configureText text =>
    let (result, engine) := engine.configureText text
    (.ofUnit result, engine)
  | .check rule record =>
    let (result, engine) := engine.check rule record
    (.ofVerdict result, engine)
  | .parse rule =>
    let (result, engine) := engine.parse rule
    (.tree result, engine)
  | .setCacheCapacity capacity => (.done, engine.setCacheCapacity capacity)
  | .clearCache => (.done, engine.clearCache)
  | .hostConfigure settings =>
    match Host.settingsOf settings with
    | .error fault => (.hostRefused fault, engine)
    | .ok settings =>
      let (result, engine) := engine.configure settings
      ((Answer.ofUnit result).toHost, engine)
  | .hostCheck rule record =>
    match Host.textOf rule, record.toRecord with
    | .ok rule, .ok record =>
      let (result, engine) := engine.check rule record
      ((Answer.ofVerdict result).toHost, engine)
    | .error fault, _ => (.hostRefused fault, engine)
    | _, .error fault => (.hostRefused fault, engine)

/-- Takes steps in order: the answer of each with the engine after it. -/
def run (engine : Engine) : List Step → List (Answer × Engine)
  | [] => []
  | s :: rest => let result := step engine s; result :: run result.2 rest

end Session

end Verdict
