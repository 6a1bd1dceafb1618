import Verdict.Host
import Verdict.Proofs.NodeFaults

/-!
# The two readers of trees that came from outside

A value is also a plain object of the host (`Object.ofValue`), and the same tree can be read from
either. The readers go through a node in different orders, but each reads all nodes before it
checks any. The one of objects stops at the first kind or value, in the order of the nodes, that
cannot be read (`firstFault?`), and if there is none both readers have reached one shape
(`readAlike_of_keysOnce`). So they find the same trees and refuse the same nodes in the same words,
and what is unreadable to one is so to the other, however wrong the nodes before the fault are
(`toTree_ofValue`). Arrays are nodes for the reader of values only. That no key is given twice is
true of every value that was read from a text (`Json.Value.keysOnce_ofString`).
-/

namespace Verdict

open Json

/-! ## Values without a key twice -/

theorem Json.Value.KeysOnce.fieldOf {value : Value} (h : value.KeysOnce) (field : Wire.Field) :
    (Wire.fieldOf field value).KeysOnce := by
  rcases Wire.fieldOf_cases field value with hnull | ⟨items, rfl, hitem⟩ | ⟨members, rfl, hmember⟩
  · rw [hnull]
    exact .null
  · cases h with
    | array values => exact values _ hitem
  · cases h with
    | object keys values => exact values _ hmember

namespace Host

open Wire

/-! ## Values as objects -/

mutual

/-- The plain object of the host that a value is. -/
def Object.ofValue : Value → Object
  | .null => .nothing
  | .bool b => .bool b
  | .number (.integer n _ _) => .int n
  | .number (.real x) => .real (.finite x)
  | .string s => .text s
  | .array items => .list (Object.ofValues items)
  | .object members => .dict (Object.ofMembers members)

/-- The objects of values in order. -/
def Object.ofValues : List Value → List Object
  | [] => []
  | item :: rest => Object.ofValue item :: Object.ofValues rest

/-- The entries of a dictionary, each under the text of its key. -/
def Object.ofMembers : List (String × Value) → List (Key × Object)
  | [] => []
  | (key, item) :: rest => (.text key, Object.ofValue item) :: Object.ofMembers rest

end

theorem field?_ofMembers (name : String) (members : List (String × Value)) :
    (Object.dict (Object.ofMembers members)).field? name =
      (members.lookup name).map Object.ofValue := by
  show Object.entry? name (Object.ofMembers members) = _
  induction members with
  | nil => rfl
  | cons member members ih =>
    obtain ⟨key, item⟩ := member
    rw [Object.ofMembers, Object.entry?, Value.lookup_cons_eq]
    by_cases hkey : name = key
    · rw [if_pos hkey, if_pos hkey.symm]
      rfl
    · rw [if_neg hkey, if_neg (Ne.symm hkey)]
      exact ih

theorem shapeOfEntry_eq (name : String) (entries : List (Key × Object)) :
    shapeOfEntry name entries =
      shapeOf (((Object.dict entries).field? name).getD .nothing) := by
  show _ = shapeOf ((Object.entry? name entries).getD .nothing)
  induction entries with
  | nil => rfl
  | cons entry entries ih =>
    obtain ⟨key, object⟩ := entry
    cases key with
    | text s =>
      rw [shapeOfEntry, Object.entry?]
      split
      · rfl
      · exact ih
    | _ => exact ih

theorem shapeOfEntry_ofMembers (field : Field) (members : List (String × Value)) :
    shapeOfEntry field.key (Object.ofMembers members) =
      shapeOf (Object.ofValue (fieldOf field (.object members))) := by
  rw [shapeOfEntry_eq, field?_ofMembers, fieldOf]
  cases members.lookup field.key <;> rfl

/-! ## The first fault -/

/-- Why the kind of a node cannot be read, if it cannot: it is missing, or it is no text. What is no
object has no fields at all. -/
def kindFault? : Value → Option Fault
  | .object members =>
    match members.lookup "kind" with
    | none => some (.missingKey "kind")
    | some (.string _) => none
    | some _ => some .wrongType
  | _ => some (.missingAttribute "kind")

/-- Why the value of a node cannot be read, if it cannot: it is there, but no text. -/
def valueFault? (node : Value) : Option Fault :=
  match fieldOf .value node with
  | .null | .string _ => none
  | _ => some .wrongType

/-- The first fault of a field in the order of reading: the kind of a node, its value, what stands
below it on the left, and what stands below it on the right. -/
def firstFault? (value : Value) : Option Fault :=
  (nodes value).findSome? fun node => (kindFault? node).or (valueFault? node)

theorem firstFault?_null : firstFault? .null = none := by
  rw [firstFault?, nodes_of_isNull rfl]
  rfl

theorem firstFault?_of_node {node : Value} (h : ¬isNull node = true) :
    firstFault? node = ((kindFault? node).or (valueFault? node)).or
      ((firstFault? (fieldOf .left node)).or (firstFault? (fieldOf .right node))) := by
  rw [firstFault?, nodes, dif_neg h, List.findSome?_cons, List.findSome?_append]
  cases (kindFault? node).or (valueFault? node) <;> rfl

/-- A node that is read, other than an array, has no fault itself. -/
theorem fault?_eq_none_of_nodeShaped {node : Value} (h : NodeShaped node)
    (harray : ∀ items, node ≠ .array items) : (kindFault? node).or (valueFault? node) = none := by
  obtain ⟨layout, hkind, htext⟩ := h
  have hvalue : valueFault? node = none := by
    unfold valueFault?
    rcases htext with htext | ⟨text, htext⟩
    all_goals rw [htext]
  rw [hvalue, Option.or_none]
  cases node with
  | array items => exact absurd rfl (harray items)
  | object members =>
    rw [fieldOf] at hkind
    cases hmember : members.lookup "kind" with
    | none =>
      rw [Field.key, hmember] at hkind
      cases hkind
    | some item =>
      rw [Field.key, hmember] at hkind
      obtain rfl : item = .string _ := hkind
      rw [kindFault?, hmember]
  | _ => cases layout

theorem firstFault?_of_shapeOf {value : Value} {shape : Shape} (h : Wire.shapeOf value = .ok shape)
    (hnodes : ∀ node ∈ nodes value, ∀ items, node ≠ .array items) : firstFault? value = none := by
  by_cases hnull : value = .null
  · rw [hnull, firstFault?_null]
  · refine List.findSome?_eq_none_iff.mpr fun node hnode => ?_
    exact fault?_eq_none_of_nodeShaped
      (nodeShaped_of_mem_nodes (nodeShaped_of_shapeOf hnull h) hnode) (hnodes node hnode)

/-! ## Readings -/

/-- A reading that stops at a fault if there is one, and otherwise reaches a result of which this
holds. -/
def Reads {α : Type} (fault? : Option Fault) (reached : α → Prop)
    (reading : Except Fault α) : Prop :=
  match fault? with
  | some fault => reading = .error fault
  | none => ∃ a, reading = .ok a ∧ reached a

/-- What is read next only matters if the reading has not stopped before. -/
theorem Reads.bind {α β : Type} {fault? next? : Option Fault} {reached : α → Prop}
    {reachedNext : β → Prop} {reading : Except Fault α} {next : α → Except Fault β}
    (h : Reads fault? reached reading) (hnext : ∀ a, reached a → Reads next? reachedNext (next a)) :
    Reads (fault?.or next?) reachedNext (reading >>= next) := by
  cases fault? with
  | some fault =>
    obtain rfl : reading = .error fault := h
    rfl
  | none =>
    obtain ⟨a, rfl, ha⟩ := h
    exact hnext a ha

/-- A result that is reached is reached through a function as well. -/
theorem Reads.map {α β : Type} {fault? : Option Fault} {reached : α → Prop}
    {reachedNext : β → Prop} {reading : Except Fault α} {f : α → β}
    (h : Reads fault? reached reading) (hf : ∀ a, reached a → reachedNext (f a)) :
    Reads fault? reachedNext (do return f (← reading)) := by
  have hlast : ∀ a, reached a → Reads none reachedNext (pure (f a)) :=
    fun a ha => ⟨f a, rfl, hf a ha⟩
  have hbind := h.bind hlast
  rwa [Option.or_none] at hbind

/-- The kind of the dictionary of an object. -/
theorem reads_kindOf (members : List (String × Value)) :
    Reads (kindFault? (.object members))
      (fun kind => fieldOf .kind (.object members) = .string kind)
      (kindOf (.dict (Object.ofMembers members))) := by
  unfold kindOf
  rw [field?_ofMembers, kindFault?, fieldOf, Field.key]
  cases hkind : members.lookup "kind" with
  | none => rfl
  | some item =>
    cases item with
    | string kind => exact ⟨kind, rfl, rfl⟩
    | number n => cases n <;> rfl
    | _ => rfl

/-- The value of the dictionary of an object. -/
theorem reads_valueOf (members : List (String × Value)) :
    Reads (valueFault? (.object members))
      (fun value => optionalTextOf (fieldOf .value (.object members)) = .ok value)
      (valueOf (.dict (Object.ofMembers members))) := by
  rw [valueOf, Object.optionalField?, field?_ofMembers, valueFault?, fieldOf, Field.key]
  cases hvalue : members.lookup "value" with
  | none => exact ⟨none, rfl, rfl⟩
  | some item =>
    cases item with
    | null => exact ⟨none, rfl, rfl⟩
    | string text => exact ⟨some text, rfl, rfl⟩
    | number n => cases n <;> rfl
    | _ => rfl

/-- The reader of objects stops at the first fault of a value; without a fault it reaches the shape
that the reader of values reaches. -/
def ReadAlike (value : Value) : Prop :=
  Reads (firstFault? value) (fun shape => Wire.shapeOf value = .ok shape)
    (shapeOf (Object.ofValue value))

theorem readAlike_object {members : List (String × Value)} (hkeys : (members.map Prod.fst).Nodup)
    (hleft : ReadAlike (fieldOf .left (.object members)))
    (hright : ReadAlike (fieldOf .right (.object members))) : ReadAlike (.object members) := by
  have hentryLeft : shapeOfEntry "left" _ = _ := shapeOfEntry_ofMembers .left members
  have hentryRight : shapeOfEntry "right" _ = _ := shapeOfEntry_ofMembers .right members
  rw [ReadAlike, firstFault?_of_node (by simp [isNull]), Object.ofValue, shapeOf, hentryLeft,
    hentryRight, Option.or_assoc]
  refine (reads_kindOf members).bind fun kind hkind => ?_
  refine (reads_valueOf members).bind fun value hvalue => ?_
  refine Reads.bind hleft fun left hl => ?_
  refine Reads.map hright fun right hr => ?_
  exact (shapeOf_eq_ok_iff (by simp)).mpr
    ⟨hasLayout_of_nodup hkeys, kind, left, right, value, ⟨hkind, hl, hr, hvalue⟩, rfl⟩

/-- What is neither null nor an object has no kind to be read. -/
theorem readAlike_of_missing {value : Value} (hnull : ¬isNull value = true)
    (hkind : kindFault? value = some (.missingAttribute "kind"))
    (hshape : shapeOf (Object.ofValue value) = .error (.missingAttribute "kind")) :
    ReadAlike value := by
  rw [ReadAlike, firstFault?_of_node hnull, hkind]
  exact hshape

theorem readAlike_of_keysOnce {value : Value} (hkeys : value.KeysOnce) : ReadAlike value := by
  by_cases hnull : isNull value = true
  · obtain rfl := isNull_iff.mp hnull
    rw [ReadAlike, firstFault?_null]
    exact ⟨.absent, by rw [Object.ofValue, shapeOf], by rw [Wire.shapeOf]⟩
  have hleft := readAlike_of_keysOnce (hkeys.fieldOf .left)
  have hright := readAlike_of_keysOnce (hkeys.fieldOf .right)
  cases hkeys with
  | null => exact absurd rfl hnull
  | object keys values => exact readAlike_object keys hleft hright
  | number n => exact readAlike_of_missing hnull rfl (by cases n <;> rfl)
  | _ => exact readAlike_of_missing hnull rfl rfl
termination_by sizeOf value
decreasing_by all_goals exact sizeOf_fieldOf_lt hnull _

/-! ## What becomes of a value -/

/-- A refusal of a node that could be read. -/
inductive OfNode : Refusal → Prop
  | invalidNode (defect : Defect) : OfNode (.invalidNode defect)
  | unknownOperator (word : String) : OfNode (.unknownOperator word)

/-- A fault of an object that could not be read: a field is missing or of the wrong type. -/
inductive OfReading : Fault → Prop
  | missingKey (key : String) : OfReading (.missingKey key)
  | missingAttribute (name : String) : OfReading (.missingAttribute name)
  | wrongType : OfReading .wrongType

theorem ofReading_of_firstFault? {value : Value} {fault : Fault}
    (h : firstFault? value = some fault) : OfReading fault := by
  obtain ⟨node, -, hnode⟩ := List.exists_of_findSome?_eq_some h
  rcases Option.or_eq_some_iff.mp hnode with hkind | ⟨-, hvalue⟩
  · unfold kindFault? at hkind
    split at hkind
    · split at hkind <;> cases hkind
      · exact .missingKey "kind"
      · exact .wrongType
    · cases hkind
      exact .missingAttribute "kind"
  · unfold valueFault? at hvalue
    split at hvalue <;> cases hvalue
    exact .wrongType

theorem ofNode_of_check {value : Value} {shape : Shape} {refusal : Refusal}
    (h : Wire.shapeOf value = .ok shape) (hcheck : shape.check = .error refusal) :
    OfNode refusal := by
  have hjudges := judges_check h
  unfold Judges at hjudges
  split at hjudges
  · obtain ⟨tree, hok, -⟩ := hjudges
    rw [hok] at hcheck
    cases hcheck
  · obtain ⟨other, herror, hreports⟩ := hjudges
    rw [herror] at hcheck
    cases hcheck
    cases hreports with
    | unknownOperator => exact .unknownOperator _
    | _ => exact .invalidNode _

theorem toTree_of_shapeOf {object : Object} {shape : Shape} (h : shapeOf object = .ok shape) :
    object.toTree = shape.check.mapError .refused := by
  rw [Object.toTree, h]
  simp only [bind, Except.bind]
  cases shape.check <;> rfl

/-- What becomes of a value and of its object: both cannot be read, both are refused for the same
node, or both are the same tree. -/
inductive Outcome (value : Value) : Prop
  | unreadable (fault : Fault) (wireFault : Json.Fault) (first : firstFault? value = some fault)
    (host : (Object.ofValue value).toTree = .error fault)
    (wire : Wire.ofValue value = .error (.unreadable wireFault))
  | refused (refusal : Refusal) (ofNode : OfNode refusal) (first : firstFault? value = none)
    (host : (Object.ofValue value).toTree = .error (.refused refusal))
    (wire : Wire.ofValue value = .error refusal)
  | accepted (tree : Option Tree) (first : firstFault? value = none)
    (host : (Object.ofValue value).toTree = .ok tree) (wire : Wire.ofValue value = .ok tree)

theorem outcome_of_keysOnce {value : Value} (hkeys : value.KeysOnce)
    (hnodes : ∀ node ∈ nodes value, ∀ items, node ≠ .array items) : Outcome value := by
  have hread := readAlike_of_keysOnce hkeys
  unfold ReadAlike Reads at hread
  cases hfirst : firstFault? value with
  | some fault =>
    rw [hfirst] at hread
    have hhost : (Object.ofValue value).toTree = .error fault := by
      rw [Object.toTree, hread]
      rfl
    cases hshape : Wire.shapeOf value with
    | ok shape =>
      rw [firstFault?_of_shapeOf hshape hnodes] at hfirst
      cases hfirst
    | error wireFault =>
      exact .unreadable fault wireFault hfirst hhost (by rw [Wire.ofValue, hshape, checked])
  | none =>
    rw [hfirst] at hread
    obtain ⟨shape, hobject, hshape⟩ := hread
    have hhost := toTree_of_shapeOf hobject
    have hwire : Wire.ofValue value = shape.check := by rw [Wire.ofValue, hshape, checked]
    cases hcheck : shape.check with
    | error refusal =>
      rw [hcheck] at hhost hwire
      exact .refused refusal (ofNode_of_check hshape hcheck) hfirst hhost hwire
    | ok tree =>
      rw [hcheck] at hhost hwire
      exact .accepted tree hfirst hhost hwire

/-- A value in which no array stands for a node and its object are read as the same trees. The
object is refused exactly for the node for which the value is refused. It cannot be read exactly if
the value cannot, and then for the first fault in the order of reading, whatever else is wrong. -/
theorem toTree_ofValue {value : Value} (hkeys : value.KeysOnce)
    (hnodes : ∀ node ∈ nodes value, ∀ items, node ≠ .array items) :
    (∀ tree, (Object.ofValue value).toTree = .ok tree ↔ Wire.ofValue value = .ok tree) ∧
      (∀ refusal, (Object.ofValue value).toTree = .error (.refused refusal) ↔
        Wire.ofValue value = .error refusal ∧ OfNode refusal) ∧
      ((∃ fault, OfReading fault ∧ (Object.ofValue value).toTree = .error fault) ↔
        ∃ fault, Wire.ofValue value = .error (.unreadable fault)) ∧
      ∀ fault, OfReading fault ∧ (Object.ofValue value).toTree = .error fault ↔
        firstFault? value = some fault := by
  cases outcome_of_keysOnce hkeys hnodes with
  | unreadable fault wireFault first host wire =>
    have hreading := ofReading_of_firstFault? first
    rw [host, wire, first]
    refine ⟨fun tree => iff_of_false nofun nofun, fun refusal => iff_of_false ?_ ?_,
      iff_of_true ⟨fault, hreading, rfl⟩ ⟨wireFault, rfl⟩, fun other => ⟨?_, ?_⟩⟩
    · rintro ⟨⟩
      cases hreading
    · rintro ⟨⟨⟩, hnode⟩
      cases hnode
    · rintro ⟨-, ⟨⟩⟩
      rfl
    · rintro ⟨⟩
      exact ⟨hreading, rfl⟩
  | refused refusal hnode first host wire =>
    rw [host, wire, first]
    refine ⟨fun tree => iff_of_false nofun nofun, fun other => ⟨?_, ?_⟩, iff_of_false ?_ ?_,
      fun fault => iff_of_false ?_ nofun⟩
    · rintro ⟨⟩
      exact ⟨rfl, hnode⟩
    · rintro ⟨⟨⟩, -⟩
      rfl
    · rintro ⟨_, hreading, ⟨⟩⟩
      cases hreading
    · rintro ⟨_, ⟨⟩⟩
      cases hnode
    · rintro ⟨hreading, ⟨⟩⟩
      cases hreading
  | accepted tree first host wire =>
    rw [host, wire, first]
    refine ⟨fun other => by simp, fun refusal => iff_of_false nofun ?_, iff_of_false ?_ nofun,
      fun fault => iff_of_false ?_ nofun⟩
    · rintro ⟨⟨⟩, -⟩
    · rintro ⟨_, -, ⟨⟩⟩
    · rintro ⟨-, ⟨⟩⟩

/-- An operator that names no connective, with a node without a kind on the left and no node on the
right. -/
def orphanedXor : Value :=
  .object [("kind", .string "operator"), ("value", .string "XOR"),
    ("left", .object [("value", .string "a=1")]), ("right", .bool true)]

/-- The word of the operator and what stands on its right do not matter before the missing kind. -/
theorem toTree_ofValue_orphanedXor :
    (Object.ofValue orphanedXor).toTree = .error (.missingKey "kind") ∧
      ∃ fault, Wire.ofValue orphanedXor = .error (.unreadable fault) := by
  have hkeys : orphanedXor.KeysOnce := by
    refine .object (by decide) ?_
    simp only [List.forall_mem_cons]
    exact ⟨.string _, .string _, .object (by decide) (by simpa using .string _), .bool _, nofun⟩
  have hnodes : nodes orphanedXor =
      [orphanedXor, .object [("value", .string "a=1")], .bool true] := by
    simp [nodes, orphanedXor, isNull, fieldOf, Field.key, List.lookup_cons]
  have hfirst : firstFault? orphanedXor = some (.missingKey "kind") := by
    rw [firstFault?, hnodes]
    rfl
  obtain ⟨-, -, hunreadable, hfault⟩ := toTree_ofValue hkeys (by
    rw [hnodes]
    simp [orphanedXor])
  have hhost := (hfault (.missingKey "kind")).mpr hfirst
  exact ⟨hhost.2, hunreadable.mp ⟨_, hhost⟩⟩

/-- An array is a node for the reader of values only. -/
example :
    Wire.ofValue (.array [.string "operand", .null, .null, .string "a=1"]) =
        .ok (some (.leaf "a=1")) ∧
      (Object.ofValue (.array [.string "operand", .null, .null, .string "a=1"])).toTree =
        .error (.missingAttribute "kind") :=
  ⟨by decide +kernel, rfl⟩

end Host

end Verdict
