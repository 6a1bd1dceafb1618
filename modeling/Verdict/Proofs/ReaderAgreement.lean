import Verdict.Proofs.RelayedMessages
import Verdict.Proofs.WellShaped

/-!
# The readers of a tree agree

A tree is read from a value, from a text in one pass, and from a value inside other data.

1. On a text that is read as a value and gives no key of an object twice, the reader of texts comes
   to the same shape as the reader of values, or both come to none (`readShape_toOption`). Both
   check the shape in the same way.
2. A value inside other data is read in the same way too, and its refusal is relayed in words.
3. Whatever the text, a shape is checked only if the text is a node to its last character and
   nothing follows (`wellShaped_of_shapeOfText`).
-/

namespace Verdict.Wire

open Json

/-! ## Two readers in step -/

/-- Two readings of a field have the same results. -/
structure Content.Agree (content other : Content) : Prop where
  text : content.text.toOption = other.text.toOption
  optionalText : content.optionalText.toOption = other.optionalText.toOption
  node : content.node.toOption = other.node.toOption

theorem Draft.fill_agree {content other : Content} (h : content.Agree other) (draft : Draft)
    (field : Field) : (draft.fill field content).toOption = (draft.fill field other).toOption := by
  cases field with
  | kind => simp only [fill, toOption_map, h.text]
  | left => simp only [fill, toOption_map, h.node]
  | right => simp only [fill, toOption_map, h.node]
  | value => simp only [fill, toOption_map, h.optionalText]

/-- Items are read in step if each of them is. -/
theorem readShapeItems_toOption {room : Nat} {items : List Outline} {values : List Value}
    (h : List.Forall₂ (fun item value => (contentIn room item).Agree (contentOf value)) items
      values) (place : Nat) (draft : Draft) :
    (readShapeItems room none place draft items).toOption =
      (shapeOfItems place draft values).toOption := by
  induction h generalizing place draft with
  | nil => rfl
  | @cons item value items values hitem hrest ih =>
    rw [readShapeItems, shapeOfItems]
    cases Field.at? place with
    | none => rfl
    | some field =>
      simp only [toOption_bind, ih]
      exact congrArg (Option.bind · _) (draft.fill_agree hitem field)

theorem readShapeMembers_other {room : Nat} {ending : Option Break} {draft : Draft} {key : String}
    {item : Outline} (hkey : Field.ofKey? key = none) (hskip : item.skip = .ok ())
    (members : List (Except Fault String × Outline)) :
    readShapeMembers room ending draft ((.ok key, item) :: members) =
      readShapeMembers room ending draft members := by
  simp [readShapeMembers, bind, Except.bind, hkey, hskip]

theorem readShapeMembers_field {room : Nat} {ending : Option Break} {draft : Draft} {key : String}
    {field : Field} (hkey : Field.ofKey? key = some field) (item : Outline)
    (members : List (Except Fault String × Outline)) :
    readShapeMembers room ending draft ((.ok key, item) :: members) =
      if draft.has field then .error .mismatch
      else draft.fill field (contentIn room item) >>= fun filled =>
        readShapeMembers room ending filled members := by
  simp [readShapeMembers, bind, Except.bind, hkey, contentIn]

/-- Members are read in step if each of them is, and those that are no fields can be passed over. -/
theorem readShapeMembers_toOption {room : Nat} {members : List (Except Fault String × Outline)}
    {entries : List (String × Value)}
    (h : List.Forall₂ (fun member entry => member.1 = .ok entry.1 ∧ member.2.skip = .ok () ∧
      (contentIn room member.2).Agree (contentOf entry.2)) members entries) (draft : Draft) :
    (readShapeMembers room none draft members).toOption =
      (shapeOfMembers draft entries).toOption := by
  induction h generalizing draft with
  | nil => rfl
  | @cons member entry members entries hmember hrest ih =>
    obtain ⟨key, item⟩ := member
    obtain ⟨rfl, hskip, hagree⟩ := hmember
    cases hfield : Field.ofKey? entry.1 with
    | none =>
      rw [readShapeMembers_other hfield hskip, shapeOfMembers, hfield]
      exact ih draft
    | some field =>
      rw [readShapeMembers_field hfield, shapeOfMembers, hfield]
      by_cases hhas : draft.has field = true
      · simp only [if_pos hhas]
      · simp only [if_neg hhas, toOption_bind, ih]
        exact congrArg (Option.bind · _) (draft.fill_agree hagree field)

/-- An outline and its value are the same text, or none. -/
theorem contentIn_agree {room : Nat} {item : Outline} {value : Value}
    (h : item.value room = .ok value)
    (hnode : (readShape room item).toOption = (shapeOf value).toOption) :
    (contentIn room item).Agree (contentOf value) := by
  cases item with
  | null =>
    cases h
    exact ⟨rfl, rfl, hnode⟩
  | bool b =>
    cases h
    exact ⟨rfl, rfl, hnode⟩
  | number numeral =>
    obtain ⟨n, -, rfl⟩ := map_eq_ok_iff.mp h
    exact ⟨mistyped_toOption (.number numeral), mistyped_toOption (.number numeral), hnode⟩
  | string text =>
    obtain ⟨s, rfl, rfl⟩ := map_eq_ok_iff.mp h
    exact ⟨rfl, rfl, hnode⟩
  | array items ending =>
    obtain ⟨-, values, -, -, rfl, -⟩ := Outline.array_value_eq_ok h
    exact ⟨rfl, rfl, hnode⟩
  | object members ending =>
    obtain ⟨-, entries, -, -, rfl, -⟩ := Outline.object_value_eq_ok h
    exact ⟨rfl, rfl, hnode⟩
  | broken reason => cases h

/-- An outline that is read as a value is read as a node as the value is. -/
theorem readShape_toOption {room : Nat} {outline : Outline} {value : Value}
    (hkeys : outline.KeysOnce) (h : outline.value room = .ok value) :
    (readShape room outline).toOption = (shapeOf value).toOption := by
  induction room using Nat.strongRecOn generalizing outline value with
  | _ room ih =>
    cases hkeys with
    | array hitems =>
      obtain ⟨below, values, rfl, rfl, rfl, hvalues⟩ := Outline.array_value_eq_ok h
      rw [readShape, shapeOf]
      refine readShapeItems_toOption (related_imp_of_mem hvalues ?_) 0 .empty
      intro item hitem v hv
      exact contentIn_agree hv (ih below below.lt_succ_self (hitems item hitem) hv)
    | object hnodup hmembers =>
      obtain ⟨below, entries, rfl, rfl, rfl, hentries⟩ := Outline.object_value_eq_ok h
      rw [readShape, Value.ofEntries_eq (Outline.nodup_entries hentries hnodup), shapeOf]
      refine readShapeMembers_toOption (related_imp_of_mem hentries ?_) .empty
      rintro member hmember entry ⟨hkey, hv⟩
      exact ⟨hkey, Outline.skip_of_value hv,
        contentIn_agree hv (ih below below.lt_succ_self (hmembers member hmember) hv)⟩
    | null =>
      cases h
      rfl
    | bool b =>
      cases h
      rfl
    | number numeral =>
      obtain ⟨n, -, rfl⟩ := map_eq_ok_iff.mp h
      exact mistyped_toOption (.number numeral)
    | string text =>
      obtain ⟨s, rfl, rfl⟩ := map_eq_ok_iff.mp h
      rfl
    | broken reason => cases h

/-! ## Answers -/

/-- The same tree or the same refusal; only what cannot be read may be faulted differently. -/
def AnswersAgree (answer other : Except Refusal (Option Tree)) : Prop :=
  answer = other ∨
    (∃ fault, answer = .error (.unreadable fault)) ∧ ∃ fault, other = .error (.unreadable fault)

theorem checked_agree {shape other : Except Fault Shape} (h : shape.toOption = other.toOption) :
    AnswersAgree (checked shape) (checked other) := by
  cases shape with
  | ok shape =>
    have hother : other = .ok shape := toOption_eq_some_iff.mp h.symm
    exact .inl (congrArg checked hother.symm)
  | error fault =>
    cases other with
    | ok other => cases h
    | error otherFault => exact .inr ⟨⟨fault, rfl⟩, ⟨otherFault, rfl⟩⟩

theorem ofText_agree {text : String} {value : Value} (h : Value.ofString text = .ok value)
    (hkeys : (Document.ofString text).root.KeysOnce) :
    AnswersAgree (ofText text) (ofValue value) := by
  obtain ⟨read, hread, hfinish⟩ := bind_eq_ok_iff.mp h
  obtain ⟨htrailing, rfl⟩ := finish_eq_ok_iff.mp hfinish
  refine checked_agree ?_
  calc (shapeOfText text).toOption
      = (readShape nestingLimit (Document.ofString text).root).toOption := by
        rw [shapeOfText, toOption_bind]
        simp [Document.finish, htrailing, Except.toOption]
    _ = (shapeOf read).toOption := readShape_toOption hkeys hread

/-- A text that is read as a value in which no key stands twice gives the answer that the value
gives. A value inside other data is a tree exactly if the value alone is that tree, and the refusal
of a node comes in words, as messages are relayed. A text that does not have the shape of a node to
its last character is refused as a text. -/
theorem readers_agree :
    (∀ text value, Value.ofString text = .ok value → (Document.ofString text).root.KeysOnce →
      AnswersAgree (ofText text) (ofValue value)) ∧
    (∀ value tree, embedded value = .ok tree ↔ ofValue value = .ok (some tree)) ∧
    (∀ value refusal, ofValue value = .error refusal → (∀ fault, refusal ≠ .unreadable fault) →
      ∃ shown, embedded value = .error ⟨.mismatch, some shown⟩ ∧
        ∀ other, Relayed refusal.message other ↔ other = shown) ∧
    ∀ text, ¬((Document.ofString text).trailing = false ∧
        WellShaped nestingLimit (Document.ofString text).root) →
      ∃ fault, ofText text = .error (.unreadable fault) := by
  refine ⟨fun text value => ofText_agree, fun value tree => ?_, fun value refusal h hread => ?_,
    fun text hnot => ?_⟩
  · rw [embedded, ofValue]
    cases shapeOf value with
    | error fault => simp [checked]
    | ok shape =>
      simp only [checked]
      rcases shape.check with refusal | _ | other <;> simp
  · rw [ofValue] at h
    rw [embedded]
    cases hshape : shapeOf value with
    | error fault =>
      rw [hshape] at h
      cases h
      exact absurd rfl (hread fault)
    | ok shape =>
      rw [hshape, checked] at h
      refine ⟨relayed refusal.message, by simp only [h], fun other => ?_⟩
      rw [← relayed_eq_iff]
      exact eq_comm
  · cases hshape : shapeOfText text with
    | error fault => exact ⟨fault, by rw [ofText, hshape, checked]⟩
    | ok shape => exact absurd (wellShaped_of_shapeOfText hshape) hnot

/-- A node of another kind, its key spelled with an escape and with a member that does not matter.
Cut off before its last character it is not looked at as a node. A kind that ends in a position
loses the zeros in front of its numbers on the way. -/
theorem readers_agree_escaped :
    AnswersAgree (ofText "\x7b\"\\u006bind\": \"x\", \"n\": []\x7d")
        (ofValue (.object [("kind", .string "x"), ("n", .array [])])) ∧
      embedded (.object [("kind", .string "x"), ("n", .array [])]) =
        .error ⟨.mismatch, some "Invalid node: unknown node kind: x"⟩ ∧
      embedded (.object [("kind", .string "x at line 07 column 0")]) =
        .error ⟨.mismatch, some "Invalid node: unknown node kind: x at line 7 column 0"⟩ ∧
      ∃ fault, ofText "\x7b\"\\u006bind\": \"x\", \"n\": []" = .error (.unreadable fault) := by
  have hwhole : Document.ofString "\x7b\"\\u006bind\": \"x\", \"n\": []\x7d" =
      ⟨.object [(.ok "kind", .string (.ok "x")), (.ok "n", .array [] none)] none, false⟩ := by
    have hchars : "\x7b\"\\u006bind\": \"x\", \"n\": []\x7d".toList =
        ['\x7b', '"', '\\', 'u', '0', '0', '6', 'b', 'i', 'n', 'd', '"', ':', ' ', '"', 'x', '"',
          ',', ' ', '"', 'n', '"', ':', ' ', '[', ']', '\x7d'] := by decide +kernel
    rw [Document.ofString, hchars]
    rfl
  have hcut : Document.ofString "\x7b\"\\u006bind\": \"x\", \"n\": []" =
      ⟨.object [(.ok "kind", .string (.ok "x")), (.ok "n", .array [] none)]
        (some (.both .truncated)), false⟩ := by
    have hchars : "\x7b\"\\u006bind\": \"x\", \"n\": []".toList =
        ['\x7b', '"', '\\', 'u', '0', '0', '6', 'b', 'i', 'n', 'd', '"', ':', ' ', '"', 'x', '"',
          ',', ' ', '"', 'n', '"', ':', ' ', '[', ']'] := by decide +kernel
    rw [Document.ofString, hchars]
    rfl
  obtain ⟨htext, -, hrefusal, hshape⟩ := readers_agree
  refine ⟨htext _ _ ?_ ?_, ?_, ?_, hshape _ ?_⟩
  · rw [Value.ofString, hwhole]
    rfl
  · rw [hwhole]
    refine .object (by decide) ?_
    simp only [List.forall_mem_cons]
    exact ⟨.string _, .array (by simp), by simp⟩
  · obtain ⟨shown, hembedded, hshown⟩ := hrefusal
      (.object [("kind", .string "x"), ("n", .array [])]) (.invalidNode (.unknownKind "x")) rfl
      (fun fault h => by cases h)
    rw [hembedded, ← (hshown _).mp (relayed_eq_iff.mp rfl)]
    decide +kernel
  · obtain ⟨shown, hembedded, hshown⟩ := hrefusal
      (.object [("kind", .string "x at line 07 column 0")])
      (.invalidNode (.unknownKind "x at line 07 column 0")) rfl (fun fault h => by cases h)
    rw [hembedded, ← (hshown _).mp (relayed_eq_iff.mp rfl)]
    decide +kernel
  · rw [hcut]
    rintro ⟨-, hwell⟩
    cases hwell

/-- A refusal that ends in a position does not come in its own words. -/
theorem embedded_cuts_position :
    ¬∀ value refusal, ofValue value = .error refusal →
      (∀ fault, refusal ≠ .unreadable fault) →
        embedded value = .error ⟨.mismatch, some refusal.message⟩ := by
  intro h
  have hcut : embedded (.object [("kind", .string "x at line 0 column 0")]) ≠
      .error ⟨.mismatch, some "Invalid node: unknown node kind: x at line 0 column 0"⟩ := by
    decide +kernel
  exact hcut (h _ (.invalidNode (.unknownKind "x at line 0 column 0")) rfl
    (fun fault h => by cases h))

end Verdict.Wire
