import Mathlib.Data.List.Nodup
import Verdict.Proofs.OutlineValues
import Verdict.Wire

/-!
# The fields of a node

The reader of a node takes the fields in the order in which they come and stops at the first one
that does not fit. Its failures are all alike, so what it makes of a node is told field by field
(`shapeOf_toOption`): each field is read from what the node holds there, under its key in an object
and at its place in an array, and nothing stands for a field that is missing.
-/

namespace Verdict

namespace Wire

open Json

namespace Field

/-- The key that names the field in an object. -/
def key : Field → String
  | .kind => "kind"
  | .left => "left"
  | .right => "right"
  | .value => "value"

/-- The place of the field in an array. -/
def place : Field → Nat
  | .kind => 0
  | .left => 1
  | .right => 2
  | .value => 3

theorem place_lt (field : Field) : field.place < 4 := by
  cases field <;> decide

theorem place_inj (field other : Field) : field.place = other.place ↔ field = other := by
  cases field <;> cases other <;> decide

theorem eq_place_of_at? {place : Nat} {field : Field} (h : at? place = some field) :
    place = field.place := by
  unfold at? at h
  split at h <;> cases h <;> rfl

theorem le_of_at?_eq_none {place : Nat} (h : at? place = none) : 4 ≤ place := by
  match place, h with
  | place + 4, _ => exact Nat.le_add_left 4 place

@[simp] theorem ofKey?_key (field : Field) : ofKey? field.key = some field := by
  cases field <;> decide

theorem eq_key_of_ofKey? {name : String} {field : Field} (h : ofKey? name = some field) :
    name = field.key := by
  unfold ofKey? at h
  split at h
  · next hkind => cases h; exact hkind
  split at h
  · next hleft => cases h; exact hleft
  split at h
  · next hright => cases h; exact hright
  split at h
  · next hvalue => cases h; exact hvalue
  · cases h

end Field

/-! ## Drafts -/

namespace Draft

/-- The node of a draft whose missing fields have these contents, if they can be read. -/
def complete? (draft : Draft) (contents : Field → Content) : Option Shape := do
  let kind ← draft.kind.or (contents .kind).text.toOption
  let left ← draft.left.or (contents .left).node.toOption
  let right ← draft.right.or (contents .right).node.toOption
  let value ← draft.value.or (contents .value).optionalText.toOption
  return .node kind left right value

theorem complete?_empty_eq_some_iff {contents : Field → Content} {shape : Shape} :
    Draft.empty.complete? contents = some shape ↔ ∃ kind left right value,
      (contents .kind).text = .ok kind ∧ (contents .left).node = .ok left ∧
        (contents .right).node = .ok right ∧ (contents .value).optionalText = .ok value ∧
        .node kind left right value = shape := by
  simp [complete?, empty, Option.bind_eq_some_iff, toOption_eq_some_iff]

/-- Only the fields that are missing are looked at. -/
theorem complete?_congr {draft : Draft} {contents others : Field → Content}
    (h : ∀ f, draft.has f = false → contents f = others f) :
    draft.complete? contents = draft.complete? others := by
  obtain ⟨kind, left, right, value⟩ := draft
  have hkind : kind.or (contents .kind).text.toOption = kind.or (others .kind).text.toOption := by
    cases kind with
    | none => rw [h .kind rfl]
    | some _ => rfl
  have hleft : left.or (contents .left).node.toOption = left.or (others .left).node.toOption := by
    cases left with
    | none => rw [h .left rfl]
    | some _ => rfl
  have hright : right.or (contents .right).node.toOption =
      right.or (others .right).node.toOption := by
    cases right with
    | none => rw [h .right rfl]
    | some _ => rfl
  have hvalue : value.or (contents .value).optionalText.toOption =
      value.or (others .value).optionalText.toOption := by
    cases value with
    | none => rw [h .value rfl]
    | some _ => rfl
  simp only [complete?, hkind, hleft, hright, hvalue]

/-- A field that is filled first is read as it would be in its turn. -/
theorem fill_complete? {draft : Draft} {field : Field} (h : draft.has field = false)
    (content : Content) (contents : Field → Content) :
    (draft.fill field content).toOption.bind (fun filled => filled.complete? contents) =
      draft.complete? fun f => if f = field then content else contents f := by
  obtain ⟨text, optionalText, node⟩ := content
  cases field with
  | kind =>
    have hkind : draft.kind = none := by simpa [has] using h
    cases text <;> simp [fill, complete?, hkind, Except.map, Except.toOption]
  | left =>
    have hleft : draft.left = none := by simpa [has] using h
    cases node <;> simp [fill, complete?, hleft, Except.map, Except.toOption]
  | right =>
    have hright : draft.right = none := by simpa [has] using h
    cases node <;> simp [fill, complete?, hright, Except.map, Except.toOption]
  | value =>
    have hvalue : draft.value = none := by simpa [has] using h
    cases optionalText <;> simp [fill, complete?, hvalue, Except.map, Except.toOption]

theorem has_of_fill {draft filled : Draft} {field : Field} {content : Content}
    (h : draft.fill field content = .ok filled) (f : Field) :
    filled.has f = (decide (f = field) || draft.has f) := by
  cases field with
  | kind =>
    obtain ⟨kind, -, rfl⟩ := map_eq_ok_iff.mp h
    cases f <;> rfl
  | left =>
    obtain ⟨left, -, rfl⟩ := map_eq_ok_iff.mp h
    cases f <;> rfl
  | right =>
    obtain ⟨right, -, rfl⟩ := map_eq_ok_iff.mp h
    cases f <;> rfl
  | value =>
    obtain ⟨value, -, rfl⟩ := map_eq_ok_iff.mp h
    cases f <;> rfl

end Draft

/-! ## Values -/

/-- What a value is when read as a field. -/
def contentOf (value : Value) : Content :=
  ⟨textOf value, optionalTextOf value, shapeOf value⟩

theorem Draft.finish_toOption (draft : Draft) :
    draft.finish.toOption = draft.complete? fun _ => contentOf .null := by
  obtain ⟨_ | kind, left, right, value⟩ := draft
  all_goals
    cases left <;> cases right <;> cases value <;> rfl

/-- What a node holds in a field; null where the field is missing. -/
def fieldOf (field : Field) : Value → Value
  | .object members => (members.lookup field.key).getD .null
  | .array items => items.getD field.place .null
  | _ => .null

/-- What stands in a field is nothing, an item or a member. -/
theorem fieldOf_cases (field : Field) (node : Value) :
    fieldOf field node = .null ∨
      (∃ items, node = .array items ∧ fieldOf field node ∈ items) ∨
      ∃ members, node = .object members ∧ (field.key, fieldOf field node) ∈ members := by
  cases node with
  | array items =>
    rw [fieldOf, List.getD_eq_getElem?_getD]
    cases hitem : items[field.place]? with
    | none => exact .inl rfl
    | some item => exact .inr (.inl ⟨items, rfl, List.mem_of_getElem? hitem⟩)
  | object members =>
    rw [fieldOf]
    cases hitem : members.lookup field.key with
    | none => exact .inl rfl
    | some item =>
      obtain ⟨front, back, hmembers, -⟩ := List.lookup_eq_some_iff.mp hitem
      exact .inr (.inr ⟨members, rfl, by simp [hmembers]⟩)
  | _ => exact .inl rfl

/-- The fields that members name, in order. -/
def fieldsOf {α : Type} (members : List (String × α)) : List Field :=
  members.filterMap fun member => Field.ofKey? member.1

/-- A value that can be a node at all: an object that gives no field twice, or an array of at least
one field and at most all. -/
def HasLayout : Value → Prop
  | .object members => (fieldsOf members).Nodup
  | .array items => 1 ≤ items.length ∧ items.length ≤ 4
  | _ => False

instance : DecidablePred HasLayout
  | .object members => inferInstanceAs (Decidable (fieldsOf members).Nodup)
  | .array items => inferInstanceAs (Decidable (1 ≤ items.length ∧ items.length ≤ 4))
  | .null | .bool _ | .number _ | .string _ => inferInstanceAs (Decidable False)

theorem hasLayout_of_nodup {members : List (String × Value)}
    (h : (members.map Prod.fst).Nodup) : HasLayout (.object members) := by
  have hfields : fieldsOf members = (members.map Prod.fst).filterMap Field.ofKey? := by
    rw [List.filterMap_map]
    rfl
  rw [HasLayout, hfields]
  refine h.filterMap fun name other field hname hother => ?_
  rw [Field.eq_key_of_ofKey? hname, Field.eq_key_of_ofKey? hother]

theorem fieldOf_object_cons {field : Field} {name : String}
    (h : Field.ofKey? name = some field) (item : Value) (members : List (String × Value))
    (f : Field) : fieldOf f (.object ((name, item) :: members)) =
      if f = field then item else fieldOf f (.object members) := by
  obtain rfl := Field.eq_key_of_ofKey? h
  by_cases hf : f = field
  · simp [fieldOf, hf]
  · have hkey : (f.key == field.key) = false := by
      revert hf
      cases f <;> cases field <;> decide
    simp [fieldOf, List.lookup_cons, hf, hkey]

theorem fieldOf_object_other {name : String} (h : Field.ofKey? name = none) (item : Value)
    (members : List (String × Value)) (f : Field) :
    fieldOf f (.object ((name, item) :: members)) = fieldOf f (.object members) := by
  have hkey : (f.key == name) = false := by
    rw [beq_eq_false_iff_ne]
    rintro rfl
    rw [Field.ofKey?_key] at h
    cases h
  simp [fieldOf, List.lookup_cons, hkey]

theorem shapeOfMembers_field {name : String} {field : Field} {draft : Draft}
    (hname : Field.ofKey? name = some field) (hhas : draft.has field = false) (item : Value)
    (members : List (String × Value)) :
    (shapeOfMembers draft ((name, item) :: members)).toOption =
      (draft.fill field (contentOf item)).toOption.bind fun filled =>
        (shapeOfMembers filled members).toOption := by
  rw [shapeOfMembers, hname, ← toOption_bind]
  simp only [hhas, Bool.false_eq_true, if_false]
  rfl

/-- The members of an object are read as its fields, if none is given twice. -/
theorem shapeOfMembers_toOption (members : List (String × Value)) (draft : Draft) :
    (shapeOfMembers draft members).toOption =
      if (fieldsOf members).Nodup ∧ ∀ f ∈ fieldsOf members, draft.has f = false then
        draft.complete? fun f => contentOf (fieldOf f (.object members))
      else none := by
  induction members generalizing draft with
  | nil =>
    rw [if_pos ⟨List.nodup_nil, fun f hf => by cases hf⟩, shapeOfMembers, Draft.finish_toOption]
    rfl
  | cons member members ih =>
    obtain ⟨name, item⟩ := member
    cases hname : Field.ofKey? name with
    | none =>
      have hfields : fieldsOf ((name, item) :: members) = fieldsOf members :=
        List.filterMap_cons_none hname
      have hcontents : ∀ f, fieldOf f (.object ((name, item) :: members)) =
          fieldOf f (.object members) := fieldOf_object_other hname item members
      rw [shapeOfMembers, hname, hfields]
      simp only [hcontents]
      exact ih draft
    | some field =>
      have hfields : fieldsOf ((name, item) :: members) = field :: fieldsOf members :=
        List.filterMap_cons_some hname
      have hcontents : (fun f => contentOf (fieldOf f (.object ((name, item) :: members)))) =
          fun f => if f = field then contentOf item
            else contentOf (fieldOf f (.object members)) := by
        funext f
        rw [fieldOf_object_cons hname, apply_ite contentOf]
      rw [hfields, hcontents]
      by_cases hhas : draft.has field = true
      · rw [shapeOfMembers, hname, if_neg (by simp [hhas])]
        simp [hhas, Except.toOption]
      · rw [Bool.not_eq_true] at hhas
        -- a draft that was filled with the field takes the other members as the one before it
        have hrest : ∀ filled, (draft.fill field (contentOf item)).toOption = some filled →
            (shapeOfMembers filled members).toOption =
              if (field :: fieldsOf members).Nodup ∧
                  ∀ f ∈ field :: fieldsOf members, draft.has f = false then
                filled.complete? fun f => contentOf (fieldOf f (.object members))
              else none := by
          intro filled hfilled
          rw [ih filled]
          refine if_congr ?_ rfl rfl
          simp only [Draft.has_of_fill (toOption_eq_some_iff.mp hfilled), List.nodup_cons,
            List.forall_mem_cons, hhas, Bool.or_eq_false_iff, decide_eq_false_iff_not]
          grind
        rw [shapeOfMembers_field hname hhas, Option.bind_congr hrest]
        split
        · exact Draft.fill_complete? hhas _ _
        · exact Option.bind_fun_none _

/-- The items of an array are read as the fields from a place on, if they are not too many. -/
theorem shapeOfItems_toOption (items : List Value) {place : Nat} {draft : Draft}
    (hplace : place ≤ 4) (hdraft : ∀ f : Field, draft.has f = decide (f.place < place)) :
    (shapeOfItems place draft items).toOption =
      if place + items.length ≤ 4 then
        draft.complete? fun f => contentOf (items.getD (f.place - place) .null)
      else none := by
  induction items generalizing place draft with
  | nil =>
    rw [if_pos (by simpa using hplace), shapeOfItems, Draft.finish_toOption]
    rfl
  | cons item items ih =>
    cases hat : Field.at? place with
    | none =>
      have hlarge := Field.le_of_at?_eq_none hat
      rw [shapeOfItems, hat, if_neg (by simp; omega)]
      rfl
    | some field =>
      obtain rfl := Field.eq_place_of_at? hat
      have hhas : draft.has field = false := by simp [hdraft]
      have hlt := field.place_lt
      have hrest : ∀ filled, (draft.fill field (contentOf item)).toOption = some filled →
          (shapeOfItems (field.place + 1) filled items).toOption =
            if field.place + (item :: items).length ≤ 4 then
              filled.complete? fun f => contentOf (items.getD (f.place - (field.place + 1)) .null)
            else none := by
        intro filled hfilled
        rw [ih (by omega), List.length_cons]
        · congr 2
          omega
        · intro f
          rw [Draft.has_of_fill (toOption_eq_some_iff.mp hfilled), hdraft]
          have hinj := Field.place_inj f field
          grind
      rw [shapeOfItems, hat]
      simp only [toOption_bind]
      show ((draft.fill field (contentOf item)).toOption.bind _) = _
      rw [Option.bind_congr hrest]
      split
      · rw [Draft.fill_complete? hhas]
        refine Draft.complete?_congr fun f hf => ?_
        have hge : field.place ≤ f.place := by simpa [hdraft] using hf
        by_cases hfield : f = field
        · simp [hfield]
        · have hgt : f.place - field.place = f.place - (field.place + 1) + 1 := by
            have hne : f.place ≠ field.place := mt (Field.place_inj f field).mp hfield
            omega
          rw [if_neg hfield, hgt, List.getD_cons_succ]
      · exact Option.bind_fun_none _

/-- A value that can be a node is read field by field. -/
theorem shapeOf_toOption {value : Value} (h : HasLayout value) :
    (shapeOf value).toOption =
      Draft.empty.complete? fun f => contentOf (fieldOf f value) := by
  cases value with
  | object members =>
    rw [shapeOf, shapeOfMembers_toOption, if_pos ⟨h, fun f _ => by cases f <;> rfl⟩]
  | array items =>
    rw [shapeOf, shapeOfItems_toOption items (Nat.zero_le 4) fun f => by cases f <;> rfl,
      if_pos (by simpa using h.2)]
    rfl
  | _ => cases h

/-- Any other value but null is no node. -/
theorem shapeOf_of_not_hasLayout {value : Value} (hnull : value ≠ .null) (h : ¬HasLayout value) :
    (shapeOf value).toOption = none := by
  cases value with
  | null => exact absurd rfl hnull
  | object members =>
    rw [shapeOf, shapeOfMembers_toOption, if_neg fun hfields => h hfields.1]
  | array items =>
    rw [shapeOf, shapeOfItems_toOption items (Nat.zero_le 4) fun f => by cases f <;> rfl]
    split
    · next hlength =>
      -- no item is left, and the kind is missing
      have hempty : items = [] := by
        by_contra hne
        exact h ⟨List.length_pos_iff.mpr hne, by simpa using hlength⟩
      rw [hempty]
      rfl
    · rfl
  | _ => rfl

end Wire

end Verdict
