import Verdict.Proofs.NodeFaults

/-!
# Outlines that are nodes to the last character

The reader of texts passes over what it does not want, but not past what is not closed. An outline
that it reads as a node is one all through (`WellShaped`): every field that is given has its form
and is given once, and everything else is spelled to its end. A whole text must end with the node
(`wellShaped_of_shapeOfText`).
-/

namespace Verdict.Wire

open Json

/-- The fields that the members of an outline name, in order. -/
def fieldsIn (members : List (Except Fault String × Outline)) : List Field :=
  members.filterMap fun member => member.1.toOption.bind Field.ofKey?

theorem fieldsIn_cons_other {key : String} (hkey : Field.ofKey? key = none) (item : Outline)
    (members : List (Except Fault String × Outline)) :
    fieldsIn ((.ok key, item) :: members) = fieldsIn members :=
  List.filterMap_cons_none hkey

theorem fieldsIn_cons_field {key : String} {field : Field} (hkey : Field.ofKey? key = some field)
    (item : Outline) (members : List (Except Fault String × Outline)) :
    fieldsIn ((.ok key, item) :: members) = field :: fieldsIn members :=
  List.filterMap_cons_some hkey

/-- The outline of a node, or of nothing, to its last character, with at most `room` levels of
nodes: each field that is given has its form and is given once, the kind is given, and everything
else is spelled to its end. -/
inductive WellShaped : Nat → Outline → Prop
  | null {room : Nat} : WellShaped room .null
  | array {room : Nat} {items : List Outline} (length : items.length ≤ 4)
    (kind : ∃ kind, items[0]? = some (.string (.ok kind)))
    (left : ∀ item, items[1]? = some item → WellShaped room item)
    (right : ∀ item, items[2]? = some item → WellShaped room item)
    (value : ∀ item, items[3]? = some item → item = .null ∨ ∃ text, item = .string (.ok text)) :
    WellShaped (room + 1) (.array items none)
  | object {room : Nat} {members : List (Except Fault String × Outline)}
    (keys : ∀ member ∈ members, ∃ key, member.1 = .ok key)
    (once : (fieldsIn members).Nodup)
    (kind : ∃ kind, (.ok "kind", .string (.ok kind)) ∈ members)
    (left : ∀ item, (.ok "left", item) ∈ members → WellShaped room item)
    (right : ∀ item, (.ok "right", item) ∈ members → WellShaped room item)
    (value : ∀ item, (.ok "value", item) ∈ members →
      item = .null ∨ ∃ text, item = .string (.ok text))
    (others : ∀ key item, (.ok key, item) ∈ members → Field.ofKey? key = none → item.Whole) :
    WellShaped (room + 1) (.object members none)

/-! ## Fields that were read -/

/-- What an outline is when read as a field. -/
def contentIn (room : Nat) (outline : Outline) : Content :=
  ⟨readText outline, readOptionalText outline, readShape room outline⟩

/-- The content can be read as the field. -/
def Content.Reads (content : Content) : Field → Prop
  | .kind => ∃ text, content.text = .ok text
  | .left => ∃ shape, content.node = .ok shape
  | .right => ∃ shape, content.node = .ok shape
  | .value => ∃ text, content.optionalText = .ok text

theorem Draft.reads_of_fill {draft filled : Draft} {field : Field} {content : Content}
    (h : draft.fill field content = .ok filled) : content.Reads field := by
  cases field with
  | kind => exact (map_eq_ok_iff.mp h).imp fun _ h => h.1
  | left => exact (map_eq_ok_iff.mp h).imp fun _ h => h.1
  | right => exact (map_eq_ok_iff.mp h).imp fun _ h => h.1
  | value => exact (map_eq_ok_iff.mp h).imp fun _ h => h.1

theorem Draft.has_kind_of_finish {draft : Draft} {shape : Shape} (h : draft.finish = .ok shape) :
    draft.has .kind = true := by
  obtain ⟨_ | kind, _⟩ := draft
  · cases h
  · rfl

theorem mistyped_toOption {α : Type} (outline : Outline) :
    (mistyped outline : Except Fault α).toOption = none := by
  cases outline with
  | number numeral =>
    rw [mistyped]
    cases Outline.readNumber numeral <;> rfl
  | string text =>
    rw [mistyped]
    cases text <;> rfl
  | _ => rfl

theorem mistyped_ne_ok {α : Type} (outline : Outline) (a : α) : mistyped outline ≠ .ok a := by
  intro h
  have hnone := mistyped_toOption (α := α) outline
  rw [h] at hnone
  cases hnone

theorem eq_string_of_readText {item : Outline} {text : String} (h : readText item = .ok text) :
    item = .string (.ok text) := by
  unfold readText at h
  split at h
  · rw [h]
  · exact absurd h (mistyped_ne_ok _ _)

theorem eq_of_readOptionalText {item : Outline} {value : Option String}
    (h : readOptionalText item = .ok value) :
    item = .null ∨ ∃ text, item = .string (.ok text) := by
  unfold readOptionalText at h
  split at h
  · exact .inl rfl
  · obtain ⟨text, rfl, -⟩ := map_eq_ok_iff.mp h
    exact .inr ⟨text, rfl⟩
  · exact absurd h (mistyped_ne_ok _ _)

/-- The items of an array that is read are its fields, and the array ends. -/
theorem items_read {room : Nat} {ending : Option Break} {place : Nat} {draft : Draft}
    {items : List Outline} {shape : Shape}
    (h : readShapeItems room ending place draft items = .ok shape) :
    ending = none ∧ (draft.has .kind = true ∨ items ≠ []) ∧
      ∀ i item, items[i]? = some item →
        ∃ field, Field.at? (place + i) = some field ∧ (contentIn room item).Reads field := by
  induction items generalizing place draft with
  | nil =>
    rw [readShapeItems] at h
    obtain ⟨u, hclose, hfinish⟩ := bind_eq_ok_iff.mp h
    refine ⟨Outline.close_eq_ok hclose, .inl (Draft.has_kind_of_finish hfinish), ?_⟩
    intro i item hitem
    cases hitem
  | cons first items ih =>
    rw [readShapeItems] at h
    cases hat : Field.at? place with
    | none =>
      rw [hat] at h
      cases h
    | some field =>
      rw [hat] at h
      obtain ⟨filled, hfill, hrest⟩ := bind_eq_ok_iff.mp h
      obtain ⟨hending, -, hitems⟩ := ih hrest
      refine ⟨hending, .inr (List.cons_ne_nil _ _), fun i item hitem => ?_⟩
      cases i with
      | zero =>
        cases hitem
        exact ⟨field, hat, Draft.reads_of_fill hfill⟩
      | succ i =>
        obtain ⟨field, hfield, hreads⟩ := hitems i item hitem
        exact ⟨field, by rwa [Nat.add_right_comm] at hfield, hreads⟩

/-- The members take a draft to another: a member that is no field can be passed over, and one that
is a field is new to the draft and fills it. -/
inductive Fills (room : Nat) : Draft → List (Except Fault String × Outline) → Draft → Prop
  | nil (draft : Draft) : Fills room draft [] draft
  | other {key : String} {item : Outline} {draft last : Draft}
    {members : List (Except Fault String × Outline)} (hkey : Field.ofKey? key = none)
    (skip : item.skip = .ok ()) (rest : Fills room draft members last) :
    Fills room draft ((.ok key, item) :: members) last
  | field {key : String} {item : Outline} {field : Field} {draft filled last : Draft}
    {members : List (Except Fault String × Outline)} (hkey : Field.ofKey? key = some field)
    (new : draft.has field = false) (fill : draft.fill field (contentIn room item) = .ok filled)
    (rest : Fills room filled members last) : Fills room draft ((.ok key, item) :: members) last

/-- The members of an object that is read fill a draft up to a shape, and the object ends. -/
theorem fills_of_readShapeMembers {room : Nat} {ending : Option Break} {draft : Draft}
    {members : List (Except Fault String × Outline)} {shape : Shape}
    (h : readShapeMembers room ending draft members = .ok shape) :
    ending = none ∧ ∃ last, Fills room draft members last ∧ last.finish = .ok shape := by
  induction members generalizing draft with
  | nil =>
    rw [readShapeMembers] at h
    obtain ⟨u, hclose, hfinish⟩ := bind_eq_ok_iff.mp h
    exact ⟨Outline.close_eq_ok hclose, draft, .nil draft, hfinish⟩
  | cons member members ih =>
    obtain ⟨key, item⟩ := member
    rw [readShapeMembers] at h
    obtain ⟨key, rfl, hread⟩ := bind_eq_ok_iff.mp h
    cases hkey : Field.ofKey? key with
    | none =>
      simp only [hkey] at hread
      obtain ⟨u, hskip, hrest⟩ := bind_eq_ok_iff.mp hread
      obtain ⟨hending, last, hfills, hfinish⟩ := ih hrest
      exact ⟨hending, last, .other hkey hskip hfills, hfinish⟩
    | some field =>
      simp only [hkey] at hread
      split at hread
      · cases hread
      · next hnew =>
        obtain ⟨filled, hfill, hrest⟩ := bind_eq_ok_iff.mp hread
        obtain ⟨hending, last, hfills, hfinish⟩ := ih hrest
        exact ⟨hending, last, .field hkey (Bool.eq_false_iff.mpr hnew) hfill hfills, hfinish⟩

namespace Fills

variable {room : Nat} {draft last : Draft} {members : List (Except Fault String × Outline)}

theorem once (h : Fills room draft members last) :
    (fieldsIn members).Nodup ∧ ∀ field ∈ fieldsIn members, draft.has field = false := by
  induction h with
  | nil draft => exact ⟨List.nodup_nil, List.forall_mem_nil _⟩
  | other hkey skip rest ih => rwa [fieldsIn_cons_other hkey]
  | field hkey new fill rest ih =>
    obtain ⟨hnodup, hnew⟩ := ih
    simp only [Draft.has_of_fill fill, Bool.or_eq_false_iff, decide_eq_false_iff_not] at hnew
    rw [fieldsIn_cons_field hkey]
    exact ⟨List.nodup_cons.mpr ⟨fun hmem => (hnew _ hmem).1 rfl, hnodup⟩,
      List.forall_mem_cons.mpr ⟨new, fun f hf => (hnew f hf).2⟩⟩

theorem given (h : Fills room draft members last) {field : Field} (hlast : last.has field = true) :
    draft.has field = true ∨ field ∈ fieldsIn members := by
  induction h with
  | nil draft => exact .inl hlast
  | other hkey skip rest ih =>
    rw [fieldsIn_cons_other hkey]
    exact ih hlast
  | field hkey new fill rest ih =>
    have hfilled := ih hlast
    rw [Draft.has_of_fill fill, Bool.or_eq_true, decide_eq_true_eq] at hfilled
    rw [fieldsIn_cons_field hkey]
    rcases hfilled with (rfl | hdraft) | hmem
    · exact .inr List.mem_cons_self
    · exact .inl hdraft
    · exact .inr (List.mem_cons_of_mem _ hmem)

theorem read (h : Fills room draft members last) : ∀ member ∈ members, ∃ key,
    member.1 = .ok key ∧ (Field.ofKey? key = none → member.2.skip = .ok ()) ∧
      ∀ field, Field.ofKey? key = some field → (contentIn room member.2).Reads field := by
  induction h with
  | nil draft => exact List.forall_mem_nil _
  | other hkey skip rest ih =>
    refine List.forall_mem_cons.mpr ⟨⟨_, rfl, fun _ => skip, fun f hf => ?_⟩, ih⟩
    rw [hkey] at hf
    cases hf
  | field hkey new fill rest ih =>
    refine List.forall_mem_cons.mpr ⟨⟨_, rfl, fun hnone => ?_, fun f hf => ?_⟩, ih⟩
    · rw [hkey] at hnone
      cases hnone
    · rw [hkey] at hf
      cases hf
      exact Draft.reads_of_fill fill

end Fills

/-- The items of an array that is read as a node are its fields in order. -/
theorem wellShaped_of_items {room : Nat} {items : List Outline} {ending : Option Break}
    {shape : Shape}
    (hnode : ∀ item, (∃ shape, readShape room item = .ok shape) → WellShaped room item)
    (h : readShapeItems room ending 0 .empty items = .ok shape) :
    WellShaped (room + 1) (.array items ending) := by
  obtain ⟨rfl, hnonempty, hitems⟩ := items_read h
  have hread : ∀ (field : Field) (item : Outline), items[field.place]? = some item →
      (contentIn room item).Reads field := by
    intro field item hitem
    obtain ⟨other, hother, hreads⟩ := hitems field.place item hitem
    have hplace := Field.eq_place_of_at? hother
    rw [Nat.zero_add, Field.place_inj] at hplace
    exact hplace ▸ hreads
  refine .array ?_ ?_ ?_ ?_ ?_
  · by_contra hlength
    obtain ⟨field, hfield, -⟩ := hitems 4 _ (List.getElem?_eq_getElem (Nat.lt_of_not_le hlength))
    cases hfield
  · obtain ⟨first, hfirst⟩ : ∃ first, items[0]? = some first := by
      rcases hnonempty with hkind | hnonempty
      · cases hkind
      · exact ⟨_, List.getElem?_eq_getElem (List.length_pos_iff.mpr hnonempty)⟩
    obtain ⟨kind, hkind⟩ := hread .kind first hfirst
    exact ⟨kind, eq_string_of_readText hkind ▸ hfirst⟩
  · exact fun item hitem => hnode item (hread .left item hitem)
  · exact fun item hitem => hnode item (hread .right item hitem)
  · intro item hitem
    obtain ⟨value, hvalue⟩ := hread .value item hitem
    exact eq_of_readOptionalText hvalue

/-- The members of an object that is read as a node are its fields, or do not matter. -/
theorem wellShaped_of_members {room : Nat} {members : List (Except Fault String × Outline)}
    {ending : Option Break} {shape : Shape}
    (hnode : ∀ item, (∃ shape, readShape room item = .ok shape) → WellShaped room item)
    (h : readShapeMembers room ending .empty members = .ok shape) :
    WellShaped (room + 1) (.object members ending) := by
  obtain ⟨rfl, last, hfills, hfinish⟩ := fills_of_readShapeMembers h
  have hmembers := hfills.read
  have hread : ∀ (field : Field) (item : Outline), (.ok field.key, item) ∈ members →
      (contentIn room item).Reads field := by
    intro field item hitem
    obtain ⟨key, hkey, -, hreads⟩ := hmembers _ hitem
    cases hkey
    exact hreads field (Field.ofKey?_key field)
  refine .object ?_ hfills.once.1 ?_ ?_ ?_ ?_ ?_
  · intro member hmember
    obtain ⟨key, hkey, -⟩ := hmembers member hmember
    exact ⟨key, hkey⟩
  · obtain ⟨⟨key, item⟩, hmember, hfield⟩ : ∃ member ∈ members,
        member.1.toOption.bind Field.ofKey? = some .kind := by
      rcases hfills.given (Draft.has_kind_of_finish hfinish) with hkind | hkind
      · cases hkind
      · exact List.mem_filterMap.mp hkind
    obtain ⟨key, rfl, -⟩ := hmembers _ hmember
    obtain rfl := Field.eq_key_of_ofKey? hfield
    obtain ⟨kind, hkind⟩ := hread .kind item hmember
    exact ⟨kind, eq_string_of_readText hkind ▸ hmember⟩
  · exact fun item hitem => hnode item (hread .left item hitem)
  · exact fun item hitem => hnode item (hread .right item hitem)
  · intro item hitem
    obtain ⟨value, hvalue⟩ := hread .value item hitem
    exact eq_of_readOptionalText hvalue
  · intro key item hitem hnone
    obtain ⟨name, hname, hskip, -⟩ := hmembers _ hitem
    cases hname
    exact Outline.whole_of_skip (hskip hnone)

/-- What is read as a node has the shape of one to its last character. -/
theorem wellShaped_of_readShape {room : Nat} {outline : Outline} {shape : Shape}
    (h : readShape room outline = .ok shape) : WellShaped room outline := by
  induction room generalizing outline shape with
  | zero =>
    unfold readShape at h
    split at h
    · exact .null
    · cases h
    · cases h
    · exact absurd h (mistyped_ne_ok _ _)
  | succ room ih =>
    unfold readShape at h
    split at h
    · exact .null
    · exact wellShaped_of_items (fun _ hitem => hitem.elim fun _ => ih) h
    · exact wellShaped_of_members (fun _ hitem => hitem.elim fun _ => ih) h
    · exact absurd h (mistyped_ne_ok _ _)

/-! ## Whole texts -/

theorem finish_eq_ok_iff {α : Type} {document : Document} {a b : α} :
    document.finish a = .ok b ↔ document.trailing = false ∧ a = b := by
  unfold Document.finish
  cases document.trailing <;> simp

/-- A text whose shape was read ends where the node ends. -/
theorem wellShaped_of_shapeOfText {text : String} {shape : Shape}
    (h : shapeOfText text = .ok shape) :
    (Document.ofString text).trailing = false ∧
      WellShaped nestingLimit (Document.ofString text).root := by
  obtain ⟨read, hread, hfinish⟩ := bind_eq_ok_iff.mp h
  exact ⟨(finish_eq_ok_iff.mp hfinish).1, wellShaped_of_readShape hread⟩

end Verdict.Wire
