import Mathlib.Data.List.Forall2
import Mathlib.Data.List.Induction
import Mathlib.Data.List.Nodup
import Verdict.Json.Value

/-!
# Outlines that are read as values

An outline that is read as a value is closed everywhere, and its parts are read as the parts of the
value (`values_eq_ok`, `entries_eq_ok`). If no object in it gives a key twice, the members of the
value are the entries as they come (`ofEntries_eq`), and in any case the value gives each key once
(`keysOnce_of_value`), from the last entry with that key (`lookup_ofEntries`). What is read can also
be passed over (`skip_of_value`), and what is passed over is spelled to its end (`whole_of_skip`).
-/

namespace Verdict

/-! ## Results that may be errors

A result that was reached is taken apart into the results on the way to it. Two readers that stop at
different faults are compared by what they have reached, with the faults forgotten. -/

section Results

variable {ε α β : Type}

theorem bind_eq_ok_iff {x : Except ε α} {next : α → Except ε β} {b : β} :
    x >>= next = .ok b ↔ ∃ a, x = .ok a ∧ next a = .ok b := by
  cases x <;> simp [bind, Except.bind]

theorem map_eq_ok_iff {x : Except ε α} {f : α → β} {b : β} :
    x.map f = .ok b ↔ ∃ a, x = .ok a ∧ f a = b := by
  cases x <;> simp [Except.map]

theorem toOption_eq_some_iff {x : Except ε α} {a : α} : x.toOption = some a ↔ x = .ok a := by
  cases x <;> simp [Except.toOption]

theorem toOption_bind (x : Except ε α) (next : α → Except ε β) :
    (x >>= next).toOption = x.toOption.bind fun a => (next a).toOption := by
  cases x <;> rfl

theorem toOption_map (x : Except ε α) (f : α → β) : (x.map f).toOption = x.toOption.map f := by
  cases x <;> rfl

end Results

/-! ## Lists in step -/

theorem exists_related {α β : Type} {R : α → β → Prop} {xs : List α} {ys : List β}
    (h : List.Forall₂ R xs ys) {x : α} (hx : x ∈ xs) : ∃ y, R x y := by
  induction h with
  | nil => cases hx
  | cons hxy hrest ih =>
    rcases List.mem_cons.mp hx with rfl | hx
    · exact ⟨_, hxy⟩
    · exact ih hx

theorem related_imp_of_mem {α β : Type} {R S : α → β → Prop} {xs : List α} {ys : List β}
    (h : List.Forall₂ R xs ys) (himp : ∀ x ∈ xs, ∀ y, R x y → S x y) : List.Forall₂ S xs ys := by
  induction h with
  | nil => exact .nil
  | cons hxy hrest ih =>
    rw [List.forall_mem_cons] at himp
    exact .cons (himp.1 _ hxy) (ih himp.2)

namespace Json

/-! ## Objects whose keys stand once -/

namespace Value

theorem insert_of_not_mem {key : String} {members : List (String × Value)}
    (h : key ∉ members.map Prod.fst) (value : Value) :
    insert key value members = members ++ [(key, value)] := by
  induction members with
  | nil => rfl
  | cons member members ih =>
    rw [List.map_cons, List.mem_cons, not_or] at h
    rw [insert, if_neg (Ne.symm h.1), ih h.2, List.cons_append]

/-- Entries with different keys are the members of their object. -/
theorem ofEntries_eq {entries : List (String × Value)} (h : (entries.map Prod.fst).Nodup) :
    ofEntries entries = entries := by
  induction entries using List.reverseRecOn with
  | nil => rfl
  | append_singleton entries last ih =>
    rw [List.map_append, List.map_singleton, List.nodup_append] at h
    have hlast : last.1 ∉ entries.map Prod.fst := fun hmem =>
      h.2.2 last.1 hmem last.1 (List.mem_singleton_self _) rfl
    rw [ofEntries, List.foldl_append]
    show insert last.1 last.2 (ofEntries entries) = entries ++ [last]
    rw [ih h.1, insert_of_not_mem hlast]

theorem keys_insert_of_mem {key : String} {members : List (String × Value)}
    (h : key ∈ members.map Prod.fst) (value : Value) :
    (insert key value members).map Prod.fst = members.map Prod.fst := by
  induction members with
  | nil => cases h
  | cons member members ih =>
    rw [insert]
    split
    · next hkey => rw [List.map_cons, List.map_cons, hkey]
    · next hkey =>
      have hrest : key ∈ members.map Prod.fst :=
        (List.mem_cons.mp h).resolve_left (Ne.symm hkey)
      rw [List.map_cons, List.map_cons, ih hrest]

theorem mem_of_mem_insert {key : String} {value : Value} {members : List (String × Value)}
    {member : String × Value} (h : member ∈ insert key value members) :
    member = (key, value) ∨ member ∈ members := by
  induction members with
  | nil => exact .inl (List.mem_singleton.mp h)
  | cons first members ih =>
    rw [insert] at h
    split at h
    · exact (List.mem_cons.mp h).imp_right (List.mem_cons_of_mem _)
    · rcases List.mem_cons.mp h with rfl | h
      · exact .inr List.mem_cons_self
      · exact (ih h).imp_right (List.mem_cons_of_mem _)

theorem nodup_ofEntries (entries : List (String × Value)) :
    ((ofEntries entries).map Prod.fst).Nodup := by
  induction entries using List.reverseRecOn with
  | nil => exact List.nodup_nil
  | append_singleton entries last ih =>
    rw [ofEntries, List.foldl_append]
    show ((insert last.1 last.2 (ofEntries entries)).map Prod.fst).Nodup
    by_cases hlast : last.1 ∈ (ofEntries entries).map Prod.fst
    · rwa [keys_insert_of_mem hlast]
    · rw [insert_of_not_mem hlast, List.map_append, List.map_singleton, ← List.concat_eq_append]
      exact ih.concat hlast

theorem mem_of_mem_ofEntries {entries : List (String × Value)} {member : String × Value}
    (h : member ∈ ofEntries entries) : member ∈ entries := by
  induction entries using List.reverseRecOn with
  | nil => cases h
  | append_singleton entries last ih =>
    rw [ofEntries, List.foldl_append] at h
    rw [List.mem_append, List.mem_singleton]
    exact (mem_of_mem_insert h).symm.imp_left ih

theorem lookup_cons_eq (name : String) (member : String × Value)
    (members : List (String × Value)) : (member :: members).lookup name =
      if name = member.1 then some member.2 else members.lookup name := by
  by_cases h : name = member.1
  · rw [if_pos h, h, List.lookup_cons_self]
  · rw [if_neg h, List.lookup_cons, beq_eq_false_iff_ne.mpr h]

/-- No object in the value gives a key twice. -/
inductive KeysOnce : Value → Prop
  | null : KeysOnce .null
  | bool (b : Bool) : KeysOnce (.bool b)
  | number (number : Number) : KeysOnce (.number number)
  | string (text : String) : KeysOnce (.string text)
  | array {items : List Value} (values : ∀ item ∈ items, KeysOnce item) : KeysOnce (.array items)
  | object {members : List (String × Value)} (keys : (members.map Prod.fst).Nodup)
    (values : ∀ member ∈ members, KeysOnce member.2) : KeysOnce (.object members)

end Value

namespace Outline

/-- No object in the outline gives a key twice. -/
inductive KeysOnce : Outline → Prop
  | null : KeysOnce .null
  | bool (b : Bool) : KeysOnce (.bool b)
  | number (numeral : Numeral) : KeysOnce (.number numeral)
  | string (text : Except Fault String) : KeysOnce (.string text)
  | array {items : List Outline} {ending : Option Break} (values : ∀ item ∈ items, KeysOnce item) :
    KeysOnce (.array items ending)
  | object {members : List (Except Fault String × Outline)} {ending : Option Break}
    (keys : (members.map Prod.fst).Nodup) (values : ∀ member ∈ members, KeysOnce member.2) :
    KeysOnce (.object members ending)
  | broken (reason : Break) : KeysOnce (.broken reason)

/-- The outline is spelled to its end: nothing in it breaks off. -/
inductive Whole : Outline → Prop
  | null : Whole .null
  | bool (b : Bool) : Whole (.bool b)
  | number (numeral : Numeral) : Whole (.number numeral)
  | string (text : Except Fault String) : Whole (.string text)
  | array {items : List Outline} (values : ∀ item ∈ items, Whole item) : Whole (.array items none)
  | object {members : List (Except Fault String × Outline)}
    (values : ∀ member ∈ members, Whole member.2) : Whole (.object members none)

theorem close_eq_ok {ending : Option Break} {u : Unit} (h : close ending = .ok u) :
    ending = none := by
  cases ending with
  | none => rfl
  | some reason => cases h

/-! ## Parts that are read -/

/-- The items of an array are read one by one. -/
theorem values_eq_ok {room : Nat} {ending : Option Break} {items : List Outline}
    {values : List Value} (h : Outline.values room ending items = .ok values) :
    ending = none ∧ List.Forall₂ (fun item value => item.value room = .ok value) items values := by
  induction items generalizing values with
  | nil =>
    obtain ⟨u, hclose, hnil⟩ := map_eq_ok_iff.mp h
    obtain rfl : [] = values := hnil
    exact ⟨close_eq_ok hclose, .nil⟩
  | cons item items ih =>
    rw [Outline.values] at h
    obtain ⟨v, hitem, h⟩ := bind_eq_ok_iff.mp h
    obtain ⟨vs, hitems, h⟩ := bind_eq_ok_iff.mp h
    cases h
    exact ⟨(ih hitems).1, .cons hitem (ih hitems).2⟩

/-- The members of an object are read one by one. -/
theorem entries_eq_ok {room : Nat} {ending : Option Break}
    {members : List (Except Fault String × Outline)} {entries : List (String × Value)}
    (h : Outline.entries room ending members = .ok entries) :
    ending = none ∧ List.Forall₂ (fun member entry =>
      member.1 = .ok entry.1 ∧ member.2.value room = .ok entry.2) members entries := by
  induction members generalizing entries with
  | nil =>
    obtain ⟨u, hclose, hnil⟩ := map_eq_ok_iff.mp h
    obtain rfl : [] = entries := hnil
    exact ⟨close_eq_ok hclose, .nil⟩
  | cons member members ih =>
    obtain ⟨key, item⟩ := member
    rw [Outline.entries] at h
    obtain ⟨k, hkey, h⟩ := bind_eq_ok_iff.mp h
    obtain ⟨v, hitem, h⟩ := bind_eq_ok_iff.mp h
    obtain ⟨es, hmembers, h⟩ := bind_eq_ok_iff.mp h
    cases h
    exact ⟨(ih hmembers).1, .cons ⟨hkey, hitem⟩ (ih hmembers).2⟩

theorem array_value_eq_ok {room : Nat} {items : List Outline} {ending : Option Break}
    {value : Value} (h : (Outline.array items ending).value room = .ok value) :
    ∃ below values, room = below + 1 ∧ ending = none ∧ value = .array values ∧
      List.Forall₂ (fun item value => item.value below = .ok value) items values := by
  cases room with
  | zero => cases h
  | succ below =>
    rw [Outline.value] at h
    obtain ⟨values, hvalues, rfl⟩ := map_eq_ok_iff.mp h
    exact ⟨below, values, rfl, (values_eq_ok hvalues).1, rfl, (values_eq_ok hvalues).2⟩

theorem object_value_eq_ok {room : Nat} {members : List (Except Fault String × Outline)}
    {ending : Option Break} {value : Value}
    (h : (Outline.object members ending).value room = .ok value) :
    ∃ below entries, room = below + 1 ∧ ending = none ∧
      value = .object (Value.ofEntries entries) ∧
      List.Forall₂ (fun member entry =>
        member.1 = .ok entry.1 ∧ member.2.value below = .ok entry.2) members entries := by
  cases room with
  | zero => cases h
  | succ below =>
    rw [Outline.value] at h
    obtain ⟨entries, hentries, rfl⟩ := map_eq_ok_iff.mp h
    exact ⟨below, entries, rfl, (entries_eq_ok hentries).1, rfl, (entries_eq_ok hentries).2⟩

/-- Members with different keys are entries with different keys. -/
theorem nodup_entries {below : Nat} {members : List (Except Fault String × Outline)}
    {entries : List (String × Value)}
    (h : List.Forall₂ (fun member entry =>
      member.1 = .ok entry.1 ∧ member.2.value below = .ok entry.2) members entries)
    (hkeys : (members.map Prod.fst).Nodup) : (entries.map Prod.fst).Nodup := by
  have hmap : members.map Prod.fst = (entries.map Prod.fst).map .ok := by
    induction h with
    | nil => rfl
    | cons hmember hrest ih =>
      rw [List.map_cons, List.map_cons, List.map_cons, hmember.1,
        ih (List.nodup_cons.mp hkeys).2]
  rw [hmap] at hkeys
  exact hkeys.of_map

/-- A value that was read gives no key twice, even where the outline does. -/
theorem keysOnce_of_value {room : Nat} {outline : Outline} {value : Value}
    (h : outline.value room = .ok value) : value.KeysOnce := by
  induction room using Nat.strongRecOn generalizing outline value with
  | _ room ih =>
    cases outline with
    | null =>
      cases h
      exact .null
    | bool b =>
      cases h
      exact .bool b
    | number numeral =>
      obtain ⟨number, -, rfl⟩ := map_eq_ok_iff.mp h
      exact .number number
    | string text =>
      obtain ⟨text, -, rfl⟩ := map_eq_ok_iff.mp h
      exact .string text
    | array items ending =>
      obtain ⟨below, values, rfl, -, rfl, hitems⟩ := array_value_eq_ok h
      refine .array fun value hvalue => ?_
      obtain ⟨item, hitem⟩ := exists_related hitems.flip hvalue
      exact ih below below.lt_succ_self hitem
    | object members ending =>
      obtain ⟨below, entries, rfl, -, rfl, hmembers⟩ := object_value_eq_ok h
      refine .object (Value.nodup_ofEntries entries) fun entry hentry => ?_
      obtain ⟨member, hmember⟩ := exists_related hmembers.flip (Value.mem_of_mem_ofEntries hentry)
      exact ih below below.lt_succ_self hmember.2
    | broken reason => cases h

/-! ## Passing over -/

theorem skipItems_eq_ok_iff {items : List Outline} {ending : Option Break} :
    skipItems ending items = .ok () ↔ ending = none ∧ ∀ item ∈ items, item.skip = .ok () := by
  induction items with
  | nil => cases ending <;> simp [skipItems]
  | cons item items ih =>
    rw [skipItems, List.forall_mem_cons]
    cases hitem : item.skip with
    | error fault => simp [bind, Except.bind]
    | ok u => simpa [bind, Except.bind] using ih

theorem skipMembers_eq_ok_iff {members : List (Except Fault String × Outline)}
    {ending : Option Break} :
    skipMembers ending members = .ok () ↔
      ending = none ∧ ∀ member ∈ members, member.2.skip = .ok () := by
  induction members with
  | nil => cases ending <;> simp [skipMembers]
  | cons member members ih =>
    obtain ⟨key, item⟩ := member
    rw [skipMembers, List.forall_mem_cons]
    cases hitem : item.skip with
    | error fault => simp [bind, Except.bind]
    | ok u => simpa [bind, Except.bind] using ih

/-- What is read as a value can be passed over. -/
theorem skip_of_value {room : Nat} {outline : Outline} {value : Value}
    (h : outline.value room = .ok value) : outline.skip = .ok () := by
  induction room using Nat.strongRecOn generalizing outline value with
  | _ room ih =>
    cases outline with
    | array items ending =>
      obtain ⟨below, values, rfl, rfl, rfl, hitems⟩ := array_value_eq_ok h
      refine skipItems_eq_ok_iff.mpr ⟨rfl, fun item hitem => ?_⟩
      obtain ⟨v, hv⟩ := exists_related hitems hitem
      exact ih below below.lt_succ_self hv
    | object members ending =>
      obtain ⟨below, entries, rfl, rfl, rfl, hmembers⟩ := object_value_eq_ok h
      refine skipMembers_eq_ok_iff.mpr ⟨rfl, fun member hmember => ?_⟩
      obtain ⟨entry, hentry⟩ := exists_related hmembers hmember
      exact ih below below.lt_succ_self hentry.2
    | broken reason => cases h
    | _ => rfl

/-- What can be passed over is spelled to its end. -/
theorem whole_of_skip {outline : Outline} (h : outline.skip = .ok ()) : outline.Whole := by
  match outline, h with
  | .null, _ => exact .null
  | .bool b, _ => exact .bool b
  | .number numeral, _ => exact .number numeral
  | .string text, _ => exact .string text
  | .array items ending, h =>
    obtain ⟨rfl, hitems⟩ := skipItems_eq_ok_iff.mp h
    exact .array fun item hitem => whole_of_skip (hitems item hitem)
  | .object members ending, h =>
    obtain ⟨rfl, hmembers⟩ := skipMembers_eq_ok_iff.mp h
    exact .object fun member hmember => whole_of_skip (hmembers member hmember)
termination_by sizeOf outline
decreasing_by
  · have hlt := List.sizeOf_lt_of_mem hitem
    simp only [Outline.array.sizeOf_spec]
    omega
  · have hlt := List.sizeOf_lt_of_mem hmember
    obtain ⟨key, item⟩ := member
    simp only [Prod.mk.sizeOf_spec, Outline.object.sizeOf_spec] at hlt ⊢
    omega

end Outline

/-- The value of a text gives no key twice. -/
theorem Value.keysOnce_ofString {text : String} {value : Value}
    (h : Value.ofString text = .ok value) : value.KeysOnce := by
  obtain ⟨read, hread, hfinish⟩ := bind_eq_ok_iff.mp h
  unfold Document.finish at hfinish
  split at hfinish
  · cases hfinish
  · cases hfinish
    exact Outline.keysOnce_of_value hread

end Json

end Verdict
