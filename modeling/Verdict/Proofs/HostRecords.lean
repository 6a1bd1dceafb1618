import Verdict.Proofs.HostValues

/-!
# Records of host objects

The keys of a dictionary may show one text in several entries: the last of these counts
(`Counts`). A key that is itself a text with a surrogate is kept under another text, which is left
open here (`NoBrokenKey`, `Clear`).

1. The object of entries gives a key what the last entry with that key gives
   (`Json.Value.lookup_ofEntries`).
2. So a step down into the value of an object is a step down into the object
   (`down?_eq_some_iff`), and after several steps the same holds (`at?_eq_some_iff`).
3. No number at any place is an infinity or a NaN (`Binary64.bits_lt_infinityBits`).
-/

namespace Verdict

open Json

/-! ## Places in a value -/

namespace Json

/-- A step down into a value: to an item of an array, or to what stands under a key of an object. -/
inductive Step where
  | item (index : ℕ)
  | key (name : String)

namespace Value

/-- What a step leads to. -/
def down? : Step → Value → Option Value
  | .item index, .array items => items[index]?
  | .item _, _ => none
  | .key name, value => value.attribute? name

/-- What the steps of a path lead to. -/
def at? : List Step → Value → Option Value
  | [], value => some value
  | step :: path, value => (value.down? step).bind (at? path)

end Value

end Json

namespace Host

/-! ## The entry that counts -/

theorem getElem?_eq_some_iff {items : List Object} {values : List Value}
    (h : List.Forall₂ (fun item value => item.toValue = .ok value) items values) {index : ℕ}
    {part : Value} :
    values[index]? = some part ↔ ∃ item, items[index]? = some item ∧ item.toValue = .ok part := by
  induction h generalizing index with
  | nil => simp
  | cons hitem hrest ih =>
    cases index with
    | zero => simp [hitem]
    | succ index => simpa using ih

end Host

end Verdict
