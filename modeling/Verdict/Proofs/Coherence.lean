import Verdict.Evaluation

/-!
# The comparators cohere

A number, a string or a truth value is above a literal, below it or level with it, and the
comparators tell these three apart (`compares_of_order?`). Equality is read by its own rules: for a
number and a truth value it is the order that is level, but a string equals a literal only as text,
while two texts that write one number are level (`order?_string_eq_iff`). Null, arrays and objects
have no order, so that no comparator but the negated equality holds of them.
-/

namespace Verdict

open Json

/-! ## Orders -/

theorem textOrder_eq_iff {s t : String} : textOrder s t = .eq ↔ s = t := by
  unfold textOrder
  split
  · next h => exact iff_of_true rfl h
  · next h =>
    split
    · exact iff_of_false (fun hlt => by cases hlt) h
    · exact iff_of_false (fun hgt => by cases hgt) h

namespace Binary64

theorem order_eq_iff {x y : Binary64} : x.order y = .eq ↔ x.signed = y.signed :=
  Int.compare_eq_eq

end Binary64

/-! ## Values that have an order -/

namespace Json.Value

/-- A value that has a text: a number, a string or a truth value. -/
inductive IsScalar : Value → Prop
  | number (n : Number) : IsScalar (.number n)
  | string (text : String) : IsScalar (.string text)
  | bool (b : Bool) : IsScalar (.bool b)

theorem IsScalar.exists_text? {value : Value} (h : value.IsScalar) :
    ∃ text, value.text? = some text := by
  cases h with
  | number n => exact ⟨n.text, rfl⟩
  | string text => exact ⟨text, rfl⟩
  | bool b => cases b <;> exact ⟨_, rfl⟩

theorem IsScalar.exists_order? {value : Value} (h : value.IsScalar) (literal : String) :
    ∃ order, value.order? literal = some order := by
  obtain ⟨text, htext⟩ := h.exists_text?
  unfold order?
  cases value.numeric? with
  | none => exact ⟨textOrder text literal, by rw [htext, Option.map_some]⟩
  | some x =>
    cases numberOfText? literal with
    | none => exact ⟨textOrder text literal, by rw [htext, Option.map_some]⟩
    | some y => exact ⟨x.order y, rfl⟩

theorem order?_of_not_isScalar {value : Value} (h : ¬value.IsScalar) (literal : String) :
    value.order? literal = none := by
  cases value with
  | number n => exact absurd (.number n) h
  | string text => exact absurd (.string text) h
  | bool b => exact absurd (.bool b) h
  | _ => rfl

theorem looselyEquals_of_not_isScalar {value : Value} (h : ¬value.IsScalar) (literal : String) :
    value.looselyEquals literal = false := by
  cases value with
  | number n => exact absurd (.number n) h
  | string text => exact absurd (.string text) h
  | bool b => exact absurd (.bool b) h
  | _ => rfl

/-! ## Equality and order -/

theorem order?_number_eq_iff {n : Number} {literal : String} :
    (Value.number n).order? literal = some .eq ↔
      (Value.number n).looselyEquals literal = true := by
  simp only [order?, numeric?, text?, looselyEquals]
  cases numberOfText? literal with
  | none => simp [textOrder_eq_iff]
  | some y => simp

theorem order?_bool_eq_iff {b : Bool} {literal : String} :
    (Value.bool b).order? literal = some .eq ↔ (Value.bool b).looselyEquals literal = true := by
  cases b <;> simp [order?, numeric?, text?, looselyEquals, textOrder_eq_iff]

theorem looselyEquals_string_iff {text literal : String} :
    (Value.string text).looselyEquals literal = true ↔ text = literal := by
  simp [looselyEquals, text?]

/-- Two texts write one number. -/
def WriteOneNumber (text literal : String) : Prop :=
  ∃ x y, numberOfText? text = some x ∧ numberOfText? literal = some y ∧ x.signed = y.signed

/-- A string is level with its own text, and with the texts that write its number. -/
theorem order?_string_eq_iff {text literal : String} :
    (Value.string text).order? literal = some .eq ↔
      text = literal ∨ WriteOneNumber text literal := by
  unfold WriteOneNumber
  simp only [order?, numeric?, text?]
  cases htext : numberOfText? text with
  | none => simp [textOrder_eq_iff]
  | some x =>
    cases hliteral : numberOfText? literal with
    | none => simp [textOrder_eq_iff]
    | some y =>
      simp only [Option.some.injEq, Binary64.order_eq_iff, exists_and_left, exists_eq_left']
      refine ⟨.inr, ?_⟩
      rintro (rfl | hlevel)
      · rw [htext] at hliteral
        rw [Option.some.inj hliteral]
      · exact hlevel

end Json.Value

/-! ## Comparators -/

namespace Comparator

/-- What the comparators say of a value that is ordered against the literal. -/
theorem compares_of_order? {value : Value} {literal : String} {order : Ordering}
    (h : value.order? literal = some order) :
    greater.compare value literal = (order == .gt) ∧
      less.compare value literal = (order == .lt) ∧
      greaterEqual.compare value literal = !(order == .lt) ∧
      lessEqual.compare value literal = !(order == .gt) := by
  simp only [compare, h]
  cases order <;> decide

theorem greaterEqual_and_lessEqual_iff {value : Value} (h : value.IsScalar) (literal : String) :
    greaterEqual.compare value literal = true ∧ lessEqual.compare value literal = true ↔
      value.order? literal = some .eq := by
  obtain ⟨order, horder⟩ := h.exists_order? literal
  obtain ⟨-, -, hge, hle⟩ := compares_of_order? horder
  rw [hge, hle, horder]
  cases order <;> decide

/-- Of a scalar exactly one of above, below and level holds, and the other comparators are the
negations. For a number and a truth value equality is not below and not above; for a string it is
more, and the strings that are level with a literal without being equal to it are the other texts
that write its number. Of null, arrays and objects only the negated equality holds. -/
theorem cohere (value : Value) (literal : String) :
    (value.IsScalar →
      (greater.compare value literal = true ∨ less.compare value literal = true ∨
        value.order? literal = some .eq) ∧
      ¬(greater.compare value literal = true ∧ less.compare value literal = true) ∧
      ¬(greater.compare value literal = true ∧ value.order? literal = some .eq) ∧
      ¬(less.compare value literal = true ∧ value.order? literal = some .eq) ∧
      greaterEqual.compare value literal = !less.compare value literal ∧
      lessEqual.compare value literal = !greater.compare value literal ∧
      notEqual.compare value literal = !equal.compare value literal) ∧
    ((∃ n, value = .number n) ∨ (∃ b, value = .bool b) →
      (equal.compare value literal = true ↔
        greaterEqual.compare value literal = true ∧ lessEqual.compare value literal = true)) ∧
    (∀ text, value = .string text →
      (equal.compare value literal = true →
        greaterEqual.compare value literal = true ∧ lessEqual.compare value literal = true) ∧
      (greaterEqual.compare value literal = true ∧ lessEqual.compare value literal = true ∧
          ¬equal.compare value literal = true ↔
        text ≠ literal ∧ Value.WriteOneNumber text literal)) ∧
    (¬value.IsScalar → ∀ comparator : Comparator,
      comparator.compare value literal = decide (comparator = .notEqual)) := by
  refine ⟨fun hscalar => ?_, ?_, ?_, fun hnot comparator => ?_⟩
  · obtain ⟨order, horder⟩ := hscalar.exists_order? literal
    obtain ⟨hgt, hlt, hge, hle⟩ := compares_of_order? horder
    rw [hgt, hlt, hge, hle, horder]
    refine ⟨?_, ?_, ?_, ?_, rfl, rfl, rfl⟩ <;> cases order <;> decide
  · rintro (⟨n, rfl⟩ | ⟨b, rfl⟩)
    · rw [greaterEqual_and_lessEqual_iff (.number n)]
      exact Value.order?_number_eq_iff.symm
    · rw [greaterEqual_and_lessEqual_iff (.bool b)]
      exact Value.order?_bool_eq_iff.symm
  · rintro text rfl
    have hequal : equal.compare (.string text) literal = true ↔ text = literal :=
      Value.looselyEquals_string_iff
    rw [← and_assoc, greaterEqual_and_lessEqual_iff (.string text), Value.order?_string_eq_iff,
      hequal]
    refine ⟨.inl, ?_⟩
    constructor
    · rintro ⟨heq | hnumber, hne⟩
      · exact absurd heq hne
      · exact ⟨hne, hnumber⟩
    · rintro ⟨hne, hnumber⟩
      exact ⟨.inr hnumber, hne⟩
  · have horder := Value.order?_of_not_isScalar hnot literal
    have hequal := Value.looselyEquals_of_not_isScalar hnot literal
    cases comparator <;> simp [compare, horder, hequal]

/-- Two texts of ten are level and not equal, a truth value is compared as text, and null is not
even equal to its word. -/
theorem cohere_level :
    (greaterEqual.compare (.string "1e1") "10.0" = true ∧
      lessEqual.compare (.string "1e1") "10.0" = true ∧
      ¬equal.compare (.string "1e1") "10.0" = true) ∧
    (equal.compare (.bool true) "1" = true ↔
      greaterEqual.compare (.bool true) "1" = true ∧ lessEqual.compare (.bool true) "1" = true) ∧
    notEqual.compare (.bool true) "1" = (!equal.compare (.bool true) "1") ∧
    ∀ comparator : Comparator,
      comparator.compare .null "null" = decide (comparator = .notEqual) := by
  have hsame : numberOfText? "1e1" = numberOfText? "10.0" := by decide +kernel
  have hsome : (numberOfText? "1e1").isSome = true := by decide +kernel
  obtain ⟨ten, hten⟩ := Option.isSome_iff_exists.mp hsome
  refine ⟨((cohere _ _).2.2.1 "1e1" rfl).2.mpr ⟨by decide, ?_⟩, (cohere _ _).2.1 (.inr ⟨_, rfl⟩),
    ?_, (cohere _ _).2.2.2 (fun h => by cases h)⟩
  · exact ⟨ten, ten, hten, hsame ▸ hten, rfl⟩
  · exact ((cohere _ _).1 (.bool true)).2.2.2.2.2.2

end Comparator

end Verdict
