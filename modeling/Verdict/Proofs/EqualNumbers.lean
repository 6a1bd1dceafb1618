import Verdict.Proofs.Attributes
import Verdict.Proofs.ExactOrder

/-!
# Whole numbers as binary64 numbers

A record may hold a whole number as an integer, or as the binary64 number that is equal to it, as
some writers of records add `.0` and others do not. The two are kept apart, and their texts are
written in different ways, but no rule sees a difference.

1. An integer that the format holds turns into a number with the same sign and as many units as the
   integer has ones, so that its text has the same digits (`Number.text_toBinary64`).
2. A comparator sees of a number only its text and its binary64 number (`alike_of_number`).
3. A tree sees of a record only what the comparators see of its attributes
   (`Tree.evaluate_of_alike`).
-/

namespace Verdict

open Json Binary64

/-! ## The text of a whole number -/

namespace Number

variable {n : ℤ} {lower : -9223372036854775808 ≤ n} {upper : n < 18446744073709551616}

/-- A number of so many ones has no fraction, and is written with the digits of its ones. -/
theorem text_of_units {x : Binary64} {k : ℕ} (hunits : x.units = k * one)
    (hk : k < 10 ^ 21) :
    (Number.real x).text =
      String.ofList ((if x.negative then ['-'] else []) ++ Nat.toDigits 10 k) := by
  have hwhole : x.isWhole = true := by
    rw [isWhole, hunits, Nat.mul_mod_left]
    rfl
  have hpart : x.wholePart = k := by
    rw [wholePart, hunits, Nat.mul_div_cancel k (by decide +kernel)]
  have hsmall : decide (k < Nat.pow 10 21) = true := decide_eq_true hk
  rw [text, hwhole, hpart, hsmall]
  rfl

theorem value_toBinary64 (h : Representable n) :
    (Number.integer n lower upper).toBinary64.value = n :=
  (Number.integer n lower upper).isNearest_toBinary64.value_eq_of_representable h

/-- The binary64 number of an integer that the format holds is written as the integer. -/
theorem text_toBinary64 (h : Representable n) :
    (Number.real (Number.integer n lower upper).toBinary64).text =
      (Number.integer n lower upper).text := by
  have hnegative : (Number.integer n lower upper).toBinary64.negative = decide (n < 0) := rfl
  rw [text_of_units (units_of_value_eq (value_toBinary64 h)) (by omega), hnegative]
  simp only [decide_eq_true_eq]
  rfl

end Number

/-! ## Values that no comparator tells apart -/

namespace Json.Value

/-- No comparator tells the values apart, whatever the literal. -/
def Alike (value other : Value) : Prop :=
  ∀ (comparator : Comparator) (literal : String),
    comparator.compare value literal = comparator.compare other literal

theorem alike_of_number {n m : Number} (hvalue : n.toBinary64 = m.toBinary64)
    (htext : n.text = m.text) : Alike (.number n) (.number m) := by
  intro comparator literal
  have hequal : (Value.number n).looselyEquals literal =
      (Value.number m).looselyEquals literal := by
    simp only [looselyEquals, hvalue, htext]
  have horder : (Value.number n).order? literal = (Value.number m).order? literal := by
    simp only [order?, numeric?, text?, hvalue, htext]
  cases comparator <;> simp only [Comparator.compare, hequal, horder]

/-- Two values that may stand for each other: one value, or an integer that binary64 holds and the
binary64 number equal to it. -/
inductive Interchanges : Value → Value → Prop
  | same (value : Value) : Interchanges value value
  | toReal {n : ℤ} {lower : -9223372036854775808 ≤ n} {upper : n < 18446744073709551616} :
    Representable n →
      Interchanges (.number (.integer n lower upper))
        (.number (.real (Number.integer n lower upper).toBinary64))
  | toInteger {n : ℤ} {lower : -9223372036854775808 ≤ n} {upper : n < 18446744073709551616} :
    Representable n →
      Interchanges (.number (.real (Number.integer n lower upper).toBinary64))
        (.number (.integer n lower upper))

theorem Interchanges.alike {value other : Value} (h : value.Interchanges other) :
    value.Alike other := by
  cases h with
  | same => exact fun _ _ => rfl
  | toReal hn => exact alike_of_number rfl (Number.text_toBinary64 hn).symm
  | toInteger hn => exact alike_of_number rfl (Number.text_toBinary64 hn)

/-! ## Records that no tree tells apart -/

/-- Under each name both records hold values that are so related, or none of them holds any. -/
def RelatedBy (related : Value → Value → Prop) (record other : Value) : Prop :=
  ∀ name, Option.Rel related (record.attribute? name) (other.attribute? name)

variable {related : Value → Value → Prop} {record other : Value}

theorem RelatedBy.mono {wider : Value → Value → Prop} (h : RelatedBy related record other)
    (hwider : ∀ {value value' : Value}, related value value' → wider value value') :
    RelatedBy wider record other := by
  intro name
  have hname := h name
  generalize record.attribute? name = value, other.attribute? name = value' at hname ⊢
  cases hname with
  | some hvalue => exact .some (hwider hvalue)
  | none => exact .none

theorem relatedBy_object {members others : List (String × Value)}
    (h : List.Forall₂ (fun m o => m.1 = o.1 ∧ related m.2 o.2) members others) :
    RelatedBy related (.object members) (.object others) := by
  intro name
  show Option.Rel related (members.lookup name) (others.lookup name)
  induction h with
  | nil => exact .none
  | @cons member other members others hhead _ ih =>
    rw [List.lookup_cons, List.lookup_cons, hhead.1]
    cases name == other.1 with
    | true => exact .some hhead.2
    | false => exact ih

end Json.Value

theorem Clause.verdict_of_alike {record other : Value}
    (h : Value.RelatedBy Value.Alike record other) (text : String) :
    verdict record text = verdict other text := by
  unfold verdict
  split
  · next clause _ =>
    have hname := h clause.name
    unfold holds
    generalize record.attribute? clause.name = value, other.attribute? clause.name = value'
      at hname ⊢
    cases hname with
    | some hvalue => exact hvalue clause.comparator clause.literal
    | none => rfl
  · rfl

theorem Tree.evaluate_of_alike {record other : Value}
    (h : Value.RelatedBy Value.Alike record other) (tree : Option Tree) :
    evaluate tree record = evaluate tree other := by
  cases tree with
  | none => rfl
  | some tree => exact evaluate_congr fun clause _ => Clause.verdict_of_alike h clause

/-- An integer that binary64 holds and the binary64 number equal to it have one text and compare
alike with every literal, one that writes no number included. So no tree tells two records apart in
which such numbers stand for each other, and no check does, whatever the engine did before. -/
theorem Number.integer_interchanges_real :
    (∀ (n : ℤ) (lower : -9223372036854775808 ≤ n) (upper : n < 18446744073709551616),
      Representable n →
        let integer := Number.integer n lower upper
        let real := Number.real integer.toBinary64
        real.value = n ∧ (Value.number integer).text? = (Value.number real).text? ∧
          ∀ (comparator : Comparator) (literal : String),
            comparator.compare (.number integer) literal =
              comparator.compare (.number real) literal) ∧
      ∀ record other : Value, Value.RelatedBy Value.Interchanges record other →
        (∀ tree : Option Tree, evaluate tree record = evaluate tree other) ∧
          ∀ (steps : List Session.Step) (rule : String),
            ((Session.after steps).check rule record).1 =
              ((Session.after steps).check rule other).1 := by
  constructor
  · intro n lower upper h
    exact ⟨value_toBinary64 h, congrArg some (text_toBinary64 h).symm,
      (Value.Interchanges.toReal h).alike⟩
  · intro record other h
    have hevaluate := Tree.evaluate_of_alike (h.mono Value.Interchanges.alike)
    refine ⟨hevaluate, fun steps rule => ?_⟩
    rw [Session.check_after, Session.check_after, hevaluate]

/-- The greatest integer of 64 bits that binary64 holds, against a literal that only starts as it
does; and a record with it and another number, of which each changes its form. -/
theorem Number.integer_interchanges_real_sparse :
    Representable (18446744073709549568 : ℤ) ∧
      Comparator.less.compare
          (.number (.integer 18446744073709549568 (by decide) (by decide)))
          "18446744073709549568x" =
        Comparator.less.compare
          (.number (.real (Number.integer 18446744073709549568 (by decide) (by decide)).toBinary64))
          "18446744073709549568x" ∧
      evaluate (some (.join .and (.leaf "n = 18446744073709549568") (.leaf "m < '-3x'")))
          (.object
            [("n", .number (.integer 18446744073709549568 (by decide) (by decide))),
              ("m", .number (.real (Number.integer (-3) (by decide) (by decide)).toBinary64))]) =
        evaluate (some (.join .and (.leaf "n = 18446744073709549568") (.leaf "m < '-3x'")))
          (.object
            [("n", .number (.real
                (Number.integer 18446744073709549568 (by decide) (by decide)).toBinary64)),
              ("m", .number (.integer (-3) (by decide) (by decide)))]) := by
  have hlarge : Representable (18446744073709549568 : ℤ) :=
    representable_iff_fits.mpr
      ⟨by decide +kernel, 9007199254740991, 1085, by decide, by decide +kernel⟩
  have hsmall : Representable (-3 : ℤ) :=
    representable_iff_fits.mpr ⟨by decide +kernel, 3, 1074, by decide, by decide +kernel⟩
  refine ⟨hlarge, (integer_interchanges_real.1 _ _ _ hlarge).2.2 _ _, ?_⟩
  refine (integer_interchanges_real.2 _ _ (Value.relatedBy_object ?_)).1 _
  exact .cons ⟨rfl, .toReal hlarge⟩ (.cons ⟨rfl, .toInteger hsmall⟩ .nil)

end Verdict
