import Verdict.Proofs.Coherence
import Verdict.Proofs.NumericText

/-!
# Comparing numbers after rounding

A number of a record and the number of a literal are rounded to binary64, each on its own way,
before they are compared. Both are the nearest to their exact values (`Binary64.IsNearest`), and
the nearest number grows with the exact value (`IsNearest.signed_le`). So rounding can make two
numbers level but cannot put them the wrong way round (`followsOrder_of_order?`), and between exact
values that binary64 holds nothing is changed at all.
-/

namespace Verdict

open Json Numeral Binary64

/-! ## Exact values -/

/-- An exact number from its sign and its magnitude. -/
def signedValue (negative : Bool) (magnitude : ℚ) : ℚ :=
  if negative then -magnitude else magnitude

theorem abs_signedValue (negative : Bool) {q : ℚ} (h0 : 0 ≤ q) : |signedValue negative q| = q := by
  cases negative
  · exact abs_of_nonneg h0
  · exact (abs_neg q).trans (abs_of_nonneg h0)

theorem signedValue_natAbs (n : ℤ) : signedValue (decide (n < 0)) n.natAbs = n := by
  unfold signedValue
  rw [Nat.cast_natAbs]
  by_cases hn : n < 0
  · rw [if_pos (decide_eq_true hn), abs_of_neg hn, Int.cast_neg, neg_neg]
  · rw [if_neg (by simpa using hn), abs_of_nonneg (not_lt.mp hn)]

/-- The text, white space around it apart, writes this exact number. -/
def WritesExactly (text : String) (q : ℚ) : Prop :=
  ∃ negative magnitude, Writes (Text.trim text.toList) negative magnitude ∧
    q = signedValue negative magnitude

theorem writesExactly_of_decimal (text : String) {d : Decimal}
    (h : (ofChars? (Text.trim text.toList)).map Numeral.decimal = some d) :
    WritesExactly text (signedValue d.negative d.magnitude) := by
  obtain ⟨n, hread, rfl⟩ := Option.map_eq_some_iff.mp h
  exact ⟨_, _, writes_of_ofChars? hread, rfl⟩

namespace Binary64

/-- The exact value of a number. -/
def value (x : Binary64) : ℚ :=
  x.signed / one

theorem value_eq (x : Binary64) : x.value = signedValue x.negative x.magnitude := by
  unfold value signed signedValue magnitude
  split
  · push_cast
    exact neg_div _ _
  · rfl

theorem value_lt_value_iff {x y : Binary64} : x.value < y.value ↔ x.signed < y.signed := by
  unfold value
  rw [div_lt_div_iff_of_pos_right cast_one_pos, Int.cast_lt]

/-- Some number has this exact value. -/
def Representable (q : ℚ) : Prop :=
  ∃ x : Binary64, x.value = q

theorem units_of_value_eq {x : Binary64} {n : ℤ} (h : x.value = n) : x.units = n.natAbs * one := by
  have hmagnitude : x.magnitude = n.natAbs := by
    rw [Nat.cast_natAbs, Int.cast_abs, ← h, value_eq, abs_signedValue _ x.magnitude_nonneg]
  have hunits : (x.units : ℚ) = (n.natAbs * one : ℕ) := by
    rw [← x.magnitude_mul_one, hmagnitude, Nat.cast_mul]
  exact Nat.cast_injective hunits

theorem representable_iff_fits {n : ℤ} : Representable n ↔ Fits (n.natAbs * one) := by
  constructor
  · rintro ⟨x, hx⟩
    rw [← units_of_value_eq hx]
    exact x.fits
  · intro hfits
    refine ⟨⟨decide (n < 0), n.natAbs * one, hfits⟩, ?_⟩
    rw [value_eq, magnitude, Nat.cast_mul, mul_div_cancel_right₀ _ cast_one_pos.ne',
      signedValue_natAbs]

/-! ## The nearest number -/

/-- The number is the nearest to an exact value; the sign of zero is left open. -/
def IsNearest (q : ℚ) (x : Binary64) : Prop :=
  ∃ units, Nearest (|q| * one) units ∧ x.signed = if q < 0 then -(units : ℤ) else units

variable {q r : ℚ} {x y : Binary64}

theorem Rounds.isNearest {negative : Bool} (h0 : 0 ≤ q) (h : Rounds negative q x) :
    IsNearest (signedValue negative q) x := by
  refine ⟨x.units, ?_, ?_⟩
  · rw [abs_signedValue negative h0]
    exact h.nearest
  · unfold signed
    rw [h.negative_eq]
    cases negative with
    | false =>
      have hq : ¬signedValue false q < 0 := not_lt.mpr h0
      rw [if_neg hq]
      rfl
    | true =>
      rcases h0.eq_or_lt with rfl | hpos
      · have hnearest := h.nearest
        rw [zero_mul] at hnearest
        have hunits : x.units = 0 := hnearest.eq_zero le_rfl (by norm_num)
        rw [hunits]
        rfl
      · have hq : signedValue true q < 0 := neg_lt_zero.mpr hpos
        rw [if_pos hq]
        rfl

theorem isNearest_value (x : Binary64) : IsNearest x.value x := by
  rw [value_eq]
  exact x.rounds_self.isNearest x.magnitude_nonneg

namespace IsNearest

/-- A larger exact value has no smaller nearest number. -/
theorem signed_le (hx : IsNearest q x) (hy : IsNearest r y) (h : q ≤ r) : x.signed ≤ y.signed := by
  obtain ⟨u, hu, hxu⟩ := hx
  obtain ⟨v, hv, hyv⟩ := hy
  rw [hxu, hyv]
  have h0 (a : ℚ) : 0 ≤ |a| * one := mul_one_nonneg (abs_nonneg a)
  by_cases hq : q < 0
  · rw [if_pos hq]
    by_cases hr : r < 0
    · -- among negative values the greater one has the smaller magnitude
      have habs : |r| ≤ |q| := by
        rw [abs_of_neg hq, abs_of_neg hr]
        exact neg_le_neg h
      have huv : v ≤ u := hv.mono (h0 r) (mul_le_mul_of_nonneg_right habs cast_one_pos.le) hu
      rw [if_pos hr]
      omega
    · rw [if_neg hr]
      omega
  · have hr : ¬r < 0 := fun hr => hq (h.trans_lt hr)
    have habs : |q| ≤ |r| := by
      rw [abs_of_nonneg (not_lt.mp hq), abs_of_nonneg (not_lt.mp hr)]
      exact h
    have huv : u ≤ v := hu.mono (h0 q) (mul_le_mul_of_nonneg_right habs cast_one_pos.le) hv
    rw [if_neg hq, if_neg hr]
    omega

theorem lt_of_signed_lt (hx : IsNearest q x) (hy : IsNearest r y) (h : x.signed < y.signed) :
    q < r := by
  by_contra hge
  exact absurd (hy.signed_le hx (not_lt.mp hge)) (not_le.mpr h)

theorem signed_eq (hx : IsNearest q x) (hy : IsNearest q y) : x.signed = y.signed :=
  le_antisymm (hx.signed_le hy le_rfl) (hy.signed_le hx le_rfl)

theorem value_eq_of_representable (hx : IsNearest q x) (h : Representable q) : x.value = q := by
  obtain ⟨y, rfl⟩ := h
  unfold value
  rw [hx.signed_eq y.isNearest_value]

end IsNearest

end Binary64

/-! ## Numbers of records and of texts -/

/-- The exact value of a number of a record. -/
def Number.value : Number → ℚ
  | .integer n _ _ => n
  | .real x => x.value

theorem Number.isNearest_toBinary64 (n : Number) : IsNearest n.value n.toBinary64 := by
  cases n with
  | integer n lower upper =>
    have h := (rounds_ofInt n (show n.natAbs ≤ 18446744073709551616 by omega)).isNearest
      (Nat.cast_nonneg _)
    rwa [signedValue_natAbs] at h
  | real x => exact x.isNearest_value

theorem isNearest_of_numberOfText? {text : String} {x : Binary64} {q : ℚ}
    (h : WritesExactly text q) (hx : numberOfText? text = some x) : IsNearest q x := by
  obtain ⟨negative, magnitude, hwrites, rfl⟩ := h
  exact ((numberOfText?_of_writes hwrites).mp hx).isNearest hwrites.nonneg

/-! ## Comparators and exact order -/

namespace Comparator

/-- The comparison that a sign stands for. -/
def Holds {α : Type} [LT α] [LE α] (comparator : Comparator) (x y : α) : Prop :=
  match comparator with
  | .greater => y < x
  | .less => x < y
  | .greaterEqual => y ≤ x
  | .lessEqual => x ≤ y
  | .equal => x = y
  | .notEqual => x ≠ y

theorem holds_congr {α β : Type} [LinearOrder α] [LinearOrder β] {a b : α} {c d : β}
    (hlt : a < b ↔ c < d) (hgt : b < a ↔ d < c) (comparator : Comparator) :
    comparator.Holds a b ↔ comparator.Holds c d := by
  have hle : a ≤ b ↔ c ≤ d := by rw [← not_lt, hgt, not_lt]
  have hge : b ≤ a ↔ d ≤ c := by rw [← not_lt, hlt, not_lt]
  have heq : a = b ↔ c = d := by rw [le_antisymm_iff, hle, hge, ← le_antisymm_iff]
  cases comparator with
  | greater => exact hgt
  | less => exact hlt
  | greaterEqual => exact hge
  | lessEqual => exact hle
  | equal => exact heq
  | notEqual => exact not_congr heq

/-- A comparator that asks for the order. -/
def IsRelational (comparator : Comparator) : Prop :=
  comparator ≠ .equal ∧ comparator ≠ .notEqual

variable {value : Value} {literal : String} {x y : Binary64}

theorem compare_iff_of_order? (h : value.order? literal = some (x.order y))
    {comparator : Comparator} (hc : comparator.IsRelational) :
    comparator.compare value literal = true ↔ comparator.Holds x.signed y.signed := by
  obtain ⟨hgt, hlt, hge, hle⟩ := compares_of_order? h
  unfold Binary64.order at hgt hlt hge hle
  cases comparator with
  | greater => simp [hgt, Holds, Int.compare_eq_gt]
  | less => simp [hlt, Holds, Int.compare_eq_lt]
  | greaterEqual => simp [hge, Holds, Int.compare_eq_lt]
  | lessEqual => simp [hle, Holds, Int.compare_eq_gt]
  | equal => exact absurd rfl hc.1
  | notEqual => exact absurd rfl hc.2

/-- Every comparator compares a number with a literal that has one as these numbers. -/
theorem compare_number_iff {n : Number} (h : numberOfText? literal = some y)
    (comparator : Comparator) :
    comparator.compare (.number n) literal = true ↔
      comparator.Holds n.toBinary64.signed y.signed := by
  have horder : (Value.number n).order? literal = some (n.toBinary64.order y) := by
    unfold Value.order? Value.numeric?
    rw [h]
  have hequal : (Value.number n).looselyEquals literal = true ↔
      n.toBinary64.signed = y.signed := by
    rw [← Value.order?_number_eq_iff, horder, Option.some.injEq, Binary64.order_eq_iff]
  cases comparator with
  | equal => exact hequal
  | notEqual =>
    show (!(Value.number n).looselyEquals literal) = true ↔ _
    rw [Bool.not_eq_true', ← Bool.not_eq_true, hequal]
    rfl
  | _ => exact compare_iff_of_order? horder ⟨by decide, by decide⟩

end Comparator

/-- The order of a value and a literal never inverts that of two exact numbers, and is the same
where binary64 holds both. -/
structure FollowsOrder (value : Value) (literal : String) (x q : ℚ) : Prop where
  of_greater : Comparator.greater.compare value literal = true → q < x
  of_less : Comparator.less.compare value literal = true → x < q
  of_eq : x = q → Comparator.greaterEqual.compare value literal = true ∧
    Comparator.lessEqual.compare value literal = true
  of_representable : Representable x → Representable q → ∀ comparator : Comparator,
    comparator.IsRelational → (comparator.compare value literal = true ↔ comparator.Holds x q)

theorem order?_of_numbers {value : Value} {literal : String} {x y : Binary64}
    (hx : value.numeric? = some x) (hy : numberOfText? literal = some y) :
    value.order? literal = some (x.order y) := by
  unfold Value.order?
  rw [hx, hy]

/-- Numbers that are nearest to exact ones are compared in their order. -/
theorem followsOrder_of_order? {value : Value} {literal : String} {x y : Binary64} {p q : ℚ}
    (h : value.order? literal = some (x.order y)) (hx : IsNearest p x) (hy : IsNearest q y) :
    FollowsOrder value literal p q := by
  have hcompare {comparator : Comparator} (hc : comparator.IsRelational) :=
    Comparator.compare_iff_of_order? h hc
  refine ⟨fun hgreater => ?_, fun hless => ?_, ?_, fun hp hq comparator hc => ?_⟩
  · exact hy.lt_of_signed_lt hx ((hcompare ⟨by decide, by decide⟩).mp hgreater)
  · exact hx.lt_of_signed_lt hy ((hcompare ⟨by decide, by decide⟩).mp hless)
  · rintro rfl
    have hlevel := hx.signed_eq hy
    exact ⟨(hcompare ⟨by decide, by decide⟩).mpr hlevel.ge,
      (hcompare ⟨by decide, by decide⟩).mpr hlevel.le⟩
  · rw [hcompare hc, ← hx.value_eq_of_representable hp, ← hy.value_eq_of_representable hq]
    exact Comparator.holds_congr value_lt_value_iff.symm value_lt_value_iff.symm comparator

/-- A number, or a string that writes one, is never found above a literal number that it is not
above, and never below one that it is not below. Equal numbers are level, and equal as far as a
number of a record is concerned; numbers that binary64 holds compare as they are. -/
theorem comparisons_follow_exact_order {literal : String} {q : ℚ} (hq : WritesExactly literal q)
    (hsome : (numberOfText? literal).isSome = true) :
    (∀ n : Number,
      FollowsOrder (.number n) literal n.value q ∧
      (n.value = q → Comparator.equal.compare (.number n) literal = true) ∧
      (Representable n.value → Representable q → ∀ comparator : Comparator,
        comparator.compare (.number n) literal = true ↔ comparator.Holds n.value q)) ∧
    ∀ (text : String) (p : ℚ), WritesExactly text p → (numberOfText? text).isSome = true →
      FollowsOrder (.string text) literal p q := by
  obtain ⟨y, hy⟩ := Option.isSome_iff_exists.mp hsome
  have hnearest := isNearest_of_numberOfText? hq hy
  refine ⟨fun n => ⟨?_, ?_, fun hn hq' comparator => ?_⟩, fun text p hp htext => ?_⟩
  · exact followsOrder_of_order? (order?_of_numbers rfl hy) n.isNearest_toBinary64 hnearest
  · rintro rfl
    exact (Comparator.compare_number_iff hy .equal).mpr (n.isNearest_toBinary64.signed_eq hnearest)
  · rw [Comparator.compare_number_iff hy,
      ← n.isNearest_toBinary64.value_eq_of_representable hn,
      ← hnearest.value_eq_of_representable hq']
    exact Comparator.holds_congr value_lt_value_iff.symm value_lt_value_iff.symm comparator
  · obtain ⟨x, hx⟩ := Option.isSome_iff_exists.mp htext
    exact followsOrder_of_order? (order?_of_numbers hx hy) (isNearest_of_numberOfText? hp hx)
      hnearest

/-- A whole number just above the literal, and level with it once both are rounded. -/
theorem comparisons_follow_exact_order_level :
    (numberOfText? "9007199254740992.5").isSome = true ∧
    FollowsOrder (.number (.integer 9007199254740993 (by decide) (by decide)))
      "9007199254740992.5" (9007199254740993 : ℤ) (18014398509481985 / 2) ∧
    FollowsOrder (.string " +9007199254740993e0") "9007199254740992.5" 9007199254740993
      (18014398509481985 / 2) := by
  have hliteral : WritesExactly "9007199254740992.5" (18014398509481985 / 2) := by
    have h := writesExactly_of_decimal "9007199254740992.5" (d := ⟨false, 90071992547409925, -1⟩)
      (by decide +kernel)
    norm_num [signedValue, Decimal.magnitude] at h
    exact h
  have htext : WritesExactly " +9007199254740993e0" 9007199254740993 := by
    have h := writesExactly_of_decimal " +9007199254740993e0" (d := ⟨false, 9007199254740993, 0⟩)
      (by decide +kernel)
    norm_num [signedValue, Decimal.magnitude] at h
    exact h
  have hsome : (numberOfText? "9007199254740992.5").isSome = true := by decide +kernel
  obtain ⟨hnumber, hstring⟩ := comparisons_follow_exact_order hliteral hsome
  exact ⟨hsome, (hnumber _).1, hstring _ _ htext (by decide +kernel)⟩

end Verdict
