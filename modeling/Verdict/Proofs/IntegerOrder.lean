import Verdict.Proofs.CanonicalText
import Verdict.Proofs.ExactOrder
import Verdict.Proofs.PlainRule

/-!
# Comparing whole numbers

A whole number of a record and one that a literal writes are compared as the binary64 numbers
nearest to them. So they are compared as they are, unless they are different and one binary64 number
is nearest to both (`ShareNearest`); such numbers are compared as equal ones. Up to `2^53` no two
whole numbers share their nearest number.
-/

namespace Verdict

open Json Numeral Binary64

/-! ## Whole numbers that binary64 holds -/

theorem Binary64.representable_of_natAbs_le {n : ℤ} (h : n.natAbs ≤ 2 ^ 53) :
    Representable n := by
  have hlimit : 2 ^ 53 * one < limit := by decide +kernel
  refine representable_iff_fits.mpr
    ⟨(Nat.mul_le_mul_right one h).trans_lt hlimit, n.natAbs, 1074, h, ?_⟩
  unfold one
  rfl

theorem writesExactly_integerText (n : ℤ) :
    WritesExactly (String.ofList (Number.integerText n)) n := by
  refine ⟨decide (n < 0), n.natAbs, ?_, (signedValue_natAbs n).symm⟩
  rw [String.toList_ofList, (writes_integerText n).trim_eq]
  exact writes_integerText n

/-! ## Sharing the nearest number -/

/-- One number is nearest to both exact values. -/
def ShareNearest (q r : ℚ) : Prop :=
  ∃ x : Binary64, x.IsNearest q ∧ x.IsNearest r

namespace ShareNearest

variable {q r : ℚ} {x y : Binary64}

theorem iff_signed_eq (hx : IsNearest q x) (hy : IsNearest r y) :
    ShareNearest q r ↔ x.signed = y.signed := by
  constructor
  · rintro ⟨z, hq, hr⟩
    exact (hx.signed_eq hq).trans (hr.signed_eq hy)
  · intro hlevel
    obtain ⟨units, hunits, hsigned⟩ := hy
    exact ⟨x, hx, units, hunits, hlevel.trans hsigned⟩

/-- Whole numbers share their nearest number exactly if the numbers of a record that they are turn
level. -/
theorem integers_iff {n m : ℤ} (hn : -9223372036854775808 ≤ n ∧ n < 18446744073709551616)
    (hm : -9223372036854775808 ≤ m ∧ m < 18446744073709551616) :
    ShareNearest n m ↔ (Number.integer n hn.1 hn.2).toBinary64.signed =
      (Number.integer m hm.1 hm.2).toBinary64.signed :=
  iff_signed_eq (Number.integer n hn.1 hn.2).isNearest_toBinary64
    (Number.integer m hm.1 hm.2).isNearest_toBinary64

theorem eq_of_representable (h : ShareNearest q r) (hq : Representable q) (hr : Representable r) :
    q = r := by
  obtain ⟨x, hxq, hxr⟩ := h
  rw [← hxq.value_eq_of_representable hq, ← hxr.value_eq_of_representable hr]

end ShareNearest

/-! ## Comparing them -/

theorem PlainClause.evaluate_text (clause : PlainClause) (record : Value) :
    evaluate (Tree.parse? (String.ofList clause.text)) record = .ok (clause.verdict record) := by
  let rule : PlainRule := ⟨[], clause, [], [], Text.blanks_nil, Text.blanks_nil⟩
  have htext : rule.text = String.ofList clause.text :=
    congrArg String.ofList (List.append_nil clause.text)
  rw [← htext, rule.parse?_text, evaluate,
    Tree.check_of_readable fun _ h => rule.refusal?_of_mem_clauses h, rule.verdict_tree]
  rfl

namespace Comparator

variable {n m : ℤ} {x y : Binary64}

theorem holds_of_not_shared (hx : IsNearest n x) (hy : IsNearest m y) (h : ¬ShareNearest n m)
    (comparator : Comparator) : comparator.Holds x.signed y.signed ↔ comparator.Holds n m := by
  have hne : x.signed ≠ y.signed := mt (ShareNearest.iff_signed_eq hx hy).mpr h
  have hlt : x.signed < y.signed ↔ n < m := by
    refine ⟨fun hlt => Int.cast_lt.mp (hx.lt_of_signed_lt hy hlt), fun hlt => ?_⟩
    exact lt_of_le_of_ne (hx.signed_le hy (Int.cast_le.mpr hlt.le)) hne
  have hgt : y.signed < x.signed ↔ m < n := by
    refine ⟨fun hgt => Int.cast_lt.mp (hy.lt_of_signed_lt hx hgt), fun hgt => ?_⟩
    exact lt_of_le_of_ne (hy.signed_le hx (Int.cast_le.mpr hgt.le)) hne.symm
  exact holds_congr hlt hgt comparator

theorem holds_of_shared (hx : IsNearest n x) (hy : IsNearest m y) (h : ShareNearest n m)
    (comparator : Comparator) : comparator.Holds x.signed y.signed ↔ comparator.Holds n n := by
  have hlevel : x.signed = y.signed := (ShareNearest.iff_signed_eq hx hy).mp h
  rw [hlevel]
  exact holds_congr (by simp) (by simp) comparator

end Comparator

theorem exists_numberOfText? {literal : String} {m : ℤ} (hliteral : WritesExactly literal m)
    (hm : m.natAbs ≤ 18446744073709551616) : ∃ y, numberOfText? literal = some y := by
  obtain ⟨negative, magnitude, hwrites, hvalue⟩ := hliteral
  have hmagnitude : magnitude = m.natAbs := by
    rw [Nat.cast_natAbs, Int.cast_abs, hvalue, abs_signedValue negative hwrites.nonneg]
  have hmiddle : 18446744073709551616 + 2 ^ 970 < 2 ^ 1024 := by decide +kernel
  have hcast : ((m.natAbs + 2 ^ 970 : ℕ) : ℚ) < (2 ^ 1024 : ℕ) :=
    Nat.cast_lt.mpr ((Nat.add_le_add_right hm _).trans_lt hmiddle)
  rw [Nat.cast_add, Nat.cast_pow, Nat.cast_pow, Nat.cast_ofNat, ← hmagnitude] at hcast
  exact (exists_number_iff hwrites).mpr (lt_sub_iff_add_lt.mpr hcast)

/-- A whole number of a record and one that a literal writes, both within 64 bits, are compared as
they are unless they are different and share their nearest binary64 number, and as equal numbers if
they share it. Up to `2^53` they are always compared as they are. A rule of one clause does so. -/
theorem integers_compare_unless_shared {n m : ℤ}
    (hn : -9223372036854775808 ≤ n ∧ n < 18446744073709551616)
    (hm : -9223372036854775808 ≤ m ∧ m < 18446744073709551616) {literal : String}
    (hliteral : WritesExactly literal m) (comparator : Comparator) :
    let value := Value.number (.integer n hn.1 hn.2)
    ((ShareNearest n m → n = m) →
      (comparator.compare value literal = true ↔ comparator.Holds n m)) ∧
    (ShareNearest n m → (comparator.compare value literal = true ↔ comparator.Holds n n)) ∧
    (n.natAbs ≤ 2 ^ 53 → m.natAbs ≤ 2 ^ 53 →
      (comparator.compare value literal = true ↔ comparator.Holds n m)) ∧
    ∀ (clause : PlainClause) (record : Value), clause.comparator = comparator →
      String.ofList clause.literal.content = literal →
      record.attribute? (String.ofList clause.name) = some value →
      evaluate (Tree.parse? (String.ofList clause.text)) record =
        .ok (comparator.compare value literal) := by
  intro value
  obtain ⟨y, hread⟩ := exists_numberOfText? hliteral (by omega)
  have hx : IsNearest n (Number.integer n hn.1 hn.2).toBinary64 :=
    (Number.integer n hn.1 hn.2).isNearest_toBinary64
  have hy : IsNearest m y := isNearest_of_numberOfText? hliteral hread
  have hshared (h : ShareNearest n m) :
      comparator.compare value literal = true ↔ comparator.Holds n n := by
    rw [Comparator.compare_number_iff hread, Comparator.holds_of_shared hx hy h]
  have hexact (h : ShareNearest n m → n = m) :
      comparator.compare value literal = true ↔ comparator.Holds n m := by
    by_cases hboth : ShareNearest n m
    · rw [hshared hboth, ← h hboth]
    · rw [Comparator.compare_number_iff hread, Comparator.holds_of_not_shared hx hy hboth]
  refine ⟨hexact, hshared, fun hsmall hsmall' => hexact fun h => ?_, ?_⟩
  · exact Int.cast_injective (h.eq_of_representable (representable_of_natAbs_le hsmall)
      (representable_of_natAbs_le hsmall'))
  · rintro clause record rfl rfl hvalue
    rw [clause.evaluate_text, PlainClause.verdict, hvalue]

/-- The greatest whole numbers of 64 bits without and with a sign share no number, and the first is
above the second. But `2^53 + 1` shares the number of `2^53`, so it is not above it. -/
theorem integers_compare_unless_shared_wide :
    evaluate (Tree.parse? "n>'9223372036854775807'")
        (.object [("n", .number (.integer 18446744073709551615 (by decide) (by decide)))]) =
      .ok true ∧
    Comparator.greater.compare (.number (.integer 9007199254740993 (by decide) (by decide)))
      "9007199254740992" = false := by
  have hlong : String.ofList (Number.integerText 9223372036854775807) = "9223372036854775807" := by
    decide +kernel
  have hshort : String.ofList (Number.integerText 9007199254740992) = "9007199254740992" := by
    decide +kernel
  have hapart : ¬ShareNearest (18446744073709551615 : ℤ) (9223372036854775807 : ℤ) := by
    rw [ShareNearest.integers_iff (by decide) (by decide)]
    decide +kernel
  have hshared : ShareNearest (9007199254740993 : ℤ) (9007199254740992 : ℤ) := by
    rw [ShareNearest.integers_iff (by decide) (by decide)]
    decide +kernel
  have hfirst := integers_compare_unless_shared (n := 18446744073709551615) (by decide) (by decide)
    (writesExactly_integerText 9223372036854775807) .greater
  have hsecond := integers_compare_unless_shared (n := 9007199254740993) (by decide) (by decide)
    (writesExactly_integerText 9007199254740992) .greater
  rw [hlong] at hfirst
  rw [hshort] at hsecond
  let clause : PlainClause :=
    { name := ['n'], spaceBefore := [], comparator := .greater, spaceAfter := []
      literal := .quoted "9223372036854775807".toList
      isName := ⟨'n', [], rfl, by decide, by simp⟩
      blankBefore := Text.blanks_nil
      blankAfter := Text.blanks_nil
      wellFormed := show '\'' ∉ "9223372036854775807".toList by decide
      name_ne := by intro c; cases c <;> decide
      plain := ⟨by decide, by simp⟩ }
  have hlarger : Comparator.greater.compare
      (.number (.integer 18446744073709551615 (by decide) (by decide))) "9223372036854775807" =
        true :=
    (hfirst.1 fun h => absurd h hapart).mpr
      (show (9223372036854775807 : ℤ) < 18446744073709551615 by decide)
  constructor
  · have htext : String.ofList clause.text = "n>'9223372036854775807'" := by decide
    have hanswer := hfirst.2.2.2 clause
      (.object [("n", .number (.integer 18446744073709551615 (by decide) (by decide)))]) rfl
      (by decide) rfl
    rw [htext, hlarger] at hanswer
    exact hanswer
  · rw [Bool.eq_false_iff]
    intro hcompare
    exact absurd ((hsecond.2.1 hshared).mp hcompare) (lt_irrefl (9007199254740993 : ℤ))

/-- A rule that asks for `2^53` holds of a record with `2^53 + 1`. -/
theorem equal_to_neighbour :
    evaluate (Tree.parse? "n = '9007199254740992'")
        (.object [("n", .number (.integer 9007199254740993 (by decide) (by decide)))]) =
      .ok true ∧
    (9007199254740993 : ℤ) ≠ 9007199254740992 := by
  decide +kernel

end Verdict
