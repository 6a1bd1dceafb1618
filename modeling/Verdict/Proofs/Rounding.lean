import Mathlib.Algebra.Order.Field.Power
import Mathlib.Tactic.FieldSimp
import Verdict.Proofs.Nearest

/-!
# Exact numbers and their rounding

An exact number is a sign and a magnitude, a ratio that is not negative. A binary64 number rounds it
if it has the sign and the nearest magnitude (`Binary64.Rounds`). Quotients, whole numbers and
decimals are rounded so, and where a conversion gives no number none rounds the exact one: then the
magnitude is at least the last middle (`exists_rounds_iff`).

The exponent of a decimal is cut back before the powers of ten are built. Beyond the cut nothing
changes: every decimal but zero is too large there, or nearest to zero (`rounds_cut_iff`).
-/

namespace Verdict

namespace Binary64

/-! ## Rounding an exact number -/

/-- The number has the sign, and its magnitude is the nearest to the exact one. -/
structure Rounds (negative : Bool) (magnitude : ℚ) (x : Binary64) : Prop where
  negative_eq : x.negative = negative
  nearest : Nearest (magnitude * one) x.units

variable {negative : Bool} {q : ℚ} {x y : Binary64}

theorem eq_of_parts (hnegative : x.negative = y.negative) (hunits : x.units = y.units) : x = y := by
  cases x
  cases y
  cases hnegative
  cases hunits
  rfl

theorem cast_one_pos : 0 < (one : ℚ) :=
  Nat.cast_pos.mpr (by decide +kernel)

theorem mul_one_nonneg (h0 : 0 ≤ q) : 0 ≤ q * one :=
  mul_nonneg h0 cast_one_pos.le

/-- The magnitude of a number as a ratio. -/
def magnitude (x : Binary64) : ℚ :=
  x.units / one

theorem magnitude_nonneg (x : Binary64) : 0 ≤ x.magnitude :=
  div_nonneg (Nat.cast_nonneg _) cast_one_pos.le

theorem magnitude_mul_one (x : Binary64) : x.magnitude * one = x.units :=
  div_mul_cancel₀ _ cast_one_pos.ne'

theorem rounds_self (x : Binary64) : Rounds x.negative x.magnitude x := by
  refine ⟨rfl, ?_⟩
  rw [magnitude_mul_one]
  exact nearest_self x.hasSignificand_units

theorem nearest_quotient (n : ℕ) {d : ℕ} (hd : 0 < d) :
    Nearest ((n : ℚ) / d * one) (roundUnits (n * one) d) := by
  have h := nearest_roundUnits (n * one) hd
  rwa [Nat.cast_mul, mul_div_right_comm] at h

theorem ofRatio?_eq_some_iff {n d : ℕ} (hd : 0 < d) :
    ofRatio? negative n d = some x ↔ Rounds negative ((n : ℚ) / d) x := by
  have hnearest := nearest_quotient n hd
  unfold ofRatio?
  dsimp only
  constructor
  · intro h
    split at h
    · cases h
      exact ⟨rfl, hnearest⟩
    · cases h
  · rintro ⟨hnegative, hx⟩
    have hunits : x.units = roundUnits (n * one) d :=
      Nearest.unique (mul_one_nonneg (by positivity)) hx hnearest
    rw [dif_pos (hunits ▸ x.fits.1), Option.some.injEq]
    exact eq_of_parts hnegative.symm hunits.symm

theorem rounds_ofInt (n : ℤ) (h : n.natAbs ≤ Nat.pow 2 64) :
    Rounds (decide (n < 0)) n.natAbs (ofInt n h) := by
  have hnearest := nearest_quotient n.natAbs Nat.one_pos
  rw [Nat.cast_one, div_one] at hnearest
  exact ⟨rfl, hnearest⟩

/-- An exact number is rounded to a number of the format exactly if its magnitude is below the last
middle. -/
theorem exists_rounds_iff (negative : Bool) (h0 : 0 ≤ q) :
    (∃ x, Rounds negative q x) ↔ q * one < lastMiddle := by
  constructor
  · rintro ⟨x, hx⟩
    exact hx.nearest.lt_limit_iff.mp x.fits.1
  · intro hlt
    have hcast : ((q.num.toNat : ℕ) : ℚ) / q.den = q := by
      have hnum : ((q.num.toNat : ℕ) : ℤ) = q.num := Int.toNat_of_nonneg (Rat.num_nonneg.mpr h0)
      rw [← Int.cast_natCast, hnum, Rat.num_div_den]
    have hnearest := nearest_quotient q.num.toNat q.den_pos
    rw [hcast] at hnearest
    exact ⟨⟨negative, _, hnearest.lt_limit_iff.mpr hlt, hnearest.hasSignificand⟩, rfl, hnearest⟩

/-! ## Very large and very small magnitudes -/

theorem not_rounds_of_le (h : 10 ^ 400 ≤ q) : ¬Rounds negative q x := by
  intro hx
  have hmiddle : (lastMiddle : ℚ) ≤ (10 ^ 400 * one : ℕ) := Nat.cast_le.mpr (by decide +kernel)
  have hlt := hx.nearest.lt_limit_iff.mp x.fits.1
  rw [Nat.cast_mul, Nat.cast_pow, Nat.cast_ofNat] at hmiddle
  exact absurd (hlt.trans_le hmiddle) (not_lt.mpr (mul_le_mul_of_nonneg_right h cast_one_pos.le))

theorem rounds_iff_of_le (h0 : 0 ≤ q) (h : q * 10 ^ 401 ≤ 2) :
    Rounds negative q x ↔ x = zero negative := by
  have hunit : ((4 * one : ℕ) : ℚ) ≤ (10 ^ 401 : ℕ) := Nat.cast_le.mpr (by decide +kernel)
  rw [Nat.cast_pow, Nat.cast_ofNat, Nat.cast_mul, Nat.cast_ofNat] at hunit
  have hmul := (mul_le_mul_of_nonneg_left hunit h0).trans h
  have hhalf : 2 * (q * one) ≤ 1 := by linarith
  have hzero {y : Binary64} (hy : Rounds negative q y) : y = zero negative :=
    eq_of_parts hy.negative_eq (hy.nearest.eq_zero (mul_one_nonneg h0) hhalf)
  constructor
  · exact hzero
  · rintro rfl
    have hmiddle : (1 : ℚ) ≤ lastMiddle := Nat.one_le_cast.mpr (by decide +kernel)
    have hlt : q * one < lastMiddle := by linarith
    obtain ⟨y, hy⟩ := (exists_rounds_iff negative h0).mpr hlt
    exact hzero hy ▸ hy

end Binary64

namespace Decimal

open Binary64

/-! ## Decimals -/

/-- The magnitude of a decimal as a ratio. -/
def magnitude (x : Decimal) : ℚ :=
  x.coefficient * 10 ^ x.exponent

theorem mul_zpow_nonneg (c : ℕ) (e : ℤ) : 0 ≤ (c : ℚ) * 10 ^ e :=
  mul_nonneg (Nat.cast_nonneg c) (zpow_nonneg (by norm_num) e)

theorem magnitude_nonneg (x : Decimal) : 0 ≤ x.magnitude :=
  mul_zpow_nonneg _ _

theorem ten_zpow_eq (e : ℤ) :
    (10 : ℚ) ^ e = ((10 ^ e.toNat : ℕ) : ℚ) / ((10 ^ (-e).toNat : ℕ) : ℚ) := by
  obtain ⟨k, rfl | rfl⟩ := e.eq_nat_or_neg
  · simp
  · simp

theorem le_mul_zpow {c : ℕ} (hc : 0 < c) {e : ℤ} (he : 400 ≤ e) :
    (10 : ℚ) ^ 400 ≤ c * 10 ^ e := by
  have hone : (1 : ℚ) ≤ c := Nat.one_le_cast.mpr hc
  calc (10 : ℚ) ^ 400 = 10 ^ (400 : ℤ) := rfl
    _ ≤ 10 ^ e := zpow_le_zpow_right₀ (by norm_num) he
    _ ≤ c * 10 ^ e := le_mul_of_one_le_left (zpow_nonneg (by norm_num) e) hone

theorem mul_zpow_le (c : ℕ) {e : ℤ} (he : e ≤ -(c.log2 + 401 : ℤ)) :
    (c : ℚ) * 10 ^ e * 10 ^ 401 ≤ 2 := by
  have hc : (c : ℚ) ≤ 2 * 10 ^ c.log2 := by
    have hlog : c < 2 ^ (c.log2 + 1) := Nat.lt_log2_self
    have hten : 2 ^ c.log2 ≤ 10 ^ c.log2 := Nat.pow_le_pow_left (by decide) _
    exact_mod_cast (by omega : c ≤ 2 * 10 ^ c.log2)
  calc (c : ℚ) * 10 ^ e * 10 ^ 401
      ≤ 2 * 10 ^ c.log2 * 10 ^ (-(c.log2 + 401 : ℤ)) * 10 ^ 401 := by
        gcongr
        norm_num
    _ = 2 := by
        rw [zpow_neg, zpow_add₀ (by norm_num), zpow_natCast]
        field_simp

/-- Beyond the cut of the exponent all magnitudes are too large, or nearest to zero, or zero. -/
theorem rounds_cut_iff (d : Decimal) {negative : Bool} {x : Binary64} :
    Rounds negative (d.coefficient * 10 ^ d.boundedExponent) x ↔ Rounds negative d.magnitude x := by
  unfold magnitude
  rcases d.coefficient.eq_zero_or_pos with hc | hc
  · rw [hc, Nat.cast_zero, zero_mul, zero_mul]
  by_cases hlow : d.exponent < -(d.coefficient.log2 + 401 : ℤ)
  · have hcut : d.boundedExponent = -(d.coefficient.log2 + 401 : ℤ) := by
      unfold boundedExponent
      omega
    rw [hcut, rounds_iff_of_le (mul_zpow_nonneg _ _) (mul_zpow_le _ le_rfl),
      rounds_iff_of_le (mul_zpow_nonneg _ _) (mul_zpow_le _ hlow.le)]
  by_cases hhigh : 400 < d.exponent
  · have hcut : d.boundedExponent = 400 := by
      unfold boundedExponent
      omega
    rw [hcut]
    exact iff_of_false (not_rounds_of_le (le_mul_zpow hc le_rfl))
      (not_rounds_of_le (le_mul_zpow hc hhigh.le))
  · have hcut : d.boundedExponent = d.exponent := by
      unfold boundedExponent
      omega
    rw [hcut]

theorem toBinary64?_eq_some_iff {d : Decimal} {x : Binary64} :
    d.toBinary64? = some x ↔ Rounds d.negative d.magnitude x := by
  unfold toBinary64?
  rw [Nat.pow_eq, Nat.pow_eq, ofRatio?_eq_some_iff (Nat.pow_pos (by decide)), ← d.rounds_cut_iff,
    ten_zpow_eq, Nat.cast_mul, mul_div_assoc]

end Decimal

end Verdict
