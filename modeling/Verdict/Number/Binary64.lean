/-!
# Binary64 numbers and decimals

Finite binary64 numbers, and the exact decimals that are rounded to them.
-/

namespace Verdict

/-! ## Finite binary64 numbers

A finite number of the format is kept as a sign and a whole number of the smallest positive one,
`2^-1074`. Ratios are rounded to the nearest number of the format, and a ratio halfway between two
goes to the one with the even significand. -/

/-- The number one in units of `2^-1074`. -/
def Binary64.one : Nat :=
  Nat.pow 2 1074

/-- The least power of two that is too large for the format, `2^1024`, in units of `2^-1074`. -/
def Binary64.limit : Nat :=
  Nat.pow 2 2098

/-- A magnitude in units of `2^-1074` that the format holds: a significand of at most 53 bits at
some power of two, below the limit. -/
def Binary64.Fits (units : Nat) : Prop :=
  units < Binary64.limit ∧
    ∃ significand power, significand ≤ Nat.pow 2 53 ∧ units = significand * Nat.pow 2 power

/-- A finite binary64 number. The two zeros are told apart. -/
structure Binary64 where
  negative : Bool
  /-- The magnitude in units of `2^-1074`. -/
  units : Nat
  fits : Binary64.Fits units
deriving DecidableEq

namespace Binary64

/-! ### Rounding -/

/-- The quotient rounded to the nearest whole number, a half to the even one. -/
def roundQuotient (n d : Nat) : Nat :=
  if 2 * (n % d) < d ∨ (2 * (n % d) = d ∧ n / d % 2 = 0) then n / d else n / d + 1

/-- The quotient rounded to the nearest magnitude with a significand of 53 bits. -/
def roundUnits (n d : Nat) : Nat :=
  let shift := (n / d).log2 - 52
  roundQuotient n (d * Nat.pow 2 shift) * Nat.pow 2 shift

theorem roundQuotient_le (n d : Nat) : roundQuotient n d ≤ n / d + 1 := by
  unfold roundQuotient
  split <;> omega

theorem roundUnits_eq (n d : Nat) :
    ∃ significand power,
      significand ≤ Nat.pow 2 53 ∧ roundUnits n d = significand * Nat.pow 2 power := by
  show ∃ significand power, significand ≤ 2 ^ 53 ∧ roundUnits n d = significand * 2 ^ power
  refine ⟨roundQuotient n (d * 2 ^ ((n / d).log2 - 52)), (n / d).log2 - 52, ?_, rfl⟩
  have h := roundQuotient_le n (d * 2 ^ ((n / d).log2 - 52))
  have hq : n / (d * 2 ^ ((n / d).log2 - 52)) < 2 ^ 53 := by
    rw [← Nat.div_div_eq_div_mul]
    apply Nat.div_lt_of_lt_mul
    have hl : n / d < 2 ^ ((n / d).log2 + 1) := Nat.lt_log2_self
    have hp : 2 ^ ((n / d).log2 + 1) ≤ 2 ^ ((n / d).log2 - 52) * 2 ^ 53 := by
      rw [← Nat.pow_add]
      exact Nat.pow_le_pow_right (by decide) (by omega)
    omega
  omega

theorem roundUnits_le (n d : Nat) : roundUnits n d ≤ 2 * (n / d) + 1 := by
  unfold roundUnits
  simp only [Nat.pow_eq]
  have h := roundQuotient_le n (d * 2 ^ ((n / d).log2 - 52))
  rw [← Nat.div_div_eq_div_mul] at h
  have hm := Nat.div_mul_le_self (n / d) (2 ^ ((n / d).log2 - 52))
  have hp : 2 ^ ((n / d).log2 - 52) ≤ n / d + 1 := by
    rcases Nat.eq_zero_or_pos (n / d) with h0 | h0
    · simp [h0]
    · have hl := Nat.log2_self_le (n := n / d) (by omega)
      have := Nat.pow_le_pow_right (n := 2) (by decide) (Nat.sub_le (n / d).log2 52)
      omega
  have hk := Nat.mul_le_mul_right (2 ^ ((n / d).log2 - 52)) h
  rw [Nat.add_mul] at hk
  omega

/-- The nearest number to `± n / d`; none when it is too large for the format. -/
def ofRatio? (negative : Bool) (n d : Nat) : Option Binary64 :=
  let units := roundUnits (n * one) d
  if h : units < limit then some ⟨negative, units, h, roundUnits_eq _ _⟩ else none

theorem roundUnits_lt_limit {n : Nat} (h : n ≤ Nat.pow 2 64) :
    roundUnits (n * one) 1 < limit := by
  have hr := roundUnits_le (n * one) 1
  have hm := Nat.mul_le_mul_right one h
  have hl : 2 * (Nat.pow 2 64 * one) + 1 < limit := by decide +kernel
  rw [Nat.div_one] at hr
  omega

/-- The nearest number to an integer of at most 64 bits. -/
def ofInt (n : Int) (h : n.natAbs ≤ Nat.pow 2 64) : Binary64 :=
  ⟨decide (n < 0), roundUnits (n.natAbs * one) 1, roundUnits_lt_limit h, roundUnits_eq _ _⟩

/-- The zero with the given sign. -/
def zero (negative : Bool) : Binary64 :=
  ⟨negative, 0, by decide +kernel, 0, 0, by decide, rfl⟩

/-! ### Order and bits -/

/-- The number in units of `2^-1074`. The two zeros are one. -/
def signed (x : Binary64) : Int :=
  if x.negative then -(x.units : Int) else x.units

/-- How two numbers compare. -/
def order (x y : Binary64) : Ordering :=
  compare x.signed y.signed

/-- The bits of a magnitude: the biased exponent above the 52 low bits of the significand. -/
def magnitudeBits (units : Nat) : Nat :=
  if units < Nat.pow 2 52 then units
  else
    let power := units.log2 - 52
    (power + 1) * Nat.pow 2 52 + (units / Nat.pow 2 power - Nat.pow 2 52)

/-- The 64 bits of the number. -/
def bits (x : Binary64) : Nat :=
  (if x.negative then Nat.pow 2 63 else 0) + magnitudeBits x.units

/-- The number has no fraction. -/
def isWhole (x : Binary64) : Bool :=
  x.units % one == 0

/-- The magnitude without its fraction. -/
def wholePart (x : Binary64) : Nat :=
  x.units / one

end Binary64

/-! ## Decimal numbers

A decimal is a whole coefficient at a power of ten, with a sign. It is exact; a binary64 number is
its nearest neighbour in the format. -/

/-- The number `± coefficient * 10^exponent`. -/
structure Decimal where
  negative : Bool
  coefficient : Nat
  exponent : Int
deriving DecidableEq

namespace Decimal

/-- The exponent brought into the range that matters for rounding: above it every number but zero
is too large for the format, below it every number is nearest to zero. -/
def boundedExponent (x : Decimal) : Int :=
  max (-(x.coefficient.log2 + 401 : Int)) (min x.exponent 400)

/-- The nearest binary64 number; none when the decimal is too large for the format. -/
def toBinary64? (x : Decimal) : Option Binary64 :=
  Binary64.ofRatio? x.negative (x.coefficient * Nat.pow 10 x.boundedExponent.toNat)
    (Nat.pow 10 (-x.boundedExponent).toNat)

/-- The digits of the coefficient. -/
def digits (x : Decimal) : List Char :=
  Nat.toDigits 10 x.coefficient

/-- The same number without zeros at the end of the coefficient. -/
def stripped (x : Decimal) : Decimal :=
  let zeros := (x.digits.reverse.takeWhile (· == '0')).length
  if x.coefficient = 0 then ⟨x.negative, 0, 0⟩
  else ⟨x.negative, x.coefficient / Nat.pow 10 zeros, x.exponent + zeros⟩

/-- The exponent of the leading digit. -/
def leadingExponent (x : Decimal) : Int :=
  x.exponent + x.digits.length - 1

end Decimal

end Verdict
