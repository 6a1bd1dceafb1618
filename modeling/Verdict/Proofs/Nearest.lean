import Mathlib.Data.Rat.Floor
import Mathlib.Tactic.Linarith
import Mathlib.Tactic.Ring
import Verdict.Number.Binary64

/-!
# The nearest magnitude

Magnitudes are counted in units of `2^-1074`. Those with a significand of at most 53 bits form the
grid on which numbers are rounded, and which has no upper end. A ratio is rounded to the nearest
point of the grid, and halfway between two points to the one whose bits end in a zero.

1. A ratio lies between two neighbours `s * 2^p` and `(s + 1) * 2^p` of the grid (`exists_cell`).
   Nothing of the grid is strictly between them (`Canonical.le_or_ge`), and their last bits differ
   (`magnitudeBits_mod_two`).
2. So the nearest magnitude is one of the two (`Nearest.eq_low_or_high`), there is only one
   (`Nearest.unique`), and it grows with the ratio (`Nearest.mono`).
3. Rounding a quotient finds it (`nearest_roundUnits`), and it is below the limit of the format
   exactly if the ratio is below the middle of the last step (`Nearest.lt_limit_iff`). Below the
   limit no magnitude has the bits of infinity or of a NaN (`bits_lt_infinityBits`).
-/

namespace Verdict.Binary64

/-! ## The grid -/

/-- A magnitude with a significand of at most 53 bits at some power of two, of any size. -/
def HasSignificand (units : ℕ) : Prop :=
  ∃ significand power, significand ≤ 2 ^ 53 ∧ units = significand * 2 ^ power

theorem hasSignificand_units (x : Binary64) : HasSignificand x.units :=
  x.fits.2

/-- A significand and a power as bits hold them: all 53 bits are used unless the power is the least
one. -/
structure Canonical (s p : ℕ) : Prop where
  full : p = 0 ∨ 2 ^ 52 ≤ s
  lt : s < 2 ^ 53

theorem canonical_div (m : ℕ) : Canonical (m / 2 ^ (m.log2 - 52)) (m.log2 - 52) := by
  refine ⟨?_, ?_⟩
  · rcases Nat.le_total m.log2 52 with hle | hge
    · exact .inl (by omega)
    · right
      have hm : m ≠ 0 := by
        rintro rfl
        exact absurd hge (by decide)
      rw [Nat.le_div_iff_mul_le (Nat.two_pow_pos _), ← Nat.pow_add, Nat.add_sub_cancel' hge]
      exact Nat.log2_self_le hm
  · rw [Nat.div_lt_iff_lt_mul (Nat.two_pow_pos _), ← Nat.pow_add]
    calc m < 2 ^ (m.log2 + 1) := Nat.lt_log2_self
      _ ≤ 2 ^ (53 + (m.log2 - 52)) := Nat.pow_le_pow_right (by decide) (by omega)

namespace Canonical

variable {s p : ℕ}

theorem hasSignificand_low (h : Canonical s p) : HasSignificand (s * 2 ^ p) :=
  ⟨s, p, h.lt.le, rfl⟩

theorem hasSignificand_high (h : Canonical s p) : HasSignificand ((s + 1) * 2 ^ p) :=
  ⟨s + 1, p, h.lt, rfl⟩

/-- Nothing of the grid lies strictly between two neighbours. -/
theorem le_or_ge (h : Canonical s p) {other : ℕ} (ho : HasSignificand other) :
    other ≤ s * 2 ^ p ∨ (s + 1) * 2 ^ p ≤ other := by
  obtain ⟨t, k, ht, rfl⟩ := ho
  by_cases hk : p ≤ k
  · have hsplit : t * 2 ^ k = t * 2 ^ (k - p) * 2 ^ p := by
      rw [Nat.mul_assoc, ← Nat.pow_add, Nat.sub_add_cancel hk]
    rw [hsplit]
    rcases Nat.lt_or_ge s (t * 2 ^ (k - p)) with hlt | hge
    · exact .inr (Nat.mul_le_mul_right _ hlt)
    · exact .inl (Nat.mul_le_mul_right _ hge)
  · -- at a smaller power even a full significand does not get past the low neighbour
    have hs : 2 ^ 52 ≤ s := h.full.resolve_left (by omega)
    left
    calc t * 2 ^ k ≤ 2 ^ 53 * 2 ^ (p - 1) :=
          Nat.mul_le_mul ht (Nat.pow_le_pow_right (by decide) (by omega))
      _ = 2 ^ 52 * 2 ^ p := by
          rw [← Nat.pow_add, ← Nat.pow_add]
          congr 1
          omega
      _ ≤ s * 2 ^ p := Nat.mul_le_mul_right _ hs

end Canonical

/-- The last bit of a magnitude is that of its significand. -/
theorem magnitudeBits_mod_two {s p : ℕ} (hfull : p = 0 ∨ 2 ^ 52 ≤ s) (hle : s ≤ 2 ^ 53) :
    magnitudeBits (s * 2 ^ p) % 2 = s % 2 := by
  have hp := Nat.two_pow_pos p
  unfold magnitudeBits
  simp only [Nat.pow_eq]
  by_cases hs : s < 2 ^ 52
  · obtain rfl : p = 0 := hfull.resolve_right (by omega)
    rw [Nat.pow_zero, Nat.mul_one, if_pos hs]
  · have hge : 2 ^ 52 ≤ s * 2 ^ p := (Nat.not_lt.mp hs).trans (Nat.le_mul_of_pos_right s hp)
    rw [if_neg (by omega)]
    rcases Nat.lt_or_eq_of_le hle with hlt | rfl
    · have hlog : (s * 2 ^ p).log2 = 52 + p := by
        refine (Nat.log2_eq_iff (by omega)).mpr ⟨?_, ?_⟩
        · rw [Nat.pow_add]
          exact Nat.mul_le_mul_right _ (Nat.not_lt.mp hs)
        · rw [Nat.add_right_comm, Nat.pow_add]
          exact Nat.mul_lt_mul_of_pos_right hlt hp
      rw [hlog, Nat.add_sub_cancel_left, Nat.mul_div_cancel _ hp]
      omega
    · -- a carry into the next power halves the significand, which stays even
      have hcarry : 2 ^ 53 * 2 ^ p = 2 ^ 52 * 2 ^ (p + 1) := by
        rw [← Nat.pow_add, ← Nat.pow_add]
        congr 1
        omega
      have hlog : (2 ^ 53 * 2 ^ p).log2 = 52 + (p + 1) := by
        rw [hcarry, ← Nat.pow_add, Nat.log2_two_pow]
      rw [hlog, Nat.add_sub_cancel_left, hcarry, Nat.mul_div_cancel _ (Nat.two_pow_pos _)]
      omega

theorem Canonical.magnitudeBits_low {s p : ℕ} (h : Canonical s p) :
    magnitudeBits (s * 2 ^ p) % 2 = s % 2 :=
  magnitudeBits_mod_two h.full h.lt.le

theorem Canonical.magnitudeBits_high {s p : ℕ} (h : Canonical s p) :
    magnitudeBits ((s + 1) * 2 ^ p) % 2 = (s + 1) % 2 :=
  magnitudeBits_mod_two (h.full.imp_right Nat.le_succ_of_le) h.lt

/-- Every ratio lies between two neighbours of the grid. -/
theorem exists_cell {q : ℚ} (h : 0 ≤ q) :
    ∃ s p, Canonical s p ∧ ((s * 2 ^ p : ℕ) : ℚ) ≤ q ∧ q < ((s + 1) * 2 ^ p : ℕ) := by
  let p := ⌊q⌋₊.log2 - 52
  refine ⟨⌊q⌋₊ / 2 ^ p, p, canonical_div _, ?_, ?_⟩
  · exact (Nat.le_floor_iff h).mp (Nat.div_mul_le_self _ _)
  · refine (Nat.floor_lt h).mp ?_
    rw [Nat.mul_comm]
    exact Nat.lt_mul_div_succ _ (Nat.two_pow_pos p)

/-! ## Distances -/

theorem add_le_two_mul {q u v : ℚ} (hlt : v < u) (h : |q - u| ≤ |q - v|) : u + v ≤ 2 * q := by
  have hu := neg_le_abs (q - u)
  rcases abs_cases (q - v) with ⟨hv, -⟩ | ⟨hv, -⟩ <;> rw [hv] at h <;> linarith

theorem two_mul_le_add {q u v : ℚ} (hlt : v < u) (h : |q - v| ≤ |q - u|) : 2 * q ≤ u + v := by
  have hv := le_abs_self (q - v)
  rcases abs_cases (q - u) with ⟨hu, -⟩ | ⟨hu, -⟩ <;> rw [hu] at h <;> linarith

/-! ## The nearest magnitude -/

/-- The magnitude is the nearest one of the grid, and its last bit is zero if another one is as
near. -/
structure Nearest (q : ℚ) (units : ℕ) : Prop where
  hasSignificand : HasSignificand units
  closest : ∀ other, HasSignificand other → |q - units| ≤ |q - other|
  even_of_tie : ∀ other, HasSignificand other → other ≠ units → |q - other| = |q - units| →
    magnitudeBits units % 2 = 0

theorem nearest_self {units : ℕ} (h : HasSignificand units) : Nearest units units := by
  refine ⟨h, fun other _ => ?_, fun other _ hne htie => ?_⟩
  · rw [sub_self, abs_zero]
    exact abs_nonneg _
  · rw [sub_self, abs_zero, abs_eq_zero, sub_eq_zero] at htie
    exact absurd (Nat.cast_injective htie).symm hne

namespace Canonical

variable {s p : ℕ} {q : ℚ}

/-- Between two neighbours nothing of the grid is nearer than one of the two. -/
theorem neighbour_nearer (h : Canonical s p) (hlow : ((s * 2 ^ p : ℕ) : ℚ) ≤ q)
    (hhigh : q ≤ ((s + 1) * 2 ^ p : ℕ)) {other : ℕ} (ho : HasSignificand other) :
    (q - (s * 2 ^ p : ℕ) ≤ |q - other| ∧ (|q - other| = q - (s * 2 ^ p : ℕ) → other = s * 2 ^ p)) ∨
      (((s + 1) * 2 ^ p : ℕ) - q ≤ |q - other| ∧
        (|q - other| = ((s + 1) * 2 ^ p : ℕ) - q → other = (s + 1) * 2 ^ p)) := by
  rcases h.le_or_ge ho with hle | hge
  · left
    have hcast : (other : ℚ) ≤ (s * 2 ^ p : ℕ) := Nat.cast_le.mpr hle
    rw [abs_of_nonneg (by linarith)]
    exact ⟨by linarith, fun heq => Nat.cast_injective (sub_right_injective heq)⟩
  · right
    have hcast : (((s + 1) * 2 ^ p : ℕ) : ℚ) ≤ other := Nat.cast_le.mpr hge
    rw [abs_sub_comm, abs_of_nonneg (by linarith)]
    exact ⟨by linarith, fun heq => Nat.cast_injective (sub_left_injective heq)⟩

theorem add_neighbours (s p : ℕ) :
    ((s * 2 ^ p : ℕ) : ℚ) + ((s + 1) * 2 ^ p : ℕ) = ((2 * s + 1) * 2 ^ p : ℕ) := by
  push_cast
  ring

theorem nearest_low (h : Canonical s p) (hlow : ((s * 2 ^ p : ℕ) : ℚ) ≤ q)
    (hmid : 2 * q ≤ ((2 * s + 1) * 2 ^ p : ℕ))
    (heven : 2 * q = ((2 * s + 1) * 2 ^ p : ℕ) → s % 2 = 0) : Nearest q (s * 2 ^ p) := by
  have hsum := add_neighbours s p
  have hhigh : q ≤ ((s + 1) * 2 ^ p : ℕ) := by linarith
  have hdist : |q - (s * 2 ^ p : ℕ)| = q - (s * 2 ^ p : ℕ) := abs_of_nonneg (by linarith)
  refine ⟨h.hasSignificand_low, fun other ho => ?_, fun other ho hne htie => ?_⟩
  · rw [hdist]
    rcases h.neighbour_nearer hlow hhigh ho with ⟨hle, -⟩ | ⟨hle, -⟩ <;> linarith
  · rw [hdist] at htie
    rw [h.magnitudeBits_low]
    rcases h.neighbour_nearer hlow hhigh ho with ⟨-, heq⟩ | ⟨hle, -⟩
    · exact absurd (heq htie) hne
    · exact heven (by linarith)

/-- From the middle on the high neighbour is nearest; in the middle its significand has to be
even. -/
theorem nearest_high (h : Canonical s p) (hhigh : q ≤ ((s + 1) * 2 ^ p : ℕ))
    (hmid : ((2 * s + 1) * 2 ^ p : ℕ) ≤ 2 * q)
    (heven : 2 * q = ((2 * s + 1) * 2 ^ p : ℕ) → (s + 1) % 2 = 0) :
    Nearest q ((s + 1) * 2 ^ p) := by
  have hsum := add_neighbours s p
  have hlow : ((s * 2 ^ p : ℕ) : ℚ) ≤ q := by linarith
  have hdist : |q - ((s + 1) * 2 ^ p : ℕ)| = ((s + 1) * 2 ^ p : ℕ) - q := by
    rw [abs_sub_comm]
    exact abs_of_nonneg (by linarith)
  refine ⟨h.hasSignificand_high, fun other ho => ?_, fun other ho hne htie => ?_⟩
  · rw [hdist]
    rcases h.neighbour_nearer hlow hhigh ho with ⟨hle, -⟩ | ⟨hle, -⟩ <;> linarith
  · rw [hdist] at htie
    rw [h.magnitudeBits_high]
    rcases h.neighbour_nearer hlow hhigh ho with ⟨hle, -⟩ | ⟨-, heq⟩
    · exact heven (by linarith)
    · exact absurd (heq htie) hne

end Canonical

namespace Nearest

variable {q r : ℚ} {u v : ℕ}

/-- The nearest magnitude is one of the two neighbours. -/
theorem eq_low_or_high (h : Nearest q u) {s p : ℕ} (hc : Canonical s p)
    (hlow : ((s * 2 ^ p : ℕ) : ℚ) ≤ q) (hhigh : q ≤ ((s + 1) * 2 ^ p : ℕ)) :
    u = s * 2 ^ p ∨ u = (s + 1) * 2 ^ p := by
  have hl := h.closest _ hc.hasSignificand_low
  rw [abs_of_nonneg (sub_nonneg.mpr hlow)] at hl
  have hr := h.closest _ hc.hasSignificand_high
  rw [abs_sub_comm q ((s + 1) * 2 ^ p : ℕ), abs_of_nonneg (sub_nonneg.mpr hhigh)] at hr
  rcases hc.neighbour_nearer hlow hhigh h.hasSignificand with ⟨hle, heq⟩ | ⟨hle, heq⟩
  · exact .inl (heq (le_antisymm hl hle))
  · exact .inr (heq (le_antisymm hr hle))

/-- No ratio has two nearest magnitudes: of two neighbours one has an odd significand. -/
theorem unique (h0 : 0 ≤ q) (hu : Nearest q u) (hv : Nearest q v) : u = v := by
  by_contra hne
  obtain ⟨s, p, hc, hlow, hhigh⟩ := exists_cell h0
  have htie : |q - v| = |q - u| :=
    le_antisymm (hv.closest u hu.hasSignificand) (hu.closest v hv.hasSignificand)
  have hueven := hu.even_of_tie v hv.hasSignificand (Ne.symm hne) htie
  have hveven := hv.even_of_tie u hu.hasSignificand hne htie.symm
  have hs := hc.magnitudeBits_low
  have hs' := hc.magnitudeBits_high
  rcases hu.eq_low_or_high hc hlow hhigh.le with rfl | rfl <;>
    rcases hv.eq_low_or_high hc hlow hhigh.le with rfl | rfl
  · exact hne rfl
  · omega
  · omega
  · exact hne rfl

/-- A larger ratio has no smaller nearest magnitude. -/
theorem mono (h0 : 0 ≤ q) (hqr : q ≤ r) (hu : Nearest q u) (hv : Nearest r v) : u ≤ v := by
  rcases hqr.eq_or_lt with rfl | hlt
  · exact (unique h0 hu hv).le
  · by_contra hgt
    have hcast : (v : ℚ) < u := Nat.cast_lt.mpr (by omega)
    -- `q` is not below the middle of the two, and `r` not above it
    have hq := add_le_two_mul hcast (hu.closest v hv.hasSignificand)
    have hr := two_mul_le_add hcast (hv.closest u hu.hasSignificand)
    linarith

theorem eq_zero (h0 : 0 ≤ q) (hq : 2 * q ≤ 1) (h : Nearest q u) : u = 0 := by
  have hzero : Canonical 0 0 := ⟨.inl rfl, by decide⟩
  have hnearest : Nearest q (0 * 2 ^ 0) :=
    hzero.nearest_low (by simpa using h0) (by simpa using hq) (fun _ => rfl)
  exact unique h0 h hnearest

end Nearest

/-! ## The limit of the format -/

/-- The middle between the largest magnitude of the format, `(2^53 - 1) * 2^2045`, and the limit. -/
def lastMiddle : ℕ :=
  (2 ^ 54 - 1) * 2 ^ 2044

theorem canonical_last : Canonical (2 ^ 53 - 1) 2045 :=
  ⟨.inr (by decide), by decide⟩

theorem limit_eq : limit = (2 ^ 53 - 1 + 1) * 2 ^ 2045 := by
  decide +kernel

theorem two_mul_lastMiddle : 2 * lastMiddle = (2 * (2 ^ 53 - 1) + 1) * 2 ^ 2045 := by
  decide +kernel

theorem nearest_lastMiddle : Nearest lastMiddle limit := by
  rw [limit_eq]
  refine canonical_last.nearest_high ?_ ?_ (fun _ => by decide)
  · exact Nat.cast_le.mpr (by decide +kernel)
  · rw [← two_mul_lastMiddle, Nat.cast_mul, Nat.cast_ofNat]

/-- A ratio is rounded below the limit of the format exactly if it is below the last middle. -/
theorem Nearest.lt_limit_iff {q : ℚ} {u : ℕ} (h : Nearest q u) :
    u < limit ↔ q < lastMiddle := by
  constructor
  · intro hu
    by_contra hge
    have hle := nearest_lastMiddle.mono (Nat.cast_nonneg _) (not_lt.mp hge) h
    omega
  · intro hq
    by_contra hge
    have hsum := Canonical.add_neighbours (2 ^ 53 - 1) 2045
    rw [← limit_eq, ← two_mul_lastMiddle, Nat.cast_mul 2 lastMiddle, Nat.cast_ofNat] at hsum
    have hlast : (2 ^ 53 - 1) * 2 ^ 2045 < limit := by decide +kernel
    -- nearer than the largest magnitude of the format, a magnitude puts the ratio past the middle
    have hu : (limit : ℚ) ≤ u := Nat.cast_le.mpr (by omega)
    have hlt : (((2 ^ 53 - 1) * 2 ^ 2045 : ℕ) : ℚ) < u := Nat.cast_lt.mpr (by omega)
    have hmiddle := add_le_two_mul hlt (h.closest _ canonical_last.hasSignificand_low)
    linarith

/-! ## Quotients -/

/-- Rounding a quotient takes the nearest magnitude. -/
theorem nearest_roundUnits (n : ℕ) {d : ℕ} (hd : 0 < d) :
    Nearest ((n : ℚ) / d) (roundUnits n d) := by
  let p := (n / d).log2 - 52
  have hc : Canonical (n / d / 2 ^ p) p := canonical_div (n / d)
  have hD : 0 < d * 2 ^ p := Nat.mul_pos hd (Nat.two_pow_pos p)
  have hn := Nat.div_add_mod n (d * 2 ^ p)
  have hr := Nat.mod_lt n hD
  show Nearest _ (roundQuotient n (d * 2 ^ p) * 2 ^ p)
  rw [Nat.div_div_eq_div_mul] at hc
  unfold roundQuotient
  generalize n / (d * 2 ^ p) = s at *
  generalize n % (d * 2 ^ p) = r at *
  have hdq : (0 : ℚ) < d := Nat.cast_pos.mpr hd
  have hle (a : ℕ) : 2 * ((n : ℚ) / d) ≤ a ↔ 2 * n ≤ a * d := by
    rw [← mul_div_assoc, div_le_iff₀ hdq]
    exact_mod_cast Iff.rfl
  have hge (a : ℕ) : a ≤ 2 * ((n : ℚ) / d) ↔ a * d ≤ 2 * n := by
    rw [← mul_div_assoc, le_div_iff₀ hdq]
    exact_mod_cast Iff.rfl
  have hlow : s * 2 ^ p * d = d * 2 ^ p * s := by ring
  have hmid : (2 * s + 1) * 2 ^ p * d = 2 * (d * 2 ^ p * s) + d * 2 ^ p := by ring
  have hhigh : (s + 1) * 2 ^ p * d = d * 2 ^ p * s + d * 2 ^ p := by ring
  split
  · next h =>
    refine hc.nearest_low ?_ ((hle _).mpr (by omega)) (fun heq => ?_)
    · rw [le_div_iff₀ hdq]
      exact_mod_cast (by omega : s * 2 ^ p * d ≤ n)
    · have hmiddle := (hge _).mp heq.ge
      omega
  · next h =>
    refine hc.nearest_high ?_ ((hge _).mpr (by omega)) (fun heq => ?_)
    · rw [div_le_iff₀ hdq]
      exact_mod_cast (by omega : n ≤ (s + 1) * 2 ^ p * d)
    · have hmiddle := (hle _).mp heq.le
      omega

end Verdict.Binary64
