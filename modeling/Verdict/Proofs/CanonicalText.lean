import Mathlib.Data.Nat.Cast.Field
import Verdict.Proofs.Coherence
import Verdict.Proofs.NumericText

/-!
# The canonical text of a number reads back

The canonical text of a number is one of the grammar of literals, and it writes a magnitude that the
number rounds.

1. Digits, with a sign in front or none, write their whole number (`Numeral.writes_digits`). That is
   the text of a whole number, and of a binary64 number without a fraction below `10^21`.
2. The layout of a decimal, positional or with a power of ten, writes exactly that decimal
   (`Decimal.writes_layout`).
3. The shortest decimal of a number is one that the number rounds: each candidate is read back
   before it is taken, and the exact form stands in for them (`Binary64.rounds_shortest`).

So a value that has a text is level with it.
-/

namespace Verdict

open Json Numeral

namespace Numeral

/-! ## Texts without white space -/

/-- No character of the text is white space. -/
def NoBlank (cs : List Char) : Prop :=
  ∀ c ∈ cs, Text.isBlank c = false

theorem Digits.noBlank {cs : List Char} (h : Digits cs) : NoBlank cs := by
  intro c hc
  have hword : Text.isWordChar c = true := by
    rw [Text.isWordChar, Char.isAlphanum, h c hc, Bool.or_true, Bool.true_or, Bool.true_or]
  exact Text.isBlank_eq_false_of_isWordChar hword

theorem Sign.noBlank {sign : List Char} {negative : Bool} (h : Sign sign negative) :
    NoBlank sign := by
  cases h with
  | absent => exact digits_nil.noBlank
  | plus => exact List.forall_mem_singleton.mpr (by decide)
  | minus => exact List.forall_mem_singleton.mpr (by decide)

theorem Significand.noBlank {text : List Char} {q : ℚ} (h : Significand text q) : NoBlank text := by
  cases h with
  | whole hne hds => exact hds.noBlank
  | pointed hne hds hfs =>
    exact List.forall_mem_append.mpr
      ⟨hds.noBlank, List.forall_mem_cons.mpr ⟨by decide, hfs.noBlank⟩⟩
  | fraction hne hfs => exact List.forall_mem_cons.mpr ⟨by decide, hfs.noBlank⟩

theorem Power.noBlank {text : List Char} {e : ℤ} (h : Power text e) : NoBlank text := by
  cases h with
  | absent => exact digits_nil.noBlank
  | written hmark hsign hne hds =>
    refine List.forall_mem_cons.mpr ⟨?_, List.forall_mem_append.mpr ⟨hsign.noBlank, hds.noBlank⟩⟩
    rcases hmark with rfl | rfl <;> decide

theorem Writes.trim_eq {text : List Char} {negative : Bool} {q : ℚ} (h : Writes text negative q) :
    Text.trim text = text := by
  obtain ⟨hsign, hbody, hpower⟩ := h
  have hblank : NoBlank _ := List.forall_mem_append.mpr
    ⟨List.forall_mem_append.mpr ⟨hsign.noBlank, hbody.noBlank⟩, hpower.noBlank⟩
  refine Text.trim_eq_self ?_ ?_ <;> rw [Option.any_eq_false] <;> intro c hc
  · simpa using hblank c (List.mem_of_head? hc)
  · simpa using hblank c (List.mem_of_getLast? hc)

theorem Writes.numberOfText? {text : List Char} {negative : Bool} {q : ℚ} {x : Binary64}
    (h : Writes text negative q) (hx : x.Rounds negative q) :
    numberOfText? (String.ofList text) = some x := by
  refine (numberOfText?_of_writes ?_).mpr hx
  rw [String.toList_ofList, h.trim_eq]
  exact h

/-! ## Whole numbers -/

theorem digits_toDigits (k : ℕ) : Digits (Nat.toDigits 10 k) :=
  fun _ hc => Nat.isDigit_of_mem_toDigits (by decide) (by decide) hc

theorem value_toDigits (k : ℕ) : value (Nat.toDigits 10 k) = k :=
  Nat.ofDigitChars_toDigits (by decide) (by decide)

theorem sign_of_negative (negative : Bool) : Sign (if negative then ['-'] else []) negative := by
  cases negative
  · exact .absent
  · exact .minus

/-- Digits with a sign in front or none write their whole number. -/
theorem writes_digits (negative : Bool) (k : ℕ) :
    Writes ((if negative then ['-'] else []) ++ Nat.toDigits 10 k) negative k := by
  have hbody := Significand.whole Nat.toDigits_ne_nil (digits_toDigits k)
  have h := Writes.mk (sign_of_negative negative) hbody .absent
  rwa [List.append_nil, zpow_zero, mul_one, value_toDigits] at h

theorem writes_integerText (n : ℤ) : Writes (Number.integerText n) (decide (n < 0)) n.natAbs := by
  have h := writes_digits (decide (n < 0)) n.natAbs
  simp only [decide_eq_true_eq] at h
  exact h

end Numeral

/-! ## The layout of decimals -/

namespace Decimal

theorem digits_zeros (k : ℕ) : Digits (List.replicate k '0') := by
  intro c hc
  rw [List.eq_of_mem_replicate hc]
  decide

theorem value_zeros (k : ℕ) : value (List.replicate k '0') = 0 := by
  induction k with
  | zero => rfl
  | succ k ih =>
    rw [List.replicate_succ', value_append, ih]
    rfl

theorem value_zeros_append (k : ℕ) (ds : List Char) :
    value (List.replicate k '0' ++ ds) = value ds := by
  rw [value_append, value_zeros, Nat.zero_mul, Nat.zero_add]

theorem value_append_zeros (ds : List Char) (k : ℕ) :
    value (ds ++ List.replicate k '0') = value ds * 10 ^ k := by
  rw [value_append, value_zeros, List.length_replicate, Nat.add_zero]

theorem significand_pointed {ds fs : List Char} (hne : ds ≠ []) (hds : Digits ds)
    (hfs : Digits fs) :
    Significand (ds ++ '.' :: fs) (value (ds ++ fs) * 10 ^ (-(fs.length : ℤ))) := by
  convert Significand.pointed hne hds hfs using 1
  rw [value_append, zpow_neg, zpow_natCast]
  push_cast
  field_simp

theorem significand_zeros_append {ds : List Char} (hds : Digits ds) (k : ℕ) :
    Significand ('0' :: '.' :: List.replicate k '0' ++ ds)
      (value ds * 10 ^ (-(k + ds.length : ℤ))) := by
  have hzero : List.replicate 1 '0' ≠ [] := List.cons_ne_nil _ _
  have h := significand_pointed hzero (digits_zeros 1) ((digits_zeros k).append hds)
  have hvalue : value (List.replicate 1 '0' ++ (List.replicate k '0' ++ ds)) = value ds := by
    rw [value_zeros_append, value_zeros_append]
  rw [hvalue, List.length_append, List.length_replicate, Nat.cast_add] at h
  exact h

theorem significand_append_zeros {ds : List Char} (hne : ds ≠ []) (hds : Digits ds) (k : ℕ) :
    Significand (ds ++ List.replicate k '0' ++ ['.', '0']) (value ds * 10 ^ (k : ℤ)) := by
  have h := significand_pointed (List.append_ne_nil_of_left_ne_nil hne _)
    (hds.append (digits_zeros k)) (digits_zeros 1)
  rw [value_append_zeros, value_append_zeros, List.length_replicate] at h
  have hscale : ((value ds * 10 ^ k * 10 ^ 1 : ℕ) : ℚ) * 10 ^ (-((1 : ℕ) : ℤ)) =
      value ds * 10 ^ (k : ℤ) := by
    rw [zpow_neg, zpow_natCast, zpow_natCast]
    push_cast
    field_simp
  rw [hscale] at h
  exact h

theorem significand_take_drop {ds : List Char} (hds : Digits ds) {k : ℕ} (hk : 0 < k)
    (hlt : k < ds.length) :
    Significand (ds.take k ++ '.' :: ds.drop k) (value ds * 10 ^ (k - ds.length : ℤ)) := by
  have hne : ds.take k ≠ [] := by
    intro hnil
    have hlength := congrArg List.length hnil
    rw [List.length_take, List.length_nil] at hlength
    omega
  have hdrop : Digits (ds.drop k) := fun c hc => hds c (List.mem_of_mem_drop hc)
  have h := significand_pointed hne (fun c hc => hds c (List.mem_of_mem_take hc)) hdrop
  rw [List.take_append_drop, List.length_drop, Nat.cast_sub hlt.le, neg_sub] at h
  exact h

theorem significand_positional {ds : List Char} (hne : ds ≠ []) (hds : Digits ds) (lead : ℤ) :
    Significand (positional ds lead) (value ds * 10 ^ (lead + 1 - ds.length)) := by
  unfold positional
  split
  · have hexponent : lead + 1 - ds.length = -((-lead - 1).toNat + ds.length : ℤ) := by omega
    rw [hexponent]
    exact significand_zeros_append hds _
  · dsimp only
    split
    · have hexponent : lead + 1 - ds.length = ((lead.toNat + 1 - ds.length : ℕ) : ℤ) := by omega
      rw [hexponent]
      exact significand_append_zeros hne hds _
    · have hexponent : lead + 1 - ds.length = ((lead.toNat + 1 : ℕ) - ds.length : ℤ) := by omega
      rw [hexponent]
      exact significand_take_drop hds (Nat.succ_pos _) (by omega)

theorem power_written (lead : ℤ) :
    Power ('e' :: (if lead < 0 then '-' else '+') :: Nat.toDigits 10 lead.natAbs) lead := by
  have hdigits := digits_toDigits lead.natAbs
  by_cases hlead : lead < 0
  · have h := Power.written (.inl rfl) .minus Nat.toDigits_ne_nil hdigits
    rw [value_toDigits, if_pos rfl, Int.ofNat_natAbs_of_nonpos hlead.le, neg_neg] at h
    rw [if_pos hlead]
    exact h
  · have h := Power.written (.inl rfl) .plus Nat.toDigits_ne_nil hdigits
    rw [value_toDigits, if_neg (by decide), Int.natAbs_of_nonneg (not_lt.mp hlead)] at h
    rw [if_neg hlead]
    exact h

theorem exists_scientific {ds : List Char} (hne : ds ≠ []) (hds : Digits ds) (lead : ℤ) :
    ∃ body power, scientific ds lead = body ++ power ∧
      Significand body (value ds * 10 ^ (1 - ds.length : ℤ)) ∧ Power power lead := by
  refine ⟨_, _, rfl, ?_, power_written lead⟩
  match ds, hne, hds with
  | [digit], hne, hds =>
    have h := Significand.whole hne hds
    rw [List.length_singleton, Nat.cast_one, sub_self, zpow_zero, mul_one]
    exact h
  | digit :: second :: rest, hne, hds =>
    exact significand_take_drop hds Nat.one_pos (by simp)

theorem layout_eq (d : Decimal) :
    d.layout = (if d.negative then ['-'] else []) ++
      if -5 ≤ d.leadingExponent ∧ d.leadingExponent ≤ 15 then positional d.digits d.leadingExponent
      else scientific d.digits d.leadingExponent := by
  unfold layout
  dsimp only
  split <;> rfl

/-- The layout of a decimal writes that decimal. -/
theorem writes_layout (d : Decimal) : Writes d.layout d.negative d.magnitude := by
  have hne : d.digits ≠ [] := Nat.toDigits_ne_nil
  have hds : Digits d.digits := digits_toDigits d.coefficient
  have hvalue : value d.digits = d.coefficient := value_toDigits d.coefficient
  have hsign := sign_of_negative d.negative
  rw [layout_eq]
  unfold magnitude
  by_cases hlead : -5 ≤ d.leadingExponent ∧ d.leadingExponent ≤ 15
  · have h := Writes.mk hsign (significand_positional hne hds d.leadingExponent) .absent
    have hexponent : d.leadingExponent + 1 - d.digits.length = d.exponent := by
      unfold leadingExponent
      omega
    rw [List.append_nil, zpow_zero, mul_one, hvalue, hexponent] at h
    rw [if_pos hlead]
    exact h
  · obtain ⟨body, power, hsplit, hbody, hpower⟩ := exists_scientific hne hds d.leadingExponent
    have h := Writes.mk hsign hbody hpower
    have hexponent : 1 - d.digits.length + d.leadingExponent = d.exponent := by
      unfold leadingExponent
      omega
    rw [mul_assoc, ← zpow_add₀ (by norm_num), hvalue, hexponent, List.append_assoc,
      ← hsplit] at h
    rw [if_neg hlead]
    exact h

end Decimal

/-! ## The shortest decimal -/

namespace Decimal

theorem exists_digits_eq (d : Decimal) : ∃ front,
    d.digits = front ++ List.replicate (d.digits.reverse.takeWhile (· == '0')).length '0' := by
  have hzeros : d.digits.reverse.takeWhile (· == '0') =
      List.replicate (d.digits.reverse.takeWhile (· == '0')).length '0' := by
    refine List.eq_replicate_of_mem fun c hc => ?_
    simpa using List.mem_takeWhile_imp hc
  refine ⟨(d.digits.reverse.dropWhile (· == '0')).reverse, ?_⟩
  rw [← List.reverse_replicate, ← hzeros, ← List.reverse_append, List.takeWhile_append_dropWhile,
    List.reverse_reverse]

/-- Zeros at the end of the coefficient go into the exponent. -/
theorem magnitude_stripped (d : Decimal) : d.stripped.magnitude = d.magnitude := by
  unfold stripped
  dsimp only
  split
  · next hzero => simp [magnitude, hzero]
  · obtain ⟨front, hfront⟩ := exists_digits_eq d
    generalize (d.digits.reverse.takeWhile (· == '0')).length = k at hfront
    -- the zeros at the end are a factor of the coefficient, so nothing is lost in the division
    have hcoefficient : d.coefficient = value front * 10 ^ k := by
      rw [← value_append_zeros, ← hfront]
      exact (value_toDigits d.coefficient).symm
    have hquotient : d.coefficient / Nat.pow 10 k = value front := by
      rw [hcoefficient]
      exact Nat.mul_div_cancel _ (Nat.pow_pos (by decide))
    unfold magnitude
    dsimp only
    rw [hquotient, hcoefficient, zpow_add₀ (by norm_num), zpow_natCast, Nat.cast_mul,
      Nat.cast_pow, Nat.cast_ofNat]
    ring

theorem negative_stripped (d : Decimal) : d.stripped.negative = d.negative := by
  unfold stripped
  dsimp only
  split <;> rfl

end Decimal

namespace Binary64

theorem cast_five_pow_mul : (Nat.pow 5 1074 : ℚ) * 10 ^ (-1074 : ℤ) = (one : ℚ)⁻¹ := by
  have hten : one * Nat.pow 5 1074 = 10 ^ 1074 := by decide +kernel
  have hcast : ((one * Nat.pow 5 1074 : ℕ) : ℚ) = (10 ^ 1074 : ℕ) := congrArg Nat.cast hten
  rw [Nat.cast_mul, Nat.cast_pow, Nat.cast_ofNat] at hcast
  refine eq_inv_of_mul_eq_one_right ?_
  rw [← mul_assoc, hcast, zpow_neg, zpow_ofNat, mul_inv_cancel₀ (pow_ne_zero _ (by norm_num))]

theorem magnitude_exact (x : Binary64) : x.exact.magnitude = x.magnitude := by
  unfold exact Decimal.magnitude magnitude
  dsimp only
  rw [Nat.cast_mul, mul_assoc, cast_five_pow_mul, div_eq_mul_inv]

theorem magnitude_of_isWhole {x : Binary64} (h : x.isWhole = true) : x.magnitude = x.wholePart := by
  have hdvd : one ∣ x.units := Nat.dvd_of_mod_eq_zero (beq_iff_eq.mp h)
  unfold magnitude wholePart
  rw [Nat.cast_div hdvd cast_one_pos.ne']

theorem rounds_of_readsBack {x : Binary64} {d : Decimal} (h : x.readsBack d = true) :
    Rounds d.negative d.magnitude x :=
  Decimal.toBinary64?_eq_some_iff.mp (beq_iff_eq.mp h)

theorem readsBack_of_neighbour? {x : Binary64} {cut : ℕ} {d : Decimal}
    (h : x.neighbour? cut = some d) : x.readsBack d = true := by
  unfold neighbour? at h
  exact List.find?_some h

/-- A number rounds its shortest decimal. -/
theorem rounds_shortest (x : Binary64) : Rounds x.shortest.negative x.shortest.magnitude x := by
  unfold shortest
  rw [Decimal.magnitude_stripped, Decimal.negative_stripped]
  -- which candidate is found does not matter, since each is read back first
  generalize hfound :
    ((List.range 17).findSome? fun n => x.neighbour? (x.exact.digits.length - (n + 1))) = found
  cases found with
  | none =>
    rw [Option.getD_none, magnitude_exact]
    exact x.rounds_self
  | some d =>
    obtain ⟨n, -, hneighbour⟩ := List.exists_of_findSome?_eq_some hfound
    exact rounds_of_readsBack (readsBack_of_neighbour? hneighbour)

end Binary64

/-! ## Reading the canonical text -/

namespace Number

theorem numberOfText?_text (n : Number) : numberOfText? n.text = some n.toBinary64 := by
  cases n with
  | integer n lower upper =>
    have hrange : n.natAbs ≤ 18446744073709551616 := by omega
    exact (writes_integerText n).numberOfText? (Binary64.rounds_ofInt n hrange)
  | real x =>
    unfold text toBinary64
    dsimp only
    split
    · next hwhole =>
      rw [Bool.and_eq_true] at hwhole
      refine (writes_digits x.negative x.wholePart).numberOfText? ?_
      rw [← Binary64.magnitude_of_isWhole hwhole.1]
      exact x.rounds_self
    · exact x.shortest.writes_layout.numberOfText? x.rounds_shortest

end Number

/-! ## Values and their own text -/

/-- The least positive number, `2^-1074`. -/
def Binary64.least : Binary64 :=
  ⟨false, 1, by decide +kernel, 1, 0, by decide, rfl⟩

namespace Json.Value

theorem order?_text (n : Number) : (Value.number n).order? n.text = some .eq := by
  unfold order?
  rw [Number.numberOfText?_text]
  show some (n.toBinary64.order n.toBinary64) = some .eq
  rw [Binary64.order_eq_iff.mpr rfl]

/-- The canonical text of a number is read as the same number, bit for bit, so a number, a string
and a truth value are equal to their own text and level with it. -/
theorem text_reads_back :
    (∀ n : Number, numberOfText? n.text = some n.toBinary64) ∧
      ∀ value : Value, value.IsScalar → ∃ text, value.text? = some text ∧
        value.looselyEquals text = true ∧ value.order? text = some .eq := by
  refine ⟨Number.numberOfText?_text, fun value hscalar => ?_⟩
  cases hscalar with
  | number n => exact ⟨n.text, rfl, order?_number_eq_iff.mp (order?_text n), order?_text n⟩
  | string text =>
    exact ⟨text, rfl, looselyEquals_string_iff.mpr rfl, order?_string_eq_iff.mpr (.inl rfl)⟩
  | bool b =>
    obtain ⟨text, htext⟩ := (IsScalar.bool b).exists_text?
    have hequal : (Value.bool b).looselyEquals text = true := beq_iff_eq.mpr htext
    exact ⟨text, htext, hequal, order?_bool_eq_iff.mpr hequal⟩

/-- The negative zero is read with its sign, and the least number with its power of ten. -/
theorem text_reads_back_zero_least :
    (numberOfText? "-0").map Binary64.bits = some 0x8000000000000000 ∧
    (Value.number (.real Binary64.least)).looselyEquals "5e-324" = true ∧
    (Value.number (.real Binary64.least)).order? "5e-324" = some .eq := by
  have hzero : (Number.real (Binary64.zero true)).text = "-0" := by decide +kernel
  have hleast : (Number.real Binary64.least).text = "5e-324" := by decide +kernel
  obtain ⟨hread, hlevel⟩ := text_reads_back
  obtain ⟨text, hsome, hequal, horder⟩ := hlevel (.number (.real Binary64.least)) (.number _)
  obtain rfl : "5e-324" = text := hleast.symm.trans (Option.some.inj hsome)
  refine ⟨?_, hequal, horder⟩
  rw [← hzero, hread]
  decide +kernel

end Json.Value

end Verdict
