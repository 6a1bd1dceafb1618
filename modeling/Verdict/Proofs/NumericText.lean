import Verdict.Number.Numeral
import Verdict.Proofs.Characters
import Verdict.Proofs.Rounding

/-!
# Texts that write numbers

The grammar of numeric literals as a relation between a text and the exact number that it writes: an
optional sign, digits with a point after, among or in front of them or none, and an optional power
of ten (`Numeral.Writes`). The reader accepts exactly the texts of the grammar and reads the exact
number (`ofChars?_of_writes`, `writes_of_ofChars?`), which is then rounded once
(`numberOfText?_of_writes`).
-/

namespace Verdict

open Text

namespace Numeral

/-! ## The grammar -/

/-- A run of ASCII digits, possibly empty. -/
def Digits (cs : List Char) : Prop :=
  ∀ c ∈ cs, c.isDigit = true

/-- An optional sign and whether it makes the number negative. -/
inductive Sign : List Char → Bool → Prop
  | absent : Sign [] false
  | plus : Sign ['+'] false
  | minus : Sign ['-'] true

/-- Digits and at most one point, with at least one digit, and their value. -/
inductive Significand : List Char → ℚ → Prop
  | whole {ds : List Char} (hne : ds ≠ []) (hds : Digits ds) : Significand ds (value ds)
  | pointed {ds fs : List Char} (hne : ds ≠ []) (hds : Digits ds) (hfs : Digits fs) :
    Significand (ds ++ '.' :: fs) (value ds + value fs / 10 ^ fs.length)
  | fraction {fs : List Char} (hne : fs ≠ []) (hfs : Digits fs) :
    Significand ('.' :: fs) (value fs / 10 ^ fs.length)

/-- An optional power of ten: a mark, a sign and digits. -/
inductive Power : List Char → ℤ → Prop
  | absent : Power [] 0
  | written {mark : Char} {sign ds : List Char} {negative : Bool} (hmark : mark = 'e' ∨ mark = 'E')
    (hsign : Sign sign negative) (hne : ds ≠ []) (hds : Digits ds) :
    Power (mark :: (sign ++ ds)) (if negative then -(value ds : ℤ) else value ds)

/-- The text writes the number with this sign and this magnitude. -/
inductive Writes : List Char → Bool → ℚ → Prop
  | mk {sign body power : List Char} {negative : Bool} {q : ℚ} {e : ℤ} (hsign : Sign sign negative)
    (hbody : Significand body q) (hpower : Power power e) :
    Writes (sign ++ body ++ power) negative (q * 10 ^ e)

theorem digits_nil : Digits [] := by
  intro c hc
  cases hc

theorem Digits.append {cs ds : List Char} (hcs : Digits cs) (hds : Digits ds) :
    Digits (cs ++ ds) := by
  intro c hc
  exact (List.mem_append.mp hc).elim (hcs c) (hds c)

theorem digits_takeWhile (cs : List Char) : Digits (cs.takeWhile Char.isDigit) :=
  fun _ hc => List.mem_takeWhile_imp hc

theorem ne_of_isDigit {c : Char} (h : c.isDigit = true) :
    c ≠ '-' ∧ c ≠ '+' ∧ c ≠ '.' ∧ c ≠ 'e' ∧ c ≠ 'E' := by
  refine ⟨?_, ?_, ?_, ?_, ?_⟩ <;> rintro rfl <;> exact absurd h (by decide)

/-! ## Signs -/

theorem readSign_append {sign rest : List Char} {negative : Bool} (h : Sign sign negative)
    (hrest : ∀ c, rest.head? = some c → c ≠ '-' ∧ c ≠ '+') :
    readSign (sign ++ rest) = (negative, rest) := by
  cases h with
  | absent =>
    cases rest with
    | nil => rfl
    | cons c rest =>
      obtain ⟨hminus, hplus⟩ := hrest c rfl
      simp [readSign, hminus, hplus]
  | plus => simp [readSign]
  | minus => simp [readSign]

theorem exists_sign (text : List Char) :
    ∃ sign negative rest, Sign sign negative ∧ readSign text = (negative, rest) ∧
      text = sign ++ rest := by
  cases text with
  | nil => exact ⟨[], false, [], .absent, rfl, rfl⟩
  | cons c rest =>
    by_cases hminus : c = '-'
    · subst hminus
      exact ⟨['-'], true, rest, .minus, rfl, rfl⟩
    by_cases hplus : c = '+'
    · subst hplus
      exact ⟨['+'], false, rest, .plus, rfl, rfl⟩
    · exact ⟨[], false, c :: rest, .absent, by simp [readSign, hminus, hplus], rfl⟩

/-! ## Powers of ten -/

theorem head?_ne_sign {ds : List Char} (hne : ds ≠ []) (hds : Digits ds) (after : List Char)
    (c : Char) (hc : (ds ++ after).head? = some c) : c ≠ '-' ∧ c ≠ '+' := by
  rw [List.head?_append_of_ne_nil _ hne] at hc
  have hdigit := ne_of_isDigit (hds c (List.mem_of_head? hc))
  exact ⟨hdigit.1, hdigit.2.1⟩

theorem readPower?_append {sign ds : List Char} {negative : Bool} (hsign : Sign sign negative)
    (hne : ds ≠ []) (hds : Digits ds) :
    readPower? (sign ++ ds) = some (if negative then -(value ds : ℤ) else value ds) := by
  have hempty : ds.isEmpty = false := List.isEmpty_eq_false_iff.mpr hne
  have hall : ds.all Char.isDigit = true := List.all_eq_true.mpr hds
  have hstart := head?_ne_sign hne hds []
  rw [List.append_nil] at hstart
  unfold readPower?
  rw [readSign_append hsign hstart]
  simp [hempty, hall]

theorem power_of_readPower? {mark : Char} (hmark : mark = 'e' ∨ mark = 'E') {text : List Char}
    {e : ℤ} (h : readPower? text = some e) : Power (mark :: text) e := by
  obtain ⟨sign, negative, ds, hsign, hread, rfl⟩ := exists_sign text
  unfold readPower? at h
  rw [hread] at h
  dsimp only at h
  split at h
  · cases h
  · next hds =>
    simp only [Bool.or_eq_true, Bool.not_eq_true', not_or, Bool.not_eq_true, Bool.not_eq_false,
      List.isEmpty_eq_false_iff, List.all_eq_true] at hds
    cases h
    exact .written hmark hsign hds.1 hds.2

theorem power_of_readEnd? {text : List Char} {power : Option ℤ} (h : readEnd? text = some power) :
    Power text (power.getD 0) := by
  cases text with
  | nil =>
    cases h
    exact .absent
  | cons mark rest =>
    rw [readEnd?] at h
    split at h
    · next hmark =>
      obtain ⟨e, he, rfl⟩ := Option.map_eq_some_iff.mp h
      exact power_of_readPower? hmark he
    · cases h

theorem readEnd?_of_power {text : List Char} {e : ℤ} (h : Power text e) :
    ∃ power, readEnd? text = some power ∧ power.getD 0 = e := by
  cases h with
  | absent => exact ⟨none, rfl, rfl⟩
  | written hmark hsign hne hds =>
    have hread := readPower?_append hsign hne hds
    exact ⟨_, by rw [readEnd?, if_pos hmark, hread, Option.map_some], rfl⟩

theorem Power.head?_ne {text : List Char} {e : ℤ} (h : Power text e) :
    text.head?.any Char.isDigit = false ∧ text.head? ≠ some '.' := by
  cases h with
  | absent => exact ⟨rfl, by simp⟩
  | written hmark hsign hne hds => rcases hmark with rfl | rfl <;> exact ⟨rfl, by simp⟩

/-! ## Digits and points -/

/-- A point and the digits after it, if the text starts with a point, and the rest. -/
def readFraction : List Char → Option (List Char) × List Char
  | [] => (none, [])
  | c :: rest =>
    if c = '.' then (some (rest.takeWhile Char.isDigit), rest.dropWhile Char.isDigit)
    else (none, c :: rest)

theorem readFraction_power {text : List Char} {e : ℤ} (h : Power text e) :
    readFraction text = (none, text) := by
  have hpoint := h.head?_ne.2
  cases text with
  | nil => rfl
  | cons c rest => exact if_neg (by simpa using hpoint)

theorem readFraction_point {fs rest : List Char} {e : ℤ} (hfs : Digits fs) (h : Power rest e) :
    readFraction ('.' :: (fs ++ rest)) = (some fs, rest) := by
  have hdigit := h.head?_ne.1
  rw [readFraction, if_pos rfl, takeWhile_run hfs hdigit, dropWhile_run hfs hdigit]

theorem ofChars?_eq (text : List Char) :
    ofChars? text =
      let whole := (readSign text).2.takeWhile Char.isDigit
      let tail := readFraction ((readSign text).2.dropWhile Char.isDigit)
      if whole.isEmpty && (tail.1.getD []).isEmpty then none
      else (readEnd? tail.2).map fun power => ⟨(readSign text).1, whole, tail.1, power⟩ := by
  unfold ofChars?
  dsimp only
  cases (readSign text).2.dropWhile Char.isDigit <;> rfl

theorem value_nil : value [] = 0 :=
  rfl

theorem value_append (ds fs : List Char) :
    value (ds ++ fs) = value ds * 10 ^ fs.length + value fs := by
  unfold value
  rw [Nat.ofDigitChars_append, Nat.ofDigitChars_eq_ofDigitChars_zero, Nat.mul_comm]

/-- The exact number of a numeral, digits before and after the point apart. -/
theorem magnitude_decimal (n : Numeral) :
    n.decimal.magnitude =
      (value n.whole + value n.fractionDigits / 10 ^ n.fractionDigits.length) *
        10 ^ n.power.getD 0 := by
  unfold decimal Decimal.magnitude
  dsimp only
  rw [value_append, zpow_sub₀ (by norm_num), zpow_natCast]
  push_cast
  field_simp

/-- A run of digits and what is read as a fraction behind it make a significand, if they hold a
digit. -/
theorem exists_significand {ds : List Char} (hds : Digits ds) (after : List Char)
    (h : ¬(ds = [] ∧ (readFraction after).1.getD [] = [])) :
    ∃ body, Significand body
        (value ds + value ((readFraction after).1.getD []) /
          10 ^ ((readFraction after).1.getD []).length) ∧
      ds ++ after = body ++ (readFraction after).2 := by
  have hwhole (hne : ds ≠ []) : Significand ds (value ds + (value [] : ℚ) / 10 ^ 0) := by
    rw [value_nil, Nat.cast_zero, zero_div, add_zero]
    exact .whole hne hds
  cases after with
  | nil => exact ⟨ds, hwhole fun hne => h ⟨hne, rfl⟩, rfl⟩
  | cons c rest =>
    rw [readFraction] at h ⊢
    split at h
    · next hc =>
      subst hc
      have hfs := digits_takeWhile rest
      have hrest := List.takeWhile_append_dropWhile (p := Char.isDigit) (l := rest)
      rw [if_pos rfl]
      dsimp only [Option.getD_some] at h ⊢
      by_cases hne : ds = []
      · subst hne
        refine ⟨'.' :: rest.takeWhile Char.isDigit, ?_, by simp⟩
        rw [value_nil, Nat.cast_zero, zero_add]
        exact .fraction (fun hnil => h ⟨rfl, hnil⟩) hfs
      · exact ⟨ds ++ '.' :: rest.takeWhile Char.isDigit, .pointed hne hds hfs, by simp⟩
    · next hc =>
      rw [if_neg hc]
      exact ⟨ds, hwhole fun hne => h ⟨hne, rfl⟩, rfl⟩

/-- What the reader accepts writes the number that it reads. -/
theorem writes_of_ofChars? {text : List Char} {n : Numeral} (h : ofChars? text = some n) :
    Writes text n.negative n.decimal.magnitude := by
  obtain ⟨sign, negative, unsigned, hsign, hread, rfl⟩ := exists_sign text
  rw [ofChars?_eq, hread] at h
  dsimp only at h
  have hds := digits_takeWhile unsigned
  rw [← List.takeWhile_append_dropWhile (p := Char.isDigit) (l := unsigned)]
  generalize unsigned.takeWhile Char.isDigit = ds at *
  generalize unsigned.dropWhile Char.isDigit = after at *
  split at h
  · cases h
  · next hne =>
    obtain ⟨power, hpower, rfl⟩ := Option.map_eq_some_iff.mp h
    simp only [Bool.and_eq_true, List.isEmpty_iff] at hne
    obtain ⟨body, hbody, hsplit⟩ := exists_significand hds after hne
    rw [magnitude_decimal, hsplit, ← List.append_assoc]
    exact .mk hsign hbody (power_of_readEnd? hpower)

/-- What is read of a sign, a run of digits and what may stand behind it in front of a power. -/
theorem ofChars?_of_parts {sign ds after rest : List Char} {negative : Bool} {e : ℤ}
    {fraction : Option (List Char)} (hsign : Sign sign negative) (hds : Digits ds)
    (hstart : ∀ c, (ds ++ after).head? = some c → c ≠ '-' ∧ c ≠ '+')
    (hhead : after.head?.any Char.isDigit = false)
    (hfraction : readFraction after = (fraction, rest)) (hpower : Power rest e)
    (hne : ¬(ds = [] ∧ fraction.getD [] = [])) :
    ∃ n, ofChars? (sign ++ (ds ++ after)) = some n ∧ n.negative = negative ∧
      n.decimal.magnitude =
        (value ds + value (fraction.getD []) / 10 ^ (fraction.getD []).length) * 10 ^ e := by
  obtain ⟨power, hread, rfl⟩ := readEnd?_of_power hpower
  refine ⟨⟨negative, ds, fraction, power⟩, ?_, rfl, magnitude_decimal _⟩
  rw [ofChars?_eq, readSign_append hsign hstart]
  dsimp only
  rw [takeWhile_run hds hhead, dropWhile_run hds hhead, hfraction, if_neg, hread, Option.map_some]
  simpa using hne

/-- Every text of the grammar is accepted, and its number is read. -/
theorem ofChars?_of_writes {text : List Char} {negative : Bool} {q : ℚ}
    (h : Writes text negative q) :
    ∃ n, ofChars? text = some n ∧ n.negative = negative ∧ n.decimal.magnitude = q := by
  rcases h with @⟨sign, body, rest, _, _, e, hsign, hbody, hpower⟩
  obtain ⟨hdigit, hpoint⟩ := hpower.head?_ne
  rw [List.append_assoc]
  cases hbody with
  | @whole ds hne hds =>
    have h := ofChars?_of_parts hsign hds (head?_ne_sign hne hds rest) hdigit
      (readFraction_power hpower) hpower (fun h => hne h.1)
    simpa [value_nil] using h
  | @pointed ds fs hne hds hfs =>
    have h := ofChars?_of_parts hsign hds (head?_ne_sign hne hds ('.' :: (fs ++ rest))) rfl
      (readFraction_point hfs hpower) hpower (fun h => hne h.1)
    simpa using h
  | @fraction fs hne hfs =>
    have h := ofChars?_of_parts hsign digits_nil (by simp) rfl
      (readFraction_point hfs hpower) hpower (fun h => hne h.2)
    simpa [value_nil] using h

theorem Significand.nonneg {text : List Char} {q : ℚ} (h : Significand text q) : 0 ≤ q := by
  cases h <;> positivity

theorem Writes.nonneg {text : List Char} {negative : Bool} {q : ℚ} (h : Writes text negative q) :
    0 ≤ q := by
  obtain ⟨-, hbody, -⟩ := h
  exact mul_nonneg hbody.nonneg (zpow_nonneg (by norm_num) _)

end Numeral

/-! ## Numbers of texts -/

open Numeral Binary64

/-- The number of a text of the grammar is the one that rounds what the text writes. -/
theorem numberOfText?_of_writes {text : String} {negative : Bool} {q : ℚ} {x : Binary64}
    (h : Writes (trim text.toList) negative q) :
    numberOfText? text = some x ↔ Rounds negative q x := by
  obtain ⟨n, hread, rfl, rfl⟩ := ofChars?_of_writes h
  unfold numberOfText?
  rw [hread, Option.bind_some, Decimal.toBinary64?_eq_some_iff]
  rfl

theorem exists_writes_of_numberOfText? {text : String} {x : Binary64}
    (h : numberOfText? text = some x) : ∃ negative q, Writes (trim text.toList) negative q := by
  obtain ⟨n, hread, -⟩ := Option.bind_eq_some_iff.mp h
  exact ⟨_, _, writes_of_ofChars? hread⟩

theorem cast_lastMiddle : (lastMiddle : ℚ) = (2 ^ 1024 - 2 ^ 970) * one := by
  have hnat : lastMiddle + 2 ^ 970 * one = 2 ^ 1024 * one := by decide +kernel
  have hcast := congrArg (Nat.cast : ℕ → ℚ) hnat
  rw [Nat.cast_add, Nat.cast_mul, Nat.cast_mul, Nat.cast_pow, Nat.cast_pow, Nat.cast_ofNat] at hcast
  rw [sub_mul, ← hcast, add_sub_cancel_right]

theorem exists_number_iff {text : String} {negative : Bool} {q : ℚ}
    (h : Writes (trim text.toList) negative q) :
    (∃ x, numberOfText? text = some x) ↔ q < 2 ^ 1024 - 2 ^ 970 := by
  simp only [numberOfText?_of_writes h]
  rw [exists_rounds_iff negative h.nonneg, cast_lastMiddle, mul_lt_mul_iff_left₀ cast_one_pos]

/-- A text has a number exactly if, white space around it apart, it is a text of the grammar and
the exact number that it writes is rounded to a number of the format, to the nearest one and from
the middle of two to the one whose last bit is zero. That is the number then, with the sign as it is
written. No text has a number but those of the grammar whose magnitude is below the middle between
the largest one of the format and `2^1024`. -/
theorem numberOfText?_rounds_once (text : String) :
    (∀ x, numberOfText? text = some x ↔
      ∃ negative q, Writes (trim text.toList) negative q ∧ x.negative = negative ∧
        Nearest (q * one) x.units) ∧
    (numberOfText? text = none ↔
      ∀ negative q, Writes (trim text.toList) negative q → 2 ^ 1024 - 2 ^ 970 ≤ q) := by
  refine ⟨fun x => ⟨fun hx => ?_, ?_⟩, fun hnone negative q hwrites => ?_, fun hlarge => ?_⟩
  · obtain ⟨negative, q, hwrites⟩ := exists_writes_of_numberOfText? hx
    obtain ⟨hnegative, hnearest⟩ := (numberOfText?_of_writes hwrites).mp hx
    exact ⟨negative, q, hwrites, hnegative, hnearest⟩
  · rintro ⟨negative, q, hwrites, hnegative, hnearest⟩
    exact (numberOfText?_of_writes hwrites).mpr ⟨hnegative, hnearest⟩
  · by_contra hlt
    obtain ⟨x, hx⟩ := (exists_number_iff hwrites).mpr (not_le.mp hlt)
    rw [hnone] at hx
    cases hx
  · rw [Option.eq_none_iff_forall_ne_some]
    intro x hx
    obtain ⟨negative, q, hwrites⟩ := exists_writes_of_numberOfText? hx
    have hlt := (exists_number_iff hwrites).mp ⟨x, hx⟩
    exact absurd (hlarge negative q hwrites) (not_le.mpr hlt)

end Verdict
