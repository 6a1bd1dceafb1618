import Mathlib.Data.List.Induction
import Verdict.Proofs.Characters

/-!
# Texts as bytes

A text is written in UTF-8: an ASCII character is one byte below 128, any other character a byte
from 192 on with bytes from 128 on after it. So a class of ASCII characters is seen on every byte of
a text as it is on its characters (`isCode_of_mem`), and the bounds between characters can be told
from the bytes (`isBoundary_utf8`).
-/

namespace Verdict

/-- The bytes of a text in UTF-8. -/
def utf8 (text : List Char) : List UInt8 :=
  text.flatMap String.utf8EncodeChar

@[simp] theorem utf8_nil : utf8 [] = [] := rfl

theorem utf8_cons (c : Char) (text : List Char) :
    utf8 (c :: text) = String.utf8EncodeChar c ++ utf8 text :=
  List.flatMap_cons

@[simp] theorem utf8_append (front back : List Char) :
    utf8 (front ++ back) = utf8 front ++ utf8 back :=
  List.flatMap_append

namespace Utf8

open Text

/-! ## The bytes of a character -/

theorem encode_of_lt {c : Char} (h : c.toNat < 128) :
    String.utf8EncodeChar c = [UInt8.ofNat c.toNat] := by
  have hv : c.val.toNat ≤ 127 := Nat.le_of_lt_succ h
  simp only [String.utf8EncodeChar, if_pos hv]
  rfl

theorem le_toNat_continuation (v : Nat) : 128 ≤ (UInt8.ofNat (v % 64 + 128)).toNat := by
  rw [UInt8.toNat_ofNat']
  omega

/-- A character outside ASCII is a byte from 192 on and bytes from 128 on. -/
theorem exists_encode {c : Char} (h : 128 ≤ c.toNat) :
    ∃ first others, String.utf8EncodeChar c = first :: others ∧ 192 ≤ first.toNat ∧
      ∀ b ∈ others, 128 ≤ b.toNat := by
  have hv : ¬ c.val.toNat ≤ 127 := Nat.not_le.mpr h
  simp only [String.utf8EncodeChar, if_neg hv]
  split
  · refine ⟨_, _, rfl, ?_, ?_⟩
    · rw [UInt8.toNat_ofNat']
      omega
    · exact List.forall_mem_singleton.mpr (le_toNat_continuation _)
  · split
    · refine ⟨_, _, rfl, ?_, ?_⟩
      · rw [UInt8.toNat_ofNat']
        omega
      · exact List.forall_mem_cons.mpr ⟨le_toNat_continuation _,
          List.forall_mem_singleton.mpr (le_toNat_continuation _)⟩
    · refine ⟨_, _, rfl, ?_, ?_⟩
      · rw [UInt8.toNat_ofNat']
        omega
      · exact List.forall_mem_cons.mpr ⟨le_toNat_continuation _, List.forall_mem_cons.mpr
          ⟨le_toNat_continuation _, List.forall_mem_singleton.mpr (le_toNat_continuation _)⟩⟩

theorem le_of_mem_encode {c : Char} (h : 128 ≤ c.toNat) {b : UInt8}
    (hb : b ∈ String.utf8EncodeChar c) : 128 ≤ b.toNat := by
  obtain ⟨first, others, hencode, hfirst, hothers⟩ := exists_encode h
  rw [hencode] at hb
  rcases List.mem_cons.mp hb with rfl | hb
  · omega
  · exact hothers b hb

/-! ## Classes of ASCII characters -/

/-- A class of ASCII characters. -/
def Ascii (p : Char → Bool) : Prop :=
  ∀ c, p c = true → c.toNat < 128

theorem ascii_beq {a : Char} (h : a.toNat < 128) : Ascii (· == a) := by
  intro c hc
  rwa [eq_of_beq hc]

/-- The byte is the code of an ASCII character of a class. -/
def isCode (p : Char → Bool) (b : UInt8) : Bool :=
  b < 0x80 && p (Char.ofUInt8 b)

theorem isCode_of_le {b : UInt8} (h : 128 ≤ b.toNat) (p : Char → Bool) : isCode p b = false := by
  have hb : ¬ b < 0x80 := Nat.not_lt.mpr h
  rw [isCode, decide_eq_false hb, Bool.false_and]

theorem toNat_ofNat {c : Char} (h : c.toNat < 128) : (UInt8.ofNat c.toNat).toNat = c.toNat := by
  rw [UInt8.toNat_ofNat']
  omega

theorem ofNat_lt {c : Char} (h : c.toNat < 128) : UInt8.ofNat c.toNat < 0x80 := by
  rw [UInt8.lt_iff_toNat_lt, toNat_ofNat h]
  exact h

theorem isCode_ofNat {c : Char} (h : c.toNat < 128) (p : Char → Bool) :
    isCode p (UInt8.ofNat c.toNat) = p c := by
  have hc : Char.ofUInt8 (UInt8.ofNat c.toNat) = c := by
    apply Char.ext
    apply UInt32.toNat_inj.mp
    show (UInt8.ofNat c.toNat).toUInt32.toNat = c.toNat
    rw [UInt8.toNat_toUInt32, toNat_ofNat h]
  rw [isCode, decide_eq_true (ofNat_lt h), Bool.true_and, hc]

/-- A byte of a character is in a class of ASCII characters exactly if the character is. -/
theorem isCode_of_mem {p : Char → Bool} (hp : Ascii p) {c : Char} {b : UInt8}
    (hb : b ∈ String.utf8EncodeChar c) : isCode p b = p c := by
  by_cases h : c.toNat < 128
  · rw [encode_of_lt h, List.mem_singleton] at hb
    rw [hb, isCode_ofNat h]
  · rw [isCode_of_le (le_of_mem_encode (Nat.not_lt.mp h) hb)]
    cases hc : p c with
    | false => rfl
    | true => exact absurd (hp c hc) h

theorem exists_encode_cons (c : Char) :
    ∃ first others, String.utf8EncodeChar c = first :: others ∧ ∀ b ∈ others, 128 ≤ b.toNat := by
  by_cases h : c.toNat < 128
  · exact ⟨_, [], encode_of_lt h, nofun⟩
  · obtain ⟨first, others, hencode, -, hothers⟩ := exists_encode (Nat.not_lt.mp h)
    exact ⟨first, others, hencode, hothers⟩

theorem exists_encode_reverse (c : Char) :
    ∃ last others, (String.utf8EncodeChar c).reverse = last :: others ∧
      last ∈ String.utf8EncodeChar c := by
  obtain ⟨first, others, hencode, -⟩ := exists_encode_cons c
  have hne : (String.utf8EncodeChar c).reverse ≠ [] := by simp [hencode]
  obtain ⟨last, before, hlast⟩ := List.exists_cons_of_ne_nil hne
  exact ⟨last, before, hlast, List.mem_reverse.mp (hlast ▸ List.mem_cons_self)⟩

theorem head?_utf8 {p : Char → Bool} (hp : Ascii p) (text : List Char) :
    (utf8 text).head?.any (isCode p) = text.head?.any p := by
  cases text with
  | nil => rfl
  | cons c text =>
    obtain ⟨first, others, hencode, -⟩ := exists_encode_cons c
    rw [utf8_cons, hencode]
    exact isCode_of_mem hp (hencode ▸ List.mem_cons_self)

theorem any_encode {p : Char → Bool} (hp : Ascii p) (c : Char) :
    (String.utf8EncodeChar c).any (isCode p) = p c := by
  cases hc : p c with
  | true =>
    obtain ⟨first, others, hencode, -⟩ := exists_encode_cons c
    have hmem : first ∈ String.utf8EncodeChar c := hencode ▸ List.mem_cons_self
    exact List.any_eq_true.mpr ⟨first, hmem, (isCode_of_mem hp hmem).trans hc⟩
  | false =>
    rw [List.any_eq_false]
    intro b hb
    rw [isCode_of_mem hp hb, hc]
    exact Bool.false_ne_true

theorem any_utf8 {p : Char → Bool} (hp : Ascii p) (text : List Char) :
    (utf8 text).any (isCode p) = text.any p := by
  induction text with
  | nil => rfl
  | cons c text ih => rw [utf8_cons, List.any_append, any_encode hp, ih, List.any_cons]

theorem utf8_reverse_concat (text : List Char) (c : Char) :
    (utf8 (text ++ [c])).reverse = (String.utf8EncodeChar c).reverse ++ (utf8 text).reverse := by
  rw [utf8_append, List.reverse_append, utf8_cons, utf8_nil, List.append_nil]

theorem getLast?_utf8 {p : Char → Bool} (hp : Ascii p) (text : List Char) :
    (utf8 text).getLast?.any (isCode p) = text.getLast?.any p := by
  rcases List.eq_nil_or_concat text with rfl | ⟨front, c, rfl⟩
  · rfl
  · obtain ⟨last, others, hlast, hmem⟩ := exists_encode_reverse c
    rw [← List.head?_reverse, List.concat_eq_append, utf8_reverse_concat, hlast,
      List.getLast?_concat]
    exact isCode_of_mem hp hmem

/-- Looking back over the bytes of one class for one of another is looking back over the
characters. -/
theorem find?_reverse_utf8 {p q : Char → Bool} (hp : Ascii p) (hq : Ascii q) (text : List Char) :
    ((utf8 text).reverse.find? fun b => !isCode p b).any (isCode q) =
      (text.reverse.find? fun c => !p c).any q := by
  induction text using List.reverseRecOn with
  | nil => rfl
  | append_singleton text c ih =>
    rw [utf8_reverse_concat, List.find?_append, List.reverse_concat, List.find?_cons]
    cases hc : p c with
    | true =>
      have hskip : (String.utf8EncodeChar c).reverse.find? (fun b => !isCode p b) = none := by
        rw [List.find?_eq_none]
        intro b hb
        rw [isCode_of_mem hp (List.mem_reverse.mp hb), hc]
        decide
      rw [hskip, Option.none_or]
      exact ih
    | false =>
      obtain ⟨last, others, hlast, hmem⟩ := exists_encode_reverse c
      have hfound : (!isCode p last) = true := by rw [isCode_of_mem hp hmem, hc]; rfl
      rw [hlast, List.find?_cons, hfound]
      exact isCode_of_mem hq hmem

/-- An ASCII word stands at the front of the bytes of a text as it does in the text. -/
theorem isPrefixOf_utf8 {word : List Char} (hword : ∀ c ∈ word, c.toNat < 128) (text : List Char) :
    (utf8 word).isPrefixOf (utf8 text) = word.isPrefixOf text := by
  induction word generalizing text with
  | nil => rfl
  | cons a word ih =>
    have ha := hword a List.mem_cons_self
    rw [utf8_cons, encode_of_lt ha]
    cases text with
    | nil => rfl
    | cons b text =>
      by_cases hab : a = b
      · subst hab
        rw [utf8_cons, encode_of_lt ha]
        simpa [List.isPrefixOf] using ih (fun c hc => hword c (List.mem_cons_of_mem a hc)) text
      · obtain ⟨first, others, hencode, -⟩ := exists_encode_cons b
        have hfirst : isCode (· == a) first = false := by
          rw [isCode_of_mem (ascii_beq ha) (hencode ▸ List.mem_cons_self)]
          exact beq_false_of_ne (Ne.symm hab)
        have hcode : (UInt8.ofNat a.toNat == first) = false := by
          refine beq_false_of_ne ?_
          rintro rfl
          rw [isCode_ofNat ha, beq_self_eq_true] at hfirst
          cases hfirst
        rw [utf8_cons, hencode]
        simp [List.isPrefixOf, beq_false_of_ne hab, hcode]

/-! ## Slices -/

/-- The bytes between two bounds; none if a bound is out of range. -/
def slice? (bytes : List UInt8) (start stop : Nat) : Option (List UInt8) :=
  if start ≤ stop ∧ stop ≤ bytes.length then some ((bytes.take stop).drop start) else none

/-- The bound is the start or the end of the bytes, or lies in front of a byte that starts a
character. -/
def isBoundary (bytes : List UInt8) (i : Nat) : Bool :=
  i == 0 || i == bytes.length || bytes[i]?.any fun b => b < 0x80 || 0xC0 ≤ b

/-- The text between two bounds; none if a bound is out of range or inside a character. -/
def textBetween? (bytes : List UInt8) (start stop : Nat) : Option String :=
  if isBoundary bytes start && isBoundary bytes stop then
    (slice? bytes start stop).bind fun segment => String.fromUTF8? segment.toByteArray
  else none

theorem slice?_append (front segment back : List UInt8) :
    slice? (front ++ segment ++ back) front.length (front ++ segment).length = some segment := by
  rw [slice?, if_pos (by simp), List.take_left, List.drop_left]

theorem slice?_front (front back : List UInt8) :
    slice? (front ++ back) 0 front.length = some front :=
  slice?_append [] front back

theorem slice?_back (front back : List UInt8) :
    slice? (front ++ back) front.length (front ++ back).length = some back := by
  simpa using slice?_append front back []

theorem getElem?_utf8 (front back : List Char) :
    (utf8 (front ++ back))[(utf8 front).length]? = (utf8 back).head? := by
  rw [utf8_append, List.getElem?_append_right (Nat.le_refl _), Nat.sub_self, List.head?_eq_getElem?]

theorem isBoundary_utf8 (front back : List Char) :
    isBoundary (utf8 (front ++ back)) (utf8 front).length = true := by
  cases back with
  | nil => simp [isBoundary]
  | cons c back =>
    obtain ⟨first, others, hencode, -⟩ := exists_encode_cons c
    have hfirst : (decide (first < 0x80) || decide (0xC0 ≤ first)) = true := by
      by_cases hc : c.toNat < 128
      · rw [encode_of_lt hc] at hencode
        cases hencode
        rw [decide_eq_true (ofNat_lt hc), Bool.true_or]
      · obtain ⟨first', others', hencode', hle, -⟩ := exists_encode (Nat.not_lt.mp hc)
        rw [hencode] at hencode'
        cases hencode'
        have hlead : (0xC0 : UInt8) ≤ first := hle
        rw [decide_eq_true hlead, Bool.or_true]
    have hget : (utf8 (front ++ c :: back))[(utf8 front).length]? = some first := by
      rw [getElem?_utf8, utf8_cons, hencode]
      rfl
    rw [isBoundary, hget, Option.any_some, hfirst, Bool.or_true]

theorem fromUTF8?_utf8 (text : List Char) :
    String.fromUTF8? (utf8 text).toByteArray = some (String.ofList text) := by
  have hvalid : (utf8 text).toByteArray.IsValidUTF8 := .intro text rfl
  rw [String.fromUTF8?, dif_pos hvalid]
  refine congrArg some (String.toByteArray_inj.mp ?_)
  rw [String.toByteArray_ofList]
  rfl

theorem textBetween?_utf8 (front segment back : List Char) :
    textBetween? (utf8 (front ++ segment ++ back)) (utf8 front).length
      (utf8 (front ++ segment)).length = some (String.ofList segment) := by
  have hstart : isBoundary (utf8 (front ++ segment ++ back)) (utf8 front).length = true := by
    rw [List.append_assoc]
    exact isBoundary_utf8 front _
  rw [textBetween?, hstart, isBoundary_utf8, Bool.and_self, if_pos rfl, utf8_append, utf8_append,
    slice?_append, Option.bind_some, fromUTF8?_utf8]

end Utf8

end Verdict
