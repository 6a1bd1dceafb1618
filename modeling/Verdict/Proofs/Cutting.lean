import Verdict.Proofs.Characters
import Verdict.Rule

/-!
# Cutting a rule at its connectives

The scan of a rule is told as a relation `Cuts` between the rule and its segments: a segment is
crossed in the mode in which the scan reaches it without meeting a connective, and ends outside a
literal in front of one. Every rule has its cuts (`exists_cuts`), and they determine its tokens
(`Cuts.ofRule_eq`).

What crossing a text does depends on the text before it through the last characters only, and on
the text after it through the first character and through whether an apostrophe is still to come.
-/

namespace Verdict

open Text

namespace Connective

/-! ## Connectives at the front of a text -/

theorem letters_and : Connective.and.letters = ['A', 'N', 'D'] := by decide

theorem letters_or : Connective.or.letters = ['O', 'R'] := by decide

theorem exists_cons_letters (c : Connective) : ∃ a letters, c.letters = a :: letters := by
  cases c <;> exact ⟨_, _, rfl⟩

theorem isWordChar_of_mem_letters {c : Connective} {d : Char} (h : d ∈ c.letters) :
    isWordChar d = true := by
  have hall : c.letters.all isWordChar = true := by cases c <;> decide
  exact List.all_eq_true.mp hall d h

/-- The connective that is written with these letters. -/
def ofLetters? (word : List Char) : Option Connective :=
  [Connective.and, .or].find? fun c => c.letters == word

theorem ofLetters?_letters (c : Connective) : ofLetters? c.letters = some c := by
  cases c <;> decide

theorem eq_letters_of_ofLetters? {word : List Char} {c : Connective}
    (h : ofLetters? word = some c) : word = c.letters := by
  have hc := List.find?_some h
  exact (eq_of_beq hc).symm

/-- A word stands at the front with nothing that continues it exactly if it is the whole run of
word characters there. -/
theorem isPrefixOf_and_ends {word : List Char} (hw : ∀ d ∈ word, isWordChar d = true)
    (text : List Char) :
    (word.isPrefixOf text && !(text.drop word.length).head?.any isWordChar) =
      (word == text.takeWhile isWordChar) := by
  induction word generalizing text with
  | nil =>
    cases text with
    | nil => rfl
    | cons b text =>
      by_cases hb : isWordChar b = true
      · simp [hb]
      · simp [hb]
  | cons a word ih =>
    have ha : isWordChar a = true := hw a List.mem_cons_self
    cases text with
    | nil => rfl
    | cons b text =>
      by_cases hab : a = b
      · subst hab
        have h := ih (fun d hd => hw d (List.mem_cons_of_mem _ hd)) text
        simpa [List.isPrefixOf, ha] using h
      · have hab' : (a == b) = false := beq_false_of_ne hab
        by_cases hb : isWordChar b = true
        · simp [List.isPrefixOf, hab', hb]
        · simp [List.isPrefixOf, hab', hb]

/-- A connective stands where no word character comes before and the run of word characters is its
word. -/
theorem at?_eq (before text : List Char) :
    at? before text =
      if before.head?.any isWordChar then none else ofLetters? (text.takeWhile isWordChar) := by
  have h : (fun c : Connective => c.letters.isPrefixOf text &&
      !(text.drop c.letters.length).head?.any isWordChar) =
      fun c => c.letters == text.takeWhile isWordChar := by
    funext c
    exact isPrefixOf_and_ends (fun d hd => isWordChar_of_mem_letters hd) text
  rw [at?, h, ofLetters?]

theorem at?_eq_none_of_inside {before : List Char} (h : before.head?.any isWordChar = true)
    (text : List Char) : at? before text = none := by
  rw [at?_eq, if_pos h]

theorem at?_eq_none_of_head? {text : List Char} (h : text.head?.any isWordChar = false)
    (before : List Char) : at? before text = none := by
  have hnil : ofLetters? [] = none := by decide
  rw [at?_eq, takeWhile_eq_nil_of_head? h, hnil]
  split <;> rfl

theorem at?_run {before run after : List Char} (hb : before.head?.any isWordChar = false)
    (hr : ∀ d ∈ run, isWordChar d = true) (ha : after.head?.any isWordChar = false) :
    at? before (run ++ after) = ofLetters? run := by
  rw [at?_eq, hb, takeWhile_run hr ha]
  rfl

theorem at?_letters {before after : List Char} (c : Connective)
    (hb : before.head?.any isWordChar = false) (ha : after.head?.any isWordChar = false) :
    at? before (c.letters ++ after) = some c := by
  rw [at?_run hb (fun d hd => isWordChar_of_mem_letters hd) ha, ofLetters?_letters]

theorem of_at?_eq_some {before text : List Char} {c : Connective} (h : at? before text = some c) :
    before.head?.any isWordChar = false ∧
      ∃ rest, text = c.letters ++ rest ∧ rest.head?.any isWordChar = false := by
  rw [at?_eq] at h
  split at h
  · cases h
  · next hb =>
    refine ⟨by simpa using hb, text.dropWhile isWordChar, ?_, ?_⟩
    · rw [← eq_letters_of_ofLetters? h, List.takeWhile_append_dropWhile]
    · exact head?_any_dropWhile isWordChar text

end Connective

namespace Token

/-! ## Crossing a text -/

/-- The mode in which the scan leaves a text that it enters in mode `quoted`, with `before` behind
it, last character first, and `after` still to come; none if it meets a connective in the text. -/
def modeAfter? (after : List Char) (quoted : Bool) (before : List Char) : List Char → Option Bool
  | [] => some quoted
  | c :: text =>
    if quoted then modeAfter? after (c != '\'') (c :: before) text
    else if (Connective.at? before (c :: text ++ after)).isSome then none
    else modeAfter? after (c == '\'' && opensLiteral before (text ++ after)) (c :: before) text

theorem modeAfter?_quoted (after before : List Char) (c : Char) (text : List Char) :
    modeAfter? after true before (c :: text) =
      modeAfter? after (c != '\'') (c :: before) text := by
  rw [modeAfter?, if_pos rfl]

theorem modeAfter?_plain {after before text : List Char} {c : Char}
    (h : Connective.at? before (c :: text ++ after) = none) :
    modeAfter? after false before (c :: text) =
      modeAfter? after (c == '\'' && opensLiteral before (text ++ after)) (c :: before) text := by
  rw [modeAfter?, if_neg Bool.false_ne_true, h]
  rfl

theorem at?_eq_none_of_crossed {after before text : List Char} {c : Char} {mode : Bool}
    (h : modeAfter? after false before (c :: text) = some mode) :
    Connective.at? before (c :: text ++ after) = none := by
  rw [modeAfter?, if_neg Bool.false_ne_true] at h
  split at h
  · cases h
  · next hat => exact Option.not_isSome_iff_eq_none.mp hat

/-- Crossing two texts is crossing one and then the other. -/
theorem modeAfter?_append (after s t before : List Char) (quoted : Bool) :
    modeAfter? after quoted before (s ++ t) =
      (modeAfter? (t ++ after) quoted before s).bind fun mode =>
        modeAfter? after mode (s.reverse ++ before) t := by
  induction s generalizing quoted before with
  | nil => rfl
  | cons c s ih =>
    rw [List.cons_append]
    cases quoted with
    | true =>
      rw [modeAfter?_quoted, modeAfter?_quoted, ih]
      simp
    | false =>
      rw [modeAfter?, modeAfter?, if_neg Bool.false_ne_true, if_neg Bool.false_ne_true,
        List.cons_append, List.cons_append, List.append_assoc]
      split
      · rfl
      · rw [ih]
        simp

/-- What is crossed without a connective goes into the segment. -/
theorem scan_of_modeAfter? {after before s : List Char} {quoted mode : Bool}
    (h : modeAfter? after quoted before s = some mode) :
    scan 0 quoted before (s ++ after) = scan 0 mode (s.reverse ++ before) after := by
  induction s generalizing quoted before with
  | nil =>
    cases h
    rfl
  | cons c s ih =>
    rw [List.cons_append, scan, List.reverse_cons, List.append_assoc, List.singleton_append]
    cases quoted with
    | true =>
      rw [modeAfter?_quoted] at h
      rw [if_pos rfl]
      exact ih h
    | false =>
      rw [modeAfter?, if_neg Bool.false_ne_true] at h
      split at h
      · cases h
      · next hat =>
        rw [if_neg Bool.false_ne_true, ← List.cons_append, Option.not_isSome_iff_eq_none.mp hat]
        exact ih h

/-- A connective closes the segment and starts the next. -/
theorem scan_connective {before rest : List Char} {c : Connective}
    (h : Connective.at? before (c.letters ++ rest) = some c) :
    scan 0 false before (c.letters ++ rest) =
      ofSegment before ++ .connective c :: scan 0 false [] rest := by
  cases c with
  | and =>
    rw [Connective.letters_and] at h ⊢
    rw [List.cons_append] at h ⊢
    rw [scan, if_neg Bool.false_ne_true, h]
    rfl
  | or =>
    rw [Connective.letters_or] at h ⊢
    rw [List.cons_append] at h ⊢
    rw [scan, if_neg Bool.false_ne_true, h]
    rfl

/-! ## Texts that are crossed without effect -/

theorem modeAfter?_insideWord {word before : List Char} (hw : ∀ d ∈ word, isWordChar d = true)
    (hb : before.head?.any isWordChar = true) (after : List Char) :
    modeAfter? after false before word = some false := by
  induction word generalizing before with
  | nil => rfl
  | cons d word ih =>
    have hd : isWordChar d = true := hw d List.mem_cons_self
    rw [modeAfter?_plain (Connective.at?_eq_none_of_inside hb _),
      beq_false_of_ne (ne_apostrophe_of_isWordChar hd)]
    exact ih (fun e he => hw e (List.mem_cons_of_mem _ he)) (by simpa using hd)

/-- A whole word that is no connective is plain text. -/
theorem modeAfter?_word {word before after : List Char} (hw : ∀ d ∈ word, isWordChar d = true)
    (hn : Connective.ofLetters? word = none) (hb : before.head?.any isWordChar = false)
    (ha : after.head?.any isWordChar = false) :
    modeAfter? after false before word = some false := by
  cases word with
  | nil => rfl
  | cons d word =>
    have hd : isWordChar d = true := hw d List.mem_cons_self
    rw [modeAfter?_plain ((Connective.at?_run hb hw ha).trans hn),
      beq_false_of_ne (ne_apostrophe_of_isWordChar hd)]
    exact modeAfter?_insideWord (fun e he => hw e (List.mem_cons_of_mem _ he)) (by simpa using hd) _

theorem modeAfter?_inert {text : List Char}
    (ht : ∀ d ∈ text, isWordChar d = false ∧ d ≠ '\'') (after before : List Char) :
    modeAfter? after false before text = some false := by
  induction text generalizing before with
  | nil => rfl
  | cons d text ih =>
    obtain ⟨hd, hq⟩ := ht d List.mem_cons_self
    rw [modeAfter?_plain (Connective.at?_eq_none_of_head? (by simpa using hd) _),
      beq_false_of_ne hq]
    exact ih (fun e he => ht e (List.mem_cons_of_mem _ he)) _

theorem modeAfter?_blanks {text : List Char} (h : Blanks text) (after before : List Char) :
    modeAfter? after false before text = some false :=
  modeAfter?_inert
    (fun d hd => ⟨isWordChar_eq_false_of_isBlank (h d hd), ne_apostrophe_of_isBlank (h d hd)⟩) _ _

theorem modeAfter?_insideLiteral {text : List Char} (h : '\'' ∉ text) (after before : List Char) :
    modeAfter? after true before text = some true := by
  induction text generalizing before with
  | nil => rfl
  | cons d text ih =>
    obtain ⟨hd, ht⟩ := not_or.mp (mt List.mem_cons.mpr h)
    have hne : (d != '\'') = true := bne_iff_ne.mpr (Ne.symm hd)
    rw [modeAfter?_quoted, hne]
    exact ih ht _

theorem modeAfter?_literal {text before after : List Char} (h : '\'' ∉ text)
    (ho : opensLiteral before (text ++ '\'' :: after) = true) :
    modeAfter? after false before ('\'' :: text ++ ['\'']) = some false := by
  have hat : Connective.at? before ('\'' :: (text ++ ['\'']) ++ after) = none :=
    Connective.at?_eq_none_of_head? (by rfl) _
  have hopen : opensLiteral before (text ++ ['\''] ++ after) = true := by simpa using ho
  rw [List.cons_append, modeAfter?_plain hat, hopen, modeAfter?_append, beq_self_eq_true,
    Bool.and_self, modeAfter?_insideLiteral h]
  rfl

/-! ## The cuts of a rule -/

/-- The segments of a text: the first, and each later one with the connective in front of it. -/
inductive Cuts : List Char → List Char → List (Connective × List Char) → Prop
  | last {s : List Char} (hs : modeAfter? [] false [] s = some false) : Cuts s s []
  | next {s rest s' : List Char} {c : Connective} {more : List (Connective × List Char)}
      (hs : modeAfter? (c.letters ++ rest) false [] s = some false)
      (hc : Connective.at? s.reverse (c.letters ++ rest) = some c) (hr : Cuts rest s' more) :
      Cuts (s ++ c.letters ++ rest) s ((c, s') :: more)

/-- The tokens of segments. -/
def ofCuts (s : List Char) (more : List (Connective × List Char)) : List Token :=
  ofSegment s.reverse ++ more.flatMap fun cut => .connective cut.1 :: ofSegment cut.2.reverse

theorem scan_of_crossed {text before : List Char}
    (h : modeAfter? [] false before text = some false) :
    scan 0 false before text = ofSegment (text.reverse ++ before) := by
  have hscan := scan_of_modeAfter? h
  rw [List.append_nil] at hscan
  rw [hscan, scan]

theorem Cuts.scan_eq {text s : List Char} {more : List (Connective × List Char)}
    (h : Cuts text s more) : scan 0 false [] text = ofCuts s more := by
  induction h with
  | @last s hs =>
    rw [scan_of_crossed hs, ofCuts, List.flatMap_nil, List.append_nil, List.append_nil]
  | @next s rest s' c more hs hc hr ih =>
    rw [List.append_assoc, scan_of_modeAfter? hs, List.append_nil, scan_connective hc, ih]
    simp [ofCuts]

theorem Cuts.ofRule_eq {rule : String} {s : List Char} {more : List (Connective × List Char)}
    (h : Cuts rule.toList s more) : ofRule rule = ofCuts s more :=
  h.scan_eq

/-- Either the scan crosses the whole text and ends outside a literal, or there is a first
connective. The scan is inside a literal only while an apostrophe is still to come. -/
theorem crosses_or_stops {quoted : Bool} (before text : List Char)
    (hq : quoted = true → '\'' ∈ text) :
    modeAfter? [] quoted before text = some false ∨
      ∃ s c rest, text = s ++ c.letters ++ rest ∧
        modeAfter? (c.letters ++ rest) quoted before s = some false ∧
        Connective.at? (s.reverse ++ before) (c.letters ++ rest) = some c := by
  induction text generalizing quoted before with
  | nil =>
    cases quoted with
    | true => cases hq rfl
    | false => exact .inl rfl
  | cons d text ih =>
    cases quoted with
    | true =>
      have hd : (d != '\'') = true → '\'' ∈ text := by
        intro hne
        exact (List.mem_cons.mp (hq rfl)).resolve_left (bne_iff_ne.mp hne).symm
      rcases ih (d :: before) hd with h | ⟨s, c, rest, rfl, hs, hc⟩
      · exact .inl h
      · exact .inr ⟨d :: s, c, rest, rfl, hs, by simpa using hc⟩
    | false =>
      cases hat : Connective.at? before (d :: text) with
      | some c =>
        obtain ⟨-, rest, ht, -⟩ := Connective.of_at?_eq_some hat
        exact .inr ⟨[], c, rest, ht, rfl, ht ▸ hat⟩
      | none =>
        have ho : (d == '\'' && opensLiteral before text) = true → '\'' ∈ text := by
          intro h
          simp only [opensLiteral, Bool.and_eq_true, List.contains_iff_mem] at h
          exact h.2.2
        rcases ih (d :: before) ho with h | ⟨s, c, rest, rfl, hs, hc⟩
        · left
          rw [modeAfter?_plain (by rwa [List.append_nil]), List.append_nil]
          exact h
        · refine .inr ⟨d :: s, c, rest, rfl, ?_, by simpa using hc⟩
          rw [modeAfter?_plain (by rwa [List.append_assoc] at hat), ← List.append_assoc]
          exact hs

/-- Every text has its cuts. -/
theorem exists_cuts (text : List Char) : ∃ s more, Cuts text s more := by
  induction hn : text.length using Nat.strong_induction_on generalizing text with
  | _ n ih =>
    have hq : false = true → '\'' ∈ text := by
      intro h
      cases h
    rcases crosses_or_stops [] text hq with h | ⟨s, c, rest, rfl, hs, hc⟩
    · exact ⟨text, [], .last h⟩
    · have hlt : rest.length < n := by
        have hpos : 0 < c.letters.length := by cases c <;> decide
        simp only [List.length_append] at hn
        omega
      obtain ⟨s', more, hr⟩ := ih rest.length hlt rest rfl
      exact ⟨s, (c, s') :: more, .next hs (by simpa using hc) hr⟩

end Token

end Verdict
