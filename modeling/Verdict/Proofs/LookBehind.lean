import Verdict.Proofs.Cutting

/-!
# Cuts with the whole rule in view

The scan looks back to the start of a segment only. That is as good as looking back over the whole
rule (`modeAfter?_behind`): the connective in front of a segment ends in a word character, at which
the look behind an apostrophe stops without a sign, and it is not followed by one, so no connective
starts there. White space in front of a segment does not show either. `CutsBehind` tells the cuts of
a rule with all the text in front of a segment.
-/

namespace Verdict

open Text

/-- The text, last character first, is empty or ends in a word character. -/
def EndsInWord (behind : List Char) : Prop :=
  behind = [] ∨ behind.head?.any isWordChar = true

theorem endsInWord_letters (c : Connective) (behind : List Char) :
    EndsInWord (c.letters.reverse ++ behind) := by
  cases c <;> exact .inr rfl

/-- A look back over the ASCII blanks at the end of the text, last character first, finds no
sign. -/
def ShowsNoSign (behind : List Char) : Prop :=
  (behind.find? fun c => !isAsciiBlank c).any (fun c => c == '=' || c == '<' || c == '>') = false

theorem showsNoSign_of_find? {behind : List Char}
    (h : ∀ c, (behind.find? fun c => !isAsciiBlank c) = some c → Comparator.isSignChar c = false) :
    ShowsNoSign behind := by
  unfold ShowsNoSign
  cases hfind : behind.find? fun c => !isAsciiBlank c with
  | none => rfl
  | some c =>
    have hsign := h c hfind
    simp only [Comparator.isSignChar, Bool.or_eq_false_iff] at hsign
    simp [hsign]

theorem EndsInWord.showsNoSign {behind : List Char} (h : EndsInWord behind) :
    ShowsNoSign behind := by
  rcases h with rfl | hword
  · rfl
  · cases behind with
    | nil => cases hword
    | cons c behind =>
      have hc : isWordChar c = true := hword
      refine showsNoSign_of_find? fun d hd => ?_
      rw [List.find?_cons_of_pos (by simp [isAsciiBlank_eq_false_of_isWordChar hc])] at hd
      rw [← Option.some.inj hd]
      exact isSignChar_eq_false_of_isWordChar hc

theorem showsNoSign_of_blanks {behind : List Char} (h : Blanks behind) : ShowsNoSign behind :=
  showsNoSign_of_find? fun c hc =>
    isSignChar_eq_false_of_isBlank (h c (List.mem_of_find?_eq_some hc))

namespace Connective

theorem at?_behind {before behind text : List Char}
    (h : before = [] → behind.head?.any isWordChar = false ∨ text.head?.any isWordChar = false) :
    at? (before ++ behind) text = at? before text := by
  cases before with
  | nil =>
    rcases h rfl with hbehind | htext
    · rw [at?_eq, at?_eq, List.nil_append, hbehind]
      rfl
    · rw [at?_eq_none_of_head? htext, at?_eq_none_of_head? htext]
  | cons d before =>
    rw [at?_eq, at?_eq]
    rfl

end Connective

namespace Token

theorem opensLiteral_behind {behind : List Char} (h : ShowsNoSign behind)
    (before after : List Char) :
    opensLiteral (before ++ behind) after = opensLiteral before after := by
  unfold opensLiteral
  rw [List.find?_append]
  cases before.find? fun c => !isAsciiBlank c with
  | none => rw [Option.none_or, h, Option.any_none]
  | some c => rw [Option.some_or]

/-- The mode in which a text is left does not depend on what stands far behind it. -/
theorem modeAfter?_behind {before behind text after : List Char} {quoted : Bool}
    (hbehind : ShowsNoSign behind)
    (hstart : before = [] → behind.head?.any isWordChar = false ∨
      (text ++ after).head?.any isWordChar = false) :
    modeAfter? after quoted (before ++ behind) text = modeAfter? after quoted before text := by
  induction text generalizing before quoted with
  | nil => rfl
  | cons c text ih =>
    have hrest : ∀ mode, modeAfter? after mode (c :: before ++ behind) text =
        modeAfter? after mode (c :: before) text := by
      intro mode
      exact ih nofun
    cases quoted with
    | true =>
      rw [modeAfter?_quoted, modeAfter?_quoted]
      exact hrest _
    | false =>
      rw [modeAfter?, modeAfter?, Connective.at?_behind hstart, opensLiteral_behind hbehind]
      simp only [if_neg Bool.false_ne_true]
      split
      · rfl
      · exact hrest _

/-- The segments of a text with `behind` in front of it, last character first. -/
inductive CutsBehind :
    List Char → List Char → List Char → List (Connective × List Char) → Prop
  | last {behind s : List Char} (hs : modeAfter? [] false behind s = some false) :
    CutsBehind behind s s []
  | next {behind s rest s' : List Char} {c : Connective} {more : List (Connective × List Char)}
    (hs : modeAfter? (c.letters ++ rest) false behind s = some false)
    (hc : Connective.at? (s.reverse ++ behind) (c.letters ++ rest) = some c)
    (hr : CutsBehind (c.letters.reverse ++ (s.reverse ++ behind)) rest s' more) :
    CutsBehind behind (s ++ c.letters ++ rest) s ((c, s') :: more)

/-- The cuts of a text are its cuts behind a connective that the text does not continue. -/
theorem Cuts.behind {text s : List Char} {more : List (Connective × List Char)}
    (h : Cuts text s more) {behind : List Char} (hbehind : EndsInWord behind)
    (hstart : behind.head?.any isWordChar = false ∨ text.head?.any isWordChar = false) :
    CutsBehind behind text s more := by
  induction h generalizing behind with
  | last hs =>
    refine .last ?_
    rw [← List.nil_append behind,
      modeAfter?_behind hbehind.showsNoSign (fun _ => by simpa using hstart)]
    exact hs
  | @next s rest s' c more hs hc hr ih =>
    rw [List.append_assoc] at hstart
    obtain ⟨-, rest', hrest, hhead⟩ := Connective.of_at?_eq_some hc
    cases List.append_cancel_left hrest
    refine .next ?_ ?_ (ih (endsInWord_letters c _) (.inr hhead))
    · rw [← List.nil_append behind, modeAfter?_behind hbehind.showsNoSign (fun _ => hstart)]
      exact hs
    · rw [Connective.at?_behind]
      · exact hc
      · intro hempty
        rwa [List.reverse_eq_nil_iff.mp hempty] at hstart

theorem exists_cutsBehind (text : List Char) :
    ∃ s more, CutsBehind [] text s more ∧ scan 0 false [] text = ofCuts s more := by
  obtain ⟨s, more, h⟩ := exists_cuts text
  exact ⟨s, more, h.behind (.inl rfl) (.inl rfl), h.scan_eq⟩

end Token

end Verdict
