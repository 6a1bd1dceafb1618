import Mathlib.Data.List.Basic
import Verdict.Proofs.ClauseReading
import Verdict.Proofs.Pattern

/-!
# The grammar of clauses

A clause is described in two ways, and read as both say (`parse_eq`).

1. As a pattern (`grammar`): white space, a name, white space, comparison signs, white space and a
   value between quotes that may be missing, the value as short as possible and on one line. No
   choice is ever given up: a name or a run of signs that is cut short does not let the rest match,
   and no more does a quote that is left to the value (`captures?_eq`).
2. As a cut (`Cut`): each part in turn is as long as it can be, and the quotes are taken off the
   value with the white space behind it. There is a cut exactly if a name and a sign are there.
-/

namespace Verdict.Clause

open Text Operand Pattern Comparator

/-! ## The end of a value -/

/-- A quote, if there is one, and the white space at the end, with neither white space nor another
quote that could be taken off before them. -/
structure Closes (literal quote trailing : List Char) : Prop where
  quoted : quote = ['\''] ∨ quote = [] ∧ literal.getLast? ≠ some '\''
  blank : Blanks trailing
  last : (literal ++ quote).getLast?.any isBlank = false

/-- A value without the white space at its end and without one apostrophe before that. -/
def withoutEnd (text : List Char) : List Char :=
  (dropQuote (trimRight text).reverse).reverse

theorem literalOf_eq (text : List Char) : literalOf text = withoutEnd (dropQuote text) := rfl

theorem Closes.withoutEnd_eq {literal quote trailing : List Char}
    (h : Closes literal quote trailing) :
    withoutEnd (literal ++ quote ++ trailing) = literal := by
  rw [withoutEnd, trimRight_append h.blank, trimRight_eq_self h.last, List.reverse_append]
  rcases h.quoted with rfl | ⟨rfl, hlast⟩
  · rw [List.reverse_singleton, List.singleton_append, dropQuote, if_pos rfl, List.reverse_reverse]
  · rw [List.reverse_nil, List.nil_append, dropQuote_eq_self (by rwa [List.head?_reverse]),
      List.reverse_reverse]

theorem exists_closes (text : List Char) :
    ∃ literal quote trailing, text = literal ++ quote ++ trailing ∧
      Closes literal quote trailing := by
  obtain ⟨trailing, htrailing, htext⟩ := exists_trimRight text
  have hlast : (trimRight text).getLast?.any isBlank = false := by
    rw [trimRight, List.getLast?_reverse]
    exact head?_any_dropWhile isBlank _
  by_cases hquote : (trimRight text).getLast? = some '\''
  · obtain ⟨literal, hliteral⟩ := List.getLast?_eq_some_iff.mp hquote
    rw [hliteral] at htext hlast
    exact ⟨literal, ['\''], trailing, htext, .inl rfl, htrailing, hlast⟩
  · refine ⟨trimRight text, [], trailing, by simpa using htext, .inr ⟨rfl, hquote⟩, htrailing, ?_⟩
    rwa [List.append_nil]

/-! ## The pattern -/

/-- An apostrophe. -/
def isQuote (c : Char) : Bool :=
  c == '\''

/-- A character that a value may hold. -/
def isInline (c : Char) : Bool :=
  c != '\n'

/-- What stands behind a value. -/
def endGrammar : List Piece :=
  [.optional isQuote, .greedy isBlank]

/-- What stands behind the signs. -/
def valueGrammar : List Piece :=
  .greedy isBlank :: .optional isQuote :: .lazy isInline :: endGrammar

/-- The pattern of a clause. -/
def grammar : List Piece :=
  .greedy isBlank :: .one isNameStart :: .greedy isWordChar :: .greedy isBlank ::
    .one isSignChar :: .greedy isSignChar :: valueGrammar

/-- The parts that the pattern finds in a text: what it takes as name, as signs and as value. -/
def captures? (text : List Char) : Option Parts :=
  match firstMatch? grammar text with
  | some [_, initial, name, _, sign, signs, _, _, value, _, _] =>
    some ⟨initial ++ name, sign ++ signs, value⟩
  | _ => none

/-! ## The value of a match -/

theorem dropQuote_of_head? {text : List Char} (h : text.head?.any isQuote = false) :
    dropQuote text = text := by
  apply dropQuote_eq_self
  intro hquote
  rw [hquote] at h
  cases h

theorem matches_blanks {text : List Char} : Matches [.greedy isBlank] text ↔ Blanks text := by
  rw [matches_cons]
  constructor
  · rintro ⟨taken, rest, rfl, htaken, hrest⟩
    rw [matches_nil.mp hrest, List.append_nil]
    exact htaken
  · intro h
    exact ⟨text, [], List.append_nil text, h, matches_nil.mpr rfl⟩

theorem matches_endGrammar {text : List Char} :
    Matches endGrammar text ↔ ∃ quote trailing, text = quote ++ trailing ∧
      (quote = [] ∨ quote = ['\'']) ∧ Blanks trailing := by
  rw [endGrammar, matches_cons]
  constructor
  · rintro ⟨quote, trailing, rfl, hquote, htrailing⟩
    refine ⟨quote, trailing, rfl, ?_, matches_blanks.mp htrailing⟩
    rcases hquote with hnil | ⟨c, hc, hone⟩
    · exact .inl hnil
    · exact .inr (by rw [hone, beq_iff_eq.mp hc])
  · rintro ⟨quote, trailing, rfl, hquote, htrailing⟩
    refine ⟨quote, trailing, rfl, ?_, matches_blanks.mpr htrailing⟩
    rcases hquote with hnil | hone
    · exact .inl hnil
    · exact .inr ⟨'\'', rfl, hone⟩

/-- A shorter value would leave more behind it than a quote and white space. -/
theorem Closes.not_matches {literal quote trailing : List Char}
    (h : Closes literal quote trailing) {back : List Char} (hne : back ≠ [])
    (hback : back <:+ literal) : ¬Matches endGrammar (back ++ (quote ++ trailing)) := by
  rw [matches_endGrammar]
  rintro ⟨first, blanks, htext, hfirst, hblanks⟩
  obtain ⟨front, rfl⟩ := hback
  have hends : ∃ before c, back ++ quote = before ++ [c] := by
    rcases List.eq_nil_or_concat' (back ++ quote) with hnil | hends
    · exact absurd (List.append_eq_nil_iff.mp hnil).1 hne
    · exact hends
  obtain ⟨before, c, hends⟩ := hends
  have hblank : isBlank c = false := by
    have hlast := h.last
    rw [List.append_assoc, hends, ← List.append_assoc, List.getLast?_concat] at hlast
    exact hlast
  have hnot : c ∉ blanks := by
    intro hmem
    rw [hblanks c hmem] at hblank
    cases hblank
  -- the last character before the white space can only be the quote, with nothing in front of it
  have hquote : before = [] ∧ c = '\'' := by
    rw [← List.append_assoc, hends, List.append_assoc] at htext
    rcases hfirst with rfl | rfl
    · rw [List.nil_append] at htext
      exact absurd (by simp [← htext]) hnot
    · cases before with
      | nil => exact ⟨rfl, (List.cons.inj htext).1⟩
      | cons d before =>
        have hrest : before ++ ([c] ++ trailing) = blanks := (List.cons.inj htext).2
        exact absurd (by simp [← hrest]) hnot
  obtain ⟨rfl, rfl⟩ := hquote
  rcases List.append_eq_singleton_iff.mp hends with ⟨hnil, -⟩ | ⟨rfl, rfl⟩
  · exact hne hnil
  · rcases h.quoted with hquote | ⟨-, hlast⟩
    · cases hquote
    · exact hlast List.getLast?_concat

/-- The value is what stands before its end, if it is on one line. -/
theorem firstMatch?_lazy_endGrammar {literal quote trailing : List Char}
    (h : Closes literal quote trailing) :
    ∃ first blanks, firstMatch? (.lazy isInline :: endGrammar) (literal ++ quote ++ trailing) =
      if literal.contains '\n' then none else some [literal, first, blanks] := by
  have hclosing : Matches endGrammar (quote ++ trailing) := by
    refine matches_endGrammar.mpr ⟨quote, trailing, rfl, ?_, h.blank⟩
    rcases h.quoted with hquote | ⟨hnil, -⟩
    · exact .inr hquote
    · exact .inl hnil
  obtain ⟨parts, hparts⟩ := Option.isSome_iff_exists.mp hclosing
  obtain ⟨first, blanks, rfl⟩ := List.length_eq_two.mp (length_of_firstMatch? hparts)
  refine ⟨first, blanks, ?_⟩
  rw [List.append_assoc, firstMatch?_lazy hparts fun back hne hback => h.not_matches hne hback]
  have hline : literal.all isInline = !literal.contains '\n' := by
    rw [Bool.eq_iff_iff]
    simp only [List.all_eq_true, isInline, bne_iff_ne, Bool.not_eq_true', List.contains_eq_mem,
      decide_eq_false_iff_not]
    exact List.forall_mem_ne'
  rw [hline]
  cases literal.contains '\n' <;> rfl

/-- Behind the signs the pattern finds the literal, if it is on one line. -/
theorem firstMatch?_valueGrammar (text : List Char) :
    ∃ blanks opening first trailing, firstMatch? valueGrammar text =
      if (literalOf (text.dropWhile isBlank)).contains '\n' then none
      else some [blanks, opening, literalOf (text.dropWhile isBlank), first, trailing] := by
  rw [valueGrammar, firstMatch?_greedy rfl]
  generalize text.dropWhile isBlank = rest
  have hopening : ∃ opening, firstMatch? (.optional isQuote :: .lazy isInline :: endGrammar) rest =
      (firstMatch? (.lazy isInline :: endGrammar) (dropQuote rest)).map (opening :: ·) := by
    by_cases hquote : rest.head?.any isQuote = true
    · cases rest with
      | nil => cases hquote
      | cons c rest =>
        have hc : isQuote c = true := hquote
        refine ⟨[c], ?_⟩
        rw [firstMatch?_optional rfl hc, dropQuote, if_pos (beq_iff_eq.mp hc)]
    · rw [Bool.not_eq_true] at hquote
      refine ⟨[], ?_⟩
      rw [firstMatch?_optional_of_head? hquote, dropQuote_of_head? hquote]
  obtain ⟨opening, hopening⟩ := hopening
  obtain ⟨literal, quote, trailing, hrest, hcloses⟩ := exists_closes (dropQuote rest)
  obtain ⟨first, blanks, hmatch⟩ := firstMatch?_lazy_endGrammar hcloses
  have hliteral : literalOf rest = literal := by
    rw [literalOf_eq, hrest, hcloses.withoutEnd_eq]
  refine ⟨text.takeWhile isBlank, opening, first, blanks, ?_⟩
  rw [hopening, hrest, hmatch, hliteral]
  cases literal.contains '\n' <;> rfl

/-! ## The match -/

theorem avoids_blank_name (pieces : List Piece) : Avoids isBlank (.one isNameStart :: pieces) := by
  refine avoids_one fun c hc => ?_
  by_contra hstart
  have hword := isWordChar_of_isNameStart (Bool.not_eq_false _ ▸ hstart)
  rw [isWordChar_eq_false_of_isBlank hc] at hword
  cases hword

theorem avoids_blank_sign (pieces : List Piece) : Avoids isBlank (.one isSignChar :: pieces) :=
  avoids_one fun _ hc => isSignChar_eq_false_of_isBlank hc

theorem avoids_word (pieces : List Piece) :
    Avoids isWordChar (.greedy isBlank :: .one isSignChar :: pieces) :=
  avoids_greedy (fun _ hc => isBlank_eq_false_of_isWordChar hc)
    (avoids_one fun _ hc => isSignChar_eq_false_of_isWordChar hc)

/-- The pattern finds the parts into which a clause is split, if there is a sign and the value is on
one line, and otherwise does not match. -/
theorem captures?_eq (text : List Char) :
    captures? text = (split? text).filter fun parts =>
      !(parts.sign.isEmpty || parts.value.contains '\n') := by
  unfold captures? split?
  rw [grammar, firstMatch?_greedy_of_avoids (avoids_blank_name _)]
  cases text.dropWhile isBlank with
  | nil => rfl
  | cons c rest =>
    by_cases hc : isNameStart c = true
    · simp only [if_pos hc]
      rw [firstMatch?_one hc, firstMatch?_greedy_of_avoids (avoids_word _),
        firstMatch?_greedy_of_avoids (avoids_blank_sign _)]
      cases (rest.dropWhile isWordChar).dropWhile isBlank with
      | nil => rfl
      | cons d rest =>
        by_cases hd : isSignChar d = true
        · obtain ⟨blanks, opening, first, trailing, hvalue⟩ :=
            firstMatch?_valueGrammar (rest.dropWhile isSignChar)
          rw [firstMatch?_one hd, firstMatch?_greedy rfl, hvalue, List.takeWhile_cons_of_pos hd,
            List.dropWhile_cons_of_pos hd]
          rw [Option.filter_some]
          cases (literalOf ((rest.dropWhile isSignChar).dropWhile isBlank)).contains '\n' <;> rfl
        · rw [firstMatch?_one_eq_none (by simpa using hd), List.takeWhile_cons_of_neg hd]
          rfl
    · simp only [if_neg hc]
      rw [firstMatch?_one_eq_none (by simpa using hc)]
      rfl

/-! ## Cuts -/

/-- A name and behind it a comparison sign stand at the front of a text. -/
def StartsComparison (text : List Char) : Prop :=
  ∃ before name between tail, text = before ++ (name ++ (between ++ tail)) ∧ Blanks before ∧
    IsName name ∧ Blanks between ∧ tail.head?.any isSignChar = true

/-- A text cut into the parts of a clause. The signs go on for as long as they can and the white
space behind them too; a name always ends where it can no longer go on, at white space or a sign. -/
structure Cut (text : List Char) where
  before : List Char
  name : List Char
  between : List Char
  sign : List Char
  after : List Char
  opening : List Char
  literal : List Char
  quote : List Char
  trailing : List Char
  text_eq : text = before ++ (name ++ (between ++ (sign ++ (after ++ (opening ++
    (literal ++ quote ++ trailing))))))
  blankBefore : Blanks before
  isName : IsName name
  blankBetween : Blanks between
  sign_ne : sign ≠ []
  isSign : ∀ c ∈ sign, isSignChar c = true
  signEnds : (after ++ (opening ++ (literal ++ quote ++ trailing))).head?.any isSignChar = false
  blankAfter : Blanks after
  afterEnds : (opening ++ (literal ++ quote ++ trailing)).head?.any isBlank = false
  opens : opening = ['\''] ∨ opening = [] ∧ (literal ++ quote ++ trailing).head? ≠ some '\''
  closes : Closes literal quote trailing

/-- What a cut text is read as. -/
inductive Cut.Reads {text : String} (cut : Cut text.toList) : Except Refusal Clause → Prop
  | lineFeed (line : '\n' ∈ cut.literal) : Reads cut (.error (.invalidOperand text))
  | unknownOperator (line : '\n' ∉ cut.literal)
    (sign : ∀ comparator : Comparator, cut.sign ≠ comparator.sign) :
    Reads cut (.error (.unknownOperator (String.ofList cut.sign)))
  | clause (line : '\n' ∉ cut.literal) (comparator : Comparator)
    (sign : cut.sign = comparator.sign) :
    Reads cut (.ok ⟨String.ofList cut.name, comparator, String.ofList cut.literal⟩)

/-- A name and a sign are split off, whatever follows them. -/
theorem split?_append {before name between tail : List Char} (hbefore : Blanks before)
    (hname : IsName name) (hbetween : Blanks between)
    (htail : tail.head?.any isSignChar = true) :
    split? (before ++ (name ++ (between ++ tail))) = some ⟨name, tail.takeWhile isSignChar,
      literalOf ((tail.dropWhile isSignChar).dropWhile isBlank)⟩ := by
  obtain ⟨c, rest, rfl, hstart, hrest⟩ := hname
  cases tail with
  | nil => cases htail
  | cons d tail =>
    have hd : isSignChar d = true := htail
    obtain ⟨hblank, hword, -⟩ := classes_of_isSignChar hd
    have hc : isBlank c = false :=
      isBlank_eq_false_of_isWordChar (isWordChar_of_isNameStart hstart)
    have hname : (between ++ d :: tail).head?.any isWordChar = false := by
      cases between with
      | nil => exact hword
      | cons e between => exact isWordChar_eq_false_of_isBlank (hbetween e List.mem_cons_self)
    rw [split?, List.cons_append, dropWhile_run hbefore (by simpa using hc)]
    simp only [if_pos hstart]
    rw [dropWhile_run hrest hname, takeWhile_run hrest hname,
      dropWhile_run hbetween (by simpa using hblank)]

theorem exists_opening (text : List Char) :
    ∃ opening, text = opening ++ dropQuote text ∧
      (opening = ['\''] ∨ opening = [] ∧ (dropQuote text).head? ≠ some '\'') := by
  cases text with
  | nil => exact ⟨[], rfl, .inr ⟨rfl, by simp [dropQuote]⟩⟩
  | cons c rest =>
    by_cases hc : c = '\''
    · rw [dropQuote, if_pos hc]
      exact ⟨[c], rfl, .inl (by rw [hc])⟩
    · rw [dropQuote, if_neg hc]
      exact ⟨[], rfl, .inr ⟨rfl, by simpa using hc⟩⟩

/-- A text can be cut exactly if a name and a sign are there. -/
theorem nonempty_cut_iff {text : List Char} : Nonempty (Cut text) ↔ StartsComparison text := by
  constructor
  · rintro ⟨cut⟩
    refine ⟨cut.before, cut.name, cut.between, _, cut.text_eq, cut.blankBefore, cut.isName,
      cut.blankBetween, ?_⟩
    have hne := cut.sign_ne
    have hsign := cut.isSign
    cases hcut : cut.sign with
    | nil => exact absurd hcut hne
    | cons c sign => exact hsign c (hcut ▸ List.mem_cons_self)
  · rintro ⟨before, name, between, tail, rfl, hbefore, hname, hbetween, htail⟩
    obtain ⟨opening, hvalue, hopens⟩ :=
      exists_opening ((tail.dropWhile isSignChar).dropWhile isBlank)
    obtain ⟨literal, quote, trailing, hrest, hcloses⟩ :=
      exists_closes (dropQuote ((tail.dropWhile isSignChar).dropWhile isBlank))
    rw [hrest] at hvalue hopens
    have hafter := List.takeWhile_append_dropWhile (p := isBlank) (l := tail.dropWhile isSignChar)
    rw [hvalue] at hafter
    have hsign := List.takeWhile_append_dropWhile (p := isSignChar) (l := tail)
    rw [← hafter] at hsign
    exact ⟨{
      before, name, between, opening, literal, quote, trailing
      sign := tail.takeWhile isSignChar
      after := (tail.dropWhile isSignChar).takeWhile isBlank
      text_eq := by rw [hsign]
      blankBefore := hbefore
      isName := hname
      blankBetween := hbetween
      sign_ne := by
        cases tail with
        | nil => cases htail
        | cons c tail =>
          have hc : isSignChar c = true := htail
          rw [List.takeWhile_cons_of_pos hc]
          exact List.cons_ne_nil _ _
      isSign := fun c hc => List.mem_takeWhile_imp hc
      signEnds := by
        rw [hafter]
        exact head?_any_dropWhile isSignChar tail
      blankAfter := fun c hc => List.mem_takeWhile_imp hc
      afterEnds := by
        rw [← hvalue]
        exact head?_any_dropWhile isBlank _
      opens := hopens
      closes := hcloses }⟩

theorem Cut.split?_eq {text : List Char} (cut : Cut text) :
    split? text = some ⟨cut.name, cut.sign, cut.literal⟩ := by
  obtain ⟨before, name, between, sign, after, opening, literal, quote, trailing, rfl, hbefore,
    hname, hbetween, hne, hsign, hends, hafter, hvalue, hopens, hcloses⟩ := cut
  have hliteral : literalOf (opening ++ (literal ++ quote ++ trailing)) = literal := by
    rw [literalOf_eq]
    rcases hopens with rfl | ⟨rfl, hhead⟩
    · rw [List.singleton_append, dropQuote, if_pos rfl, hcloses.withoutEnd_eq]
    · rw [List.nil_append, dropQuote_eq_self hhead, hcloses.withoutEnd_eq]
  rw [split?_append hbefore hname hbetween, takeWhile_run hsign hends, dropWhile_run hsign hends,
    dropWhile_run hafter hvalue, hliteral]
  cases sign with
  | nil => exact absurd rfl hne
  | cons c sign => exact hsign c List.mem_cons_self

/-! ## Reading -/

theorem ofSign?_eq_some_iff {text : List Char} {comparator : Comparator} :
    ofSign? text = some comparator ↔ text = comparator.sign := by
  constructor
  · intro h
    rw [ofSign?] at h
    have hsign := List.find?_some h
    exact (beq_iff_eq.mp hsign).symm
  · rintro rfl
    exact ofSign?_sign comparator

theorem parse_of_split? {text : String} {parts : Parts} (h : split? text.toList = some parts) :
    parse text =
      if parts.sign.isEmpty || parts.value.contains '\n' then .error (.invalidOperand text)
      else (ofSign (String.ofList parts.sign)).map fun comparator =>
        ⟨String.ofList parts.name, comparator, String.ofList parts.value⟩ := by
  rw [parse, h]
  refine if_congr Iff.rfl rfl ?_
  cases ofSign (String.ofList parts.sign) <;> rfl

/-- Only a text in which a name and a sign stand at the front is split with a sign. -/
theorem startsComparison_of_split? {text : List Char} {parts : Parts}
    (h : split? text = some parts) (hsign : parts.sign ≠ []) : StartsComparison text := by
  have htext := List.takeWhile_append_dropWhile (p := isBlank) (l := text)
  unfold split? at h
  cases hname : text.dropWhile isBlank with
  | nil => simp [hname] at h
  | cons c rest =>
    rw [hname] at htext
    simp only [hname] at h
    split at h
    · next hstart =>
      obtain rfl := Option.some.inj h
      refine ⟨text.takeWhile isBlank, c :: rest.takeWhile isWordChar,
        (rest.dropWhile isWordChar).takeWhile isBlank,
        (rest.dropWhile isWordChar).dropWhile isBlank, ?_, fun d hd => List.mem_takeWhile_imp hd,
        ⟨c, _, rfl, hstart, fun d hd => List.mem_takeWhile_imp hd⟩,
        fun d hd => List.mem_takeWhile_imp hd, ?_⟩
      · rw [List.cons_append, List.takeWhile_append_dropWhile, List.takeWhile_append_dropWhile,
          htext]
      · by_contra hnone
        exact hsign (takeWhile_eq_nil_of_head? (by simpa using hnone))
    · cases h

/-- A clause is read as the parts that its pattern finds, which are the parts that it is cut into. A
text in which no name and sign stand at the front is refused. -/
theorem parse_eq (text : String) :
    (parse text = match captures? text.toList with
      | none => .error (.invalidOperand text)
      | some parts => (ofSign (String.ofList parts.sign)).map fun comparator =>
          ⟨String.ofList parts.name, comparator, String.ofList parts.value⟩) ∧
    (∀ cut : Cut text.toList, cut.Reads (parse text)) ∧
    (Nonempty (Cut text.toList) ↔ StartsComparison text.toList) ∧
    (¬StartsComparison text.toList → parse text = .error (.invalidOperand text)) := by
  refine ⟨?_, fun cut => ?_, nonempty_cut_iff, fun hnot => ?_⟩
  · rw [captures?_eq]
    cases hsplit : split? text.toList with
    | none => rw [parse, hsplit, Option.filter_none]
    | some parts =>
      rw [parse_of_split? hsplit, Option.filter_some]
      cases parts.sign.isEmpty || parts.value.contains '\n' <;> rfl
  · have hne : cut.sign.isEmpty = false := List.isEmpty_eq_false_iff.mpr cut.sign_ne
    rw [parse_of_split? cut.split?_eq, hne, Bool.false_or, ofSign, String.toList_ofList]
    by_cases hline : '\n' ∈ cut.literal
    · rw [if_pos (by simpa using hline)]
      exact .lineFeed hline
    · rw [if_neg (by simpa using hline)]
      cases hsign : ofSign? cut.sign with
      | none =>
        refine .unknownOperator hline fun comparator hcomparator => ?_
        rw [ofSign?_eq_some_iff.mpr hcomparator] at hsign
        cases hsign
      | some comparator => exact .clause hline comparator (ofSign?_eq_some_iff.mp hsign)
  · cases hsplit : split? text.toList with
    | none => rw [parse, hsplit]
    | some parts =>
      have hsign : parts.sign = [] := by
        by_contra hne
        exact hnot (startsComparison_of_split? hsplit hne)
      rw [parse_of_split? hsplit, hsign]
      rfl

/-- The cut of a clause with a quote inside its quotes, behind its name and in front of white
space. -/
def cutOfQuoted : Cut " a.b >='it's '\t".toList where
  before := [' ']
  name := ['a', '.', 'b']
  between := [' ']
  sign := ['>', '=']
  after := []
  opening := ['\'']
  literal := ['i', 't', '\'', 's', ' ']
  quote := ['\'']
  trailing := ['\t']
  text_eq := by decide +kernel
  blankBefore := blanks_space
  isName := ⟨'a', ['.', 'b'], rfl, by decide, List.all_eq_true.mp (by decide)⟩
  blankBetween := blanks_space
  sign_ne := by decide
  isSign := List.all_eq_true.mp (by decide)
  signEnds := by decide
  blankAfter := blanks_nil
  afterEnds := by decide
  opens := .inl rfl
  closes := ⟨.inl rfl, List.all_eq_true.mp (by decide), by decide⟩

/-- The quote inside the quotes is kept, and so is the white space in front of the last one. A text
that starts with a digit has no name. -/
theorem parse_eq_quoted :
    parse " a.b >='it's '\t" = .ok ⟨"a.b", .greaterEqual, "it's "⟩ ∧
      parse "9 > 1" = .error (.invalidOperand "9 > 1") := by
  constructor
  · have hreads := (parse_eq " a.b >='it's '\t").2.1 cutOfQuoted
    generalize parse " a.b >='it's '\t" = answer at hreads
    cases hreads with
    | lineFeed hline => exact absurd hline (by decide)
    | unknownOperator _ hsign => exact absurd rfl (hsign .greaterEqual)
    | clause _ comparator hsign =>
      have hcomparator : some comparator = some .greaterEqual :=
        (ofSign?_eq_some_iff.mpr hsign).symm.trans (ofSign?_sign .greaterEqual)
      rw [Option.some.inj hcomparator]
      rfl
  · refine (parse_eq "9 > 1").2.2.2 ?_
    rw [← nonempty_cut_iff]
    rintro ⟨cut⟩
    have hsplit : split? "9 > 1".toList = none := by decide +kernel
    rw [cut.split?_eq] at hsplit
    cases hsplit

end Verdict.Clause
