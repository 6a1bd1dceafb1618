import Mathlib.Data.List.Induction
import Verdict.Proofs.ByteScan
import Verdict.Proofs.Spine

/-!
# The segments of a rule

What the literals of a text are and where a connective stands in it is told without a scan:
`Outside` finds the literals from left to right, and `Standing` asks for the word of a connective
outside them with no word character at either end. The scan cuts a rule at these places and nowhere
else, and loses nothing between them (`exists_segmentation`).

1. A place is outside the literals exactly if a scan that looks for apostrophes only is in the plain
   mode there (`outside_iff`), and that is the mode of the scan up to the next connective.
2. So a connective stands at a place of a text exactly if there is a cut (`standsBehind_iff`): in
   front of the first cut the scan would have met it, at the cut there is one word only, inside the
   word of a connective no other can begin, and behind it the text is taken up with that word in
   front.
3. With no apostrophe to come a place is outside the literals, since an apostrophe opens a literal
   only where another one is still to come (`outside_of_not_mem`).
-/

namespace Verdict

open Text

namespace Token

/-! ## Literals and connectives of a text -/

/-- An apostrophe between `front` and `after` opens a literal: the nearest character before it that
is no ASCII blank ends a comparator, and a later apostrophe closes it. -/
def Opens (front after : List Char) : Prop :=
  (∃ lead sign blanks, front = lead ++ sign :: blanks ∧ sign ∈ ['=', '<', '>'] ∧
    ∀ c ∈ blanks, isAsciiBlank c = true) ∧ '\'' ∈ after

/-- The place between `front` and `rest` is outside the literals of the text, which are found from
left to right. -/
inductive Outside (text : List Char) : List Char → List Char → Prop
  | start : Outside text [] text
  | plain {front rest : List Char} {c : Char} (h : Outside text front (c :: rest))
    (hc : c = '\'' → ¬ Opens front rest) : Outside text (front ++ [c]) rest
  | literal {front content rest : List Char}
    (h : Outside text front ('\'' :: content ++ '\'' :: rest))
    (ho : Opens front (content ++ '\'' :: rest)) (hc : '\'' ∉ content) :
    Outside text (front ++ ('\'' :: content ++ ['\''])) rest

/-- The word of a connective stands between `front` and `rest`, outside literals and with no word
character directly before or after it. -/
structure Standing (text front : List Char) (c : Connective) (rest : List Char) : Prop where
  outside : Outside text front (c.letters ++ rest)
  before : front.getLast?.any isWordChar = false
  after : rest.head?.any isWordChar = false

/-- The text of segments. -/
def spelled (first : List Char) (more : List (Connective × List Char)) : List Char :=
  first ++ more.flatMap fun cut => cut.1.letters ++ cut.2

/-- The connectives of segments, each with the text before it and the text after it. -/
def places (first : List Char) :
    List (Connective × List Char) → List (List Char × Connective × List Char)
  | [] => []
  | (c, s) :: more =>
    (first, c, spelled s more) ::
      (places s more).map fun place => (first ++ c.letters ++ place.1, place.2)

/-! ## Literals by their mode -/

/-- Whether the end of a text is inside a literal, if its start is or is not; `before` stands in
front of it, last character first, and `after` behind it. -/
def quotedAfter (after : List Char) (quoted : Bool) (before : List Char) : List Char → Bool
  | [] => quoted
  | c :: text =>
    quotedAfter after
      (if quoted then c != '\'' else c == '\'' && opensLiteral before (text ++ after))
      (c :: before) text

theorem quotedAfter_append (after s t before : List Char) (quoted : Bool) :
    quotedAfter after quoted before (s ++ t) =
      quotedAfter after (quotedAfter (t ++ after) quoted before s) (s.reverse ++ before) t := by
  induction s generalizing quoted before with
  | nil => rfl
  | cons c s ih =>
    rw [List.cons_append, quotedAfter, quotedAfter, ih, List.append_assoc]
    simp

theorem quotedAfter_of_modeAfter? {after before s : List Char} {quoted mode : Bool}
    (h : modeAfter? after quoted before s = some mode) :
    quotedAfter after quoted before s = mode := by
  induction s generalizing quoted before with
  | nil =>
    cases h
    rfl
  | cons c s ih =>
    cases quoted with
    | true =>
      rw [modeAfter?_quoted] at h
      exact ih h
    | false =>
      rw [modeAfter?_plain (at?_eq_none_of_crossed h)] at h
      exact ih h

theorem quotedAfter_letters (after before : List Char) (c : Connective) :
    quotedAfter after false before c.letters = false := by
  cases c <;> simp [Connective.letters_and, Connective.letters_or, quotedAfter]

theorem opens_iff (front after : List Char) :
    Opens front after ↔ opensLiteral front.reverse after = true := by
  unfold Opens opensLiteral
  rw [Bool.and_eq_true, List.contains_iff_mem]
  refine and_congr_left fun _ => ⟨?_, ?_⟩
  · rintro ⟨lead, sign, blanks, rfl, hsign, hblanks⟩
    have hclass : (!isAsciiBlank sign) = true ∧
        (sign == '=' || sign == '<' || sign == '>') = true := by
      simp only [List.mem_cons, List.not_mem_nil, or_false] at hsign
      rcases hsign with rfl | rfl | rfl <;> decide
    have hfind : (lead ++ sign :: blanks).reverse.find? (fun c => !isAsciiBlank c) = some sign := by
      refine List.find?_eq_some_iff_append.mpr
        ⟨hclass.1, blanks.reverse, lead.reverse, by simp, ?_⟩
      intro c hc
      simpa using hblanks c (List.mem_reverse.mp hc)
    rw [hfind, Option.any_some]
    exact hclass.2
  · intro h
    obtain ⟨sign, hfind, hsign⟩ := (Option.any_eq_true _ _).mp h
    obtain ⟨-, blanks, lead, hsplit, hblanks⟩ := List.find?_eq_some_iff_append.mp hfind
    refine ⟨lead.reverse, sign, blanks.reverse, ?_, by simpa [or_assoc] using hsign, ?_⟩
    · rw [← List.reverse_reverse front, hsplit]
      simp
    · intro c hc
      simpa using hblanks c (List.mem_reverse.mp hc)

theorem Outside.text_eq {text front rest : List Char} (h : Outside text front rest) :
    text = front ++ rest := by
  induction h with
  | start => rfl
  | plain h hc ih => simpa using ih
  | literal h ho hc ih => simpa using ih

theorem Outside.quotedAfter_eq {text front rest : List Char} (h : Outside text front rest) :
    quotedAfter rest false [] front = false := by
  induction h with
  | start => rfl
  | @plain front rest c h hc ih =>
    rw [quotedAfter_append, List.singleton_append, ih, List.append_nil]
    show (c == '\'' && opensLiteral front.reverse rest) = false
    by_cases hq : c = '\''
    · have hopens := mt (opens_iff front rest).mpr (hc hq)
      rw [Bool.not_eq_true] at hopens
      rw [hopens, Bool.and_false]
    · rw [beq_false_of_ne hq, Bool.false_and]
  | @literal front content rest h ho hc ih =>
    have hopens := (opens_iff _ _).mp ho
    have hrest : '\'' :: content ++ ['\''] ++ rest = '\'' :: content ++ '\'' :: rest := by simp
    rw [quotedAfter_append, hrest, ih, List.append_nil]
    exact quotedAfter_of_modeAfter? (modeAfter?_literal hc hopens)

/-- Where the mode is plain, the place is outside the literals; elsewhere a literal has been opened
and not yet closed. -/
theorem outside_or_inside (front rest : List Char) :
    if quotedAfter rest false [] front then
      ∃ lead content, front = lead ++ '\'' :: content ∧ '\'' ∉ content ∧
        Outside (front ++ rest) lead ('\'' :: content ++ rest) ∧ Opens lead (content ++ rest)
    else Outside (front ++ rest) front rest := by
  induction front using List.reverseRecOn generalizing rest with
  | nil => exact .start
  | append_singleton front c ih =>
    have hprev := ih (c :: rest)
    rw [quotedAfter_append, List.singleton_append, List.append_nil]
    rw [List.append_assoc, List.singleton_append]
    cases hmode : quotedAfter (c :: rest) false [] front with
    | false =>
      rw [hmode, if_neg Bool.false_ne_true] at hprev
      show if (c == '\'' && opensLiteral front.reverse rest) then _ else _
      split
      · next hopen =>
        rw [Bool.and_eq_true, beq_iff_eq] at hopen
        obtain ⟨rfl, hopen⟩ := hopen
        exact ⟨front, [], rfl, List.not_mem_nil, hprev, (opens_iff front rest).mpr hopen⟩
      · next hopen =>
        refine hprev.plain ?_
        rintro rfl hopens
        exact hopen (by rw [(opens_iff front rest).mp hopens]; rfl)
    | true =>
      rw [hmode, if_pos rfl] at hprev
      obtain ⟨lead, content, rfl, hcontent, hout, hopens⟩ := hprev
      show if (c != '\'') then _ else _
      split
      · next hc =>
        refine ⟨lead, content ++ [c], by simp, ?_, by simpa using hout, by simpa using hopens⟩
        rw [List.mem_append, List.mem_singleton]
        rintro (hmem | rfl)
        · exact hcontent hmem
        · exact absurd hc (by decide)
      · next hc =>
        have hc' : c = '\'' := by simpa using hc
        subst hc'
        have hclosed := hout.literal hopens hcontent
        simpa using hclosed

/-- A place is outside the literals of a text exactly if the mode there is plain. -/
theorem outside_iff (front rest : List Char) :
    Outside (front ++ rest) front rest ↔ quotedAfter rest false [] front = false := by
  refine ⟨Outside.quotedAfter_eq, fun h => ?_⟩
  have hplace := outside_or_inside front rest
  rwa [h, if_neg Bool.false_ne_true] at hplace

/-! ## The connectives are the cuts -/

/-- The word of a connective stands in a text behind `front`, outside literals and on its own, where
`behind` is in front of the text, last character first. -/
structure StandsBehind (behind text front : List Char) (c : Connective) (rest : List Char) :
    Prop where
  text_eq : text = front ++ (c.letters ++ rest)
  plain : quotedAfter (c.letters ++ rest) false behind front = false
  before : (front.reverse ++ behind).head?.any isWordChar = false
  after : rest.head?.any isWordChar = false

theorem standing_iff (text front : List Char) (c : Connective) (rest : List Char) :
    Standing text front c rest ↔ StandsBehind [] text front c rest := by
  constructor
  · intro h
    refine ⟨h.outside.text_eq, h.outside.quotedAfter_eq, ?_, h.after⟩
    rw [List.append_nil, List.head?_reverse]
    exact h.before
  · rintro ⟨rfl, hplain, hbefore, hafter⟩
    refine ⟨(outside_iff front _).mpr hplain, ?_, hafter⟩
    rwa [List.append_nil, List.head?_reverse] at hbefore

theorem StandsBehind.at?_eq {behind text front rest : List Char} {c : Connective}
    (h : StandsBehind behind text front c rest) :
    Connective.at? (front.reverse ++ behind) (c.letters ++ rest) = some c :=
  Connective.at?_letters c h.before h.after

/-- No connective stands where a text is crossed outside literals. -/
theorem at?_eq_none_of_mode {after behind front text : List Char} {c : Char} {mode : Bool}
    (h : modeAfter? after false behind (front ++ c :: text) = some mode)
    (hplain : quotedAfter (c :: text ++ after) false behind front = false) :
    Connective.at? (front.reverse ++ behind) (c :: text ++ after) = none := by
  rw [modeAfter?_append] at h
  obtain ⟨reached, hreached, hrest⟩ := Option.bind_eq_some_iff.mp h
  rw [← quotedAfter_of_modeAfter? hreached, hplain] at hrest
  exact at?_eq_none_of_crossed hrest

/-- Behind a connective the mode is plain again. -/
theorem quotedAfter_past {behind s text after : List Char} {c : Connective}
    (h : modeAfter? (c.letters ++ (text ++ after)) false behind s = some false) :
    quotedAfter after false behind (s ++ c.letters ++ text) =
      quotedAfter after false (c.letters.reverse ++ (s.reverse ++ behind)) text := by
  rw [List.append_assoc, quotedAfter_append, List.append_assoc, quotedAfter_of_modeAfter? h,
    quotedAfter_append, quotedAfter_letters]

theorem CutsBehind.text_eq {behind text s : List Char} {more : List (Connective × List Char)}
    (h : CutsBehind behind text s more) : text = spelled s more := by
  induction h with
  | last hs => simp [spelled]
  | next hs hc hr ih =>
    rw [ih]
    simp [spelled]

/-- No connective stands inside a segment. -/
theorem not_standsBehind_inside {after behind front more : List Char} {a : Char} {mode : Bool}
    (hs : modeAfter? after false behind (front ++ a :: more) = some mode) {c : Connective}
    {rest : List Char} (hrest : c.letters ++ rest = a :: more ++ after) (text : List Char) :
    ¬ StandsBehind behind text front c rest := by
  intro h
  have hplain := h.plain
  have hat := h.at?_eq
  rw [hrest] at hplain hat
  rw [at?_eq_none_of_mode hs hplain] at hat
  cases hat

/-- At the place of a cut stands no other connective. -/
theorem StandsBehind.eq_cut {behind text s rest after : List Char} {c d : Connective}
    (h : StandsBehind behind text s d after) (heq : c.letters ++ rest = d.letters ++ after)
    (hc : Connective.at? (s.reverse ++ behind) (c.letters ++ rest) = some c) :
    (s, d, after) = (s, c, rest) := by
  have hat := h.at?_eq
  rw [← heq, hc] at hat
  cases hat
  rw [List.append_cancel_left heq]

/-- Behind a connective the places are those of the text that follows it. -/
theorem standsBehind_past {behind s rest : List Char} {c : Connective}
    (hs : modeAfter? (c.letters ++ rest) false behind s = some false)
    (front : List Char) (d : Connective) (after : List Char) :
    StandsBehind behind (s ++ c.letters ++ rest) (s ++ c.letters ++ front) d after ↔
      StandsBehind (c.letters.reverse ++ (s.reverse ++ behind)) rest front d after := by
  have htext : s ++ c.letters ++ rest = s ++ c.letters ++ front ++ (d.letters ++ after) ↔
      rest = front ++ (d.letters ++ after) := by
    rw [List.append_assoc (s ++ c.letters), List.append_cancel_left_eq]
  have hlook : (s ++ c.letters ++ front).reverse ++ behind =
      front.reverse ++ (c.letters.reverse ++ (s.reverse ++ behind)) := by
    simp
  constructor
  · rintro ⟨heq, hplain, hbefore, hafter⟩
    have hrest := htext.mp heq
    rw [hrest] at hs
    rw [quotedAfter_past hs] at hplain
    exact ⟨hrest, hplain, by rwa [hlook] at hbefore, hafter⟩
  · rintro ⟨hrest, hplain, hbefore, hafter⟩
    rw [hrest] at hs
    refine ⟨htext.mpr hrest, ?_, by rwa [hlook], hafter⟩
    rw [quotedAfter_past hs]
    exact hplain

theorem head?_any_reverse {a : Char} {run : List Char} (h : ∀ e ∈ a :: run, isWordChar e = true)
    (behind : List Char) : (run.reverse ++ a :: behind).head?.any isWordChar = true := by
  rcases List.eq_nil_or_concat run with rfl | ⟨front, z, rfl⟩
  · exact h a List.mem_cons_self
  · have hz := h z (by simp)
    simpa using hz

theorem not_standsBehind_word {a : Char} {begun left : List Char} {c : Connective}
    (hc : c.letters = a :: begun ++ left) (behind text s : List Char) (d : Connective)
    (after : List Char) : ¬ StandsBehind behind text (s ++ a :: begun) d after := by
  intro h
  have hbegun : ∀ e ∈ a :: begun, isWordChar e = true := by
    intro e he
    exact Connective.isWordChar_of_mem_letters (hc ▸ List.mem_append_left left he)
  have hlook : (s ++ a :: begun).reverse ++ behind =
      begun.reverse ++ a :: (s.reverse ++ behind) := by
    simp
  have hword := head?_any_reverse hbegun (s.reverse ++ behind)
  rw [← hlook, h.before] at hword
  cases hword

/-- A connective that stands in front of the first cut or at it is the one at the cut, and any other
one stands behind it. -/
theorem standsBehind_cut {behind s rest : List Char} {c : Connective}
    (hs : modeAfter? (c.letters ++ rest) false behind s = some false)
    (hc : Connective.at? (s.reverse ++ behind) (c.letters ++ rest) = some c)
    (front : List Char) (d : Connective) (after : List Char) :
    StandsBehind behind (s ++ c.letters ++ rest) front d after ↔
      (front, d, after) = (s, c, rest) ∨ ∃ behindCut, front = s ++ c.letters ++ behindCut ∧
        StandsBehind behind (s ++ c.letters ++ rest) (s ++ c.letters ++ behindCut) d after := by
  constructor
  · intro h
    have htext := h.text_eq
    rw [List.append_assoc] at htext
    -- the word begins at the cut, inside the word of the cut or behind it, or inside the segment
    rcases List.append_eq_append_iff.mp htext with ⟨begun, hfront, hrest⟩ | ⟨left, hfront, hrest⟩
    · cases begun with
      | nil =>
        rw [List.append_nil] at hfront
        cases hfront
        exact .inl (h.eq_cut hrest hc)
      | cons a begun =>
        rcases List.append_eq_append_iff.mp hrest with ⟨behindCut, heq, -⟩ | ⟨left, heq, -⟩
        · rw [heq, ← List.append_assoc] at hfront
          exact .inr ⟨behindCut, hfront, hfront ▸ h⟩
        · rw [hfront] at h
          exact absurd h (not_standsBehind_word heq _ _ _ _ _)
    · cases left with
      | nil =>
        rw [List.append_nil] at hfront
        cases hfront
        exact .inl (h.eq_cut hrest.symm hc)
      | cons a left =>
        rw [hfront] at hs
        exact absurd h (not_standsBehind_inside hs hrest _)
  · rintro (heq | ⟨behindCut, rfl, h⟩)
    · cases heq
      obtain ⟨hbefore, rest', hrest, hafter⟩ := Connective.of_at?_eq_some hc
      cases List.append_cancel_left hrest
      exact ⟨List.append_assoc _ _ _, quotedAfter_of_modeAfter? hs, hbefore, hafter⟩
    · exact h

/-- The connectives that stand in a text are those between its segments. -/
theorem CutsBehind.standsBehind_iff {behind text s : List Char}
    {more : List (Connective × List Char)} (h : CutsBehind behind text s more)
    (front : List Char) (c : Connective) (rest : List Char) :
    StandsBehind behind text front c rest ↔ (front, c, rest) ∈ places s more := by
  induction h generalizing front with
  | @last behind s hs =>
    rw [places]
    refine ⟨fun hstands => ?_, nofun⟩
    exfalso
    obtain ⟨a, letters, hletters⟩ := Connective.exists_cons_letters c
    have htext := hstands.text_eq
    rw [hletters] at htext
    rw [htext] at hs
    exact not_standsBehind_inside hs (by simp [hletters]) s hstands
  | @next behind s rest' s' c' more hs hc hr ih =>
    rw [places, ← hr.text_eq, List.mem_cons, List.mem_map, standsBehind_cut hs hc]
    refine or_congr Iff.rfl ⟨?_, ?_⟩
    · rintro ⟨behindCut, rfl, hstands⟩
      exact ⟨(behindCut, c, rest), (ih behindCut).mp ((standsBehind_past hs _ _ _).mp hstands), rfl⟩
    · rintro ⟨⟨behindCut, place⟩, hplace, heq⟩
      cases heq
      exact ⟨behindCut, rfl, (standsBehind_past hs _ _ _).mpr ((ih behindCut).mpr hplace)⟩

/-! ## The segmentation of a rule -/

/-- The segments are what lies between the connectives of a rule, and the tokens are the connectives
and the clauses of the segments. -/
structure Segmentation (rule : String) (first : List Char)
    (more : List (Connective × List Char)) : Prop where
  text_eq : rule.toList = spelled first more
  standing_iff (front : List Char) (c : Connective) (rest : List Char) :
    Standing rule.toList front c rest ↔ (front, c, rest) ∈ places first more
  tokens_eq : ofRule rule = (clauseOf? first).toList.map .operand ++
    more.flatMap fun cut => .connective cut.1 :: (clauseOf? cut.2).toList.map .operand

theorem CutsBehind.segmentation {rule : String} {s : List Char}
    {more : List (Connective × List Char)} (h : CutsBehind [] rule.toList s more)
    (htokens : ofRule rule = ofCuts s more) : Segmentation rule s more where
  text_eq := h.text_eq
  standing_iff front c rest := (standing_iff _ front c rest).trans (h.standsBehind_iff front c rest)
  tokens_eq := by
    simp only [htokens, ofCuts, ofSegment_reverse]

/-- With no apostrophe to come, a place is outside the literals. -/
theorem outside_of_not_mem {rest : List Char} (h : '\'' ∉ rest) (front : List Char) :
    Outside (front ++ rest) front rest := by
  have hplace := outside_or_inside front rest
  split at hplace
  · obtain ⟨lead, content, -, hcontent, -, -, hclosed⟩ := hplace
    exact ((List.mem_append.mp hclosed).elim hcontent h).elim
  · exact hplace

/-- Every rule is cut at its connectives, and at nothing else, into segments whose clauses are its
operands. An apostrophe with none after it hides nothing behind it, and the scan of the bytes ends
outside the literals, with every slice in range and between characters. -/
theorem exists_segmentation (rule : String) :
    (∃ first more, Segmentation rule first more) ∧
      (∀ front rest, rule.toList = front ++ rest → '\'' ∉ rest → Outside rule.toList front rest) ∧
      ByteScan.run? rule = some (ofRule rule, false) := by
  refine ⟨?_, ?_, ByteScan.run?_eq rule⟩
  · obtain ⟨s, more, hcuts, htokens⟩ := exists_cutsBehind rule.toList
    exact ⟨s, more, hcuts.segmentation htokens⟩
  · intro front rest htext hrest
    rw [htext]
    exact outside_of_not_mem hrest front

/-- A connective in a literal and a stray apostrophe in front of another one. -/
theorem exists_segmentation_stray :
    (∃ first more, Segmentation "a='x AND y' OR b=it's OR c=2" first more) ∧
      Outside "a='x AND y' OR b=it's OR c=2".toList "a='x AND y' OR b=it's ".toList
        "OR c=2".toList ∧
      ByteScan.run? "a='x AND y' OR b=it's OR c=2" =
        some ([.operand "a='x AND y'", .connective .or, .connective .or, .operand "c=2"],
          false) := by
  have htokens : ofRule "a='x AND y' OR b=it's OR c=2" =
      [.operand "a='x AND y'", .connective .or, .connective .or, .operand "c=2"] := by
    decide
  obtain ⟨hsegments, houtside, hrun⟩ := exists_segmentation "a='x AND y' OR b=it's OR c=2"
  refine ⟨hsegments, houtside _ _ (by decide) (by decide), ?_⟩
  rw [hrun, htokens]

end Token

end Verdict
