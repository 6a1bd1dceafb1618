import Verdict.Proofs.Layout
import Verdict.Proofs.Segmentation

/-!
# Rules joined by a connective

Two rules with a spaced connective between them are read as each of them alone
(`ofRule_joined`), unless the second one closes a literal that the first one leaves open.

1. A text behind a rule can matter to it in one way: by an apostrophe that closes a literal of it.
   If it does not (`Sealed`), each segment of the rule is crossed as it is without the text
   (`modeAfter?_sealed`), and what is sealed stays sealed behind a connective (`Sealed.past`).
2. So the scan of the rule comes to the seam with the tokens that the rule has alone and outside a
   literal (`Cuts.scan_joined`).
3. White space in front of a rule does not matter to it (`Cuts.scan_behind_blanks`).
-/

namespace Verdict

open Text

theorem Text.takeWhile_append_of_head? {p : Char → Bool} {tail : List Char}
    (h : tail.head?.any p = false) (text : List Char) :
    (text ++ tail).takeWhile p = text.takeWhile p := by
  rw [List.takeWhile_append, takeWhile_eq_nil_of_head? h, List.append_nil]
  split
  · next hlength => exact ((List.takeWhile_prefix p).eq_of_length hlength).symm
  · rfl

theorem Connective.at?_append {tail : List Char} (h : tail.head?.any isWordChar = false)
    (before text : List Char) : at? before (text ++ tail) = at? before text := by
  rw [at?_eq, at?_eq, takeWhile_append_of_head? h]

namespace Token

/-! ## What a text behind a rule can change -/

/-- The nearest character before the end of the text that is no ASCII blank ends a comparator. -/
def FollowsSign (front : List Char) : Prop :=
  ∃ lead sign blanks, front = lead ++ sign :: blanks ∧ sign ∈ ['=', '<', '>'] ∧
    ∀ c ∈ blanks, isAsciiBlank c = true

/-- The text leaves no literal open: an apostrophe outside its literals that follows a sign has
another one after it. -/
def Closed (text : List Char) : Prop :=
  ∀ front rest, Outside text front ('\'' :: rest) → FollowsSign front → '\'' ∈ rest

/-- An apostrophe outside the literals of the text opens one with `tail` behind the text only if it
does without. -/
def Sealed (text tail : List Char) : Prop :=
  ∀ front rest, Outside text front ('\'' :: rest) → Opens front (rest ++ tail) → Opens front rest

theorem Closed.isSealed {text : List Char} (h : Closed text) (tail : List Char) :
    Sealed text tail :=
  fun front rest hout hopens => ⟨hopens.1, h front rest hout hopens.1⟩

theorem sealed_of_not_mem {tail : List Char} (h : '\'' ∉ tail) (text : List Char) :
    Sealed text tail :=
  fun _ _ _ hopens => ⟨hopens.1, (List.mem_append.mp hopens.2).resolve_right h⟩

theorem eq_last_or_mem {front rest other after : List Char} (h : '\'' ∉ rest)
    (heq : front ++ '\'' :: rest = other ++ '\'' :: after) :
    (front = other ∧ rest = after) ∨ '\'' ∈ after := by
  rcases List.append_eq_append_iff.mp heq with ⟨between, hother, hrest⟩ | ⟨between, hfront, hafter⟩
  · cases between with
    | nil => exact .inl ⟨by rw [hother, List.append_nil], (List.cons.inj hrest).2⟩
    | cons d between =>
      rw [(List.cons.inj hrest).2] at h
      exact absurd (List.mem_append_right between List.mem_cons_self) h
  · cases between with
    | nil => exact .inl ⟨by rw [hfront, List.append_nil], (List.cons.inj hafter).2.symm⟩
    | cons d between =>
      rw [(List.cons.inj hafter).2]
      exact .inr (List.mem_append_right between List.mem_cons_self)

theorem closed_iff {front rest : List Char} (h : '\'' ∉ rest) :
    Closed (front ++ '\'' :: rest) ↔
      ¬(Outside (front ++ '\'' :: rest) front ('\'' :: rest) ∧ FollowsSign front) := by
  constructor
  · rintro hclosed ⟨hout, hsign⟩
    exact h (hclosed front rest hout hsign)
  · intro hlast other after hout hsign
    rcases eq_last_or_mem h hout.text_eq with ⟨rfl, rfl⟩ | hmem
    · exact absurd ⟨hout, hsign⟩ hlast
    · exact hmem

/-- Outside the literals of a sealed text the text behind it does not show in an apostrophe. -/
theorem Sealed.opensLiteral_eq {front rest tail : List Char}
    (h : Sealed (front ++ '\'' :: rest) tail)
    (hplain : quotedAfter ('\'' :: rest) false [] front = false) :
    opensLiteral front.reverse (rest ++ tail) = opensLiteral front.reverse rest := by
  rw [Bool.eq_iff_iff, ← opens_iff, ← opens_iff]
  exact ⟨h front rest ((outside_iff front _).mpr hplain),
    fun hopens => ⟨hopens.1, List.mem_append_left tail hopens.2⟩⟩

/-- A part of a sealed text is crossed as it is without the text behind the whole. The induction is
on the part, and `front` is what has been read before it. -/
theorem modeAfter?_sealed_from {after tail : List Char}
    (htail : tail.head?.any isWordChar = false) (s front : List Char)
    (hseal : Sealed (front ++ (s ++ after)) tail) :
    modeAfter? (after ++ tail) (quotedAfter (s ++ after) false [] front) front.reverse s =
      modeAfter? after (quotedAfter (s ++ after) false [] front) front.reverse s := by
  induction s generalizing front with
  | nil => rfl
  | cons c s ih =>
    rw [List.cons_append] at hseal ⊢
    have hnext := ih (front ++ [c]) (by simpa using hseal)
    rw [quotedAfter_append, List.reverse_concat, List.append_nil, List.singleton_append] at hnext
    cases hmode : quotedAfter (c :: (s ++ after)) false [] front with
    | true =>
      rw [hmode] at hnext
      rw [modeAfter?_quoted, modeAfter?_quoted]
      exact hnext
    | false =>
      rw [hmode] at hnext
      have hopens : (c == '\'' && opensLiteral front.reverse (s ++ (after ++ tail))) =
          (c == '\'' && opensLiteral front.reverse (s ++ after)) := by
        by_cases hc : c = '\''
        · subst hc
          rw [← List.append_assoc, hseal.opensLiteral_eq hmode]
        · rw [beq_false_of_ne hc, Bool.false_and, Bool.false_and]
      rw [modeAfter?, modeAfter?, ← List.append_assoc, Connective.at?_append htail, hopens]
      simp only [if_neg Bool.false_ne_true]
      split
      · rfl
      · exact hnext

/-- A segment of a sealed text is crossed as it is without the text behind the whole. -/
theorem modeAfter?_sealed {s after tail : List Char} (htail : tail.head?.any isWordChar = false)
    (hseal : Sealed (s ++ after) tail) :
    modeAfter? (after ++ tail) false [] s = modeAfter? after false [] s :=
  modeAfter?_sealed_from htail s [] hseal

theorem quotedAfter_behind {behind : List Char} (h : ShowsNoSign behind)
    (after : List Char) (quoted : Bool) (before text : List Char) :
    quotedAfter after quoted (before ++ behind) text = quotedAfter after quoted before text := by
  induction text generalizing quoted before with
  | nil => rfl
  | cons c text ih =>
    rw [quotedAfter, quotedAfter, opensLiteral_behind h]
    exact ih _ (c :: before)

/-- Behind a connective at which it is cut a sealed text is sealed. -/
theorem Sealed.past {s rest tail : List Char} {c : Connective}
    (h : Sealed (s ++ c.letters ++ rest) tail)
    (hs : modeAfter? (c.letters ++ rest) false [] s = some false) : Sealed rest tail := by
  have hsign : ShowsNoSign (c.letters.reverse ++ (s.reverse ++ [])) :=
    (endsInWord_letters c _).showsNoSign
  have hopens : ∀ front after, Opens (s ++ c.letters ++ front) after ↔ Opens front after := by
    intro front after
    have hlook : (s ++ c.letters ++ front).reverse =
        front.reverse ++ (c.letters.reverse ++ (s.reverse ++ [])) := by
      simp
    rw [opens_iff, opens_iff, hlook, opensLiteral_behind hsign]
  intro front after hout hlonger
  obtain rfl := hout.text_eq
  have hplace : Outside (s ++ c.letters ++ front ++ '\'' :: after) (s ++ c.letters ++ front)
      ('\'' :: after) := by
    rw [outside_iff, quotedAfter_past hs, ← List.nil_append (c.letters.reverse ++ _),
      quotedAfter_behind hsign]
    exact hout.quotedAfter_eq
  rw [List.append_assoc (s ++ c.letters)] at hplace
  exact (hopens front after).mp (h _ _ hplace ((hopens front _).mpr hlonger))

/-! ## The seam -/

theorem ofSegment_blanks {u v : List Char} (hu : Blanks u) (hv : Blanks v) (s : List Char) :
    ofSegment (v ++ (s ++ u)) = ofSegment s := by
  have htrim : trim (v ++ (s ++ u)).reverse = trim s.reverse := by
    rw [List.reverse_append, List.reverse_append]
    exact trim_append hu.reverse hv.reverse s.reverse
  simp only [ofSegment, htrim]

/-- A sealed text in front of a spaced connective is scanned as it is alone, and the rest of the
text behind the connective as if it were alone. -/
theorem Cuts.scan_joined {text s : List Char} {more : List (Connective × List Char)}
    (h : Cuts text s more) {blanks rest : List Char} {c : Connective} (hblanks : Blanks blanks)
    (hne : blanks ≠ []) (hrest : rest.head?.any isWordChar = false)
    (hseal : Sealed text (blanks ++ (c.letters ++ rest))) :
    scan 0 false [] (text ++ (blanks ++ (c.letters ++ rest))) =
      scan 0 false [] text ++ .connective c :: scan 0 false [] rest := by
  have htail : (blanks ++ (c.letters ++ rest)).head?.any isWordChar = false :=
    head?_not_word_of_blanks hblanks hne _
  induction h with
  | @last s hs =>
    have hcross := (modeAfter?_sealed htail (by rwa [List.append_nil])).trans hs
    have hfront : (blanks.reverse ++ (s.reverse ++ [])).head?.any isWordChar = false :=
      head?_not_word_of_blanks hblanks.reverse (by simpa using hne) _
    rw [List.nil_append] at hcross
    rw [scan_of_modeAfter? hcross, scan_of_modeAfter? (modeAfter?_blanks hblanks _ _),
      scan_connective (Connective.at?_letters c hfront hrest), scan_of_crossed hs,
      ofSegment_blanks blanks_nil hblanks.reverse, List.append_nil]
  | @next s later s' d more hs hd hr ih =>
    rw [List.append_assoc] at hseal
    have hcross := (modeAfter?_sealed htail hseal).trans hs
    have hjoined := (Connective.at?_append htail s.reverse (d.letters ++ later)).trans hd
    rw [← List.append_assoc] at hseal
    rw [List.append_assoc] at hcross hjoined
    rw [List.append_assoc, List.append_assoc, scan_of_modeAfter? hcross, List.append_nil,
      scan_connective hjoined, ih (hseal.past hs), List.append_assoc, scan_of_modeAfter? hs,
      List.append_nil, scan_connective hd, List.append_assoc, List.cons_append]

theorem modeAfter?_behind_blanks {blanks : List Char} (h : Blanks blanks) (after s : List Char) :
    modeAfter? after false blanks s = modeAfter? after false [] s := by
  rw [← List.nil_append blanks,
    modeAfter?_behind (showsNoSign_of_blanks h) fun _ => .inl h.head?_not_word]

/-- White space in front of a text does not show in its tokens. -/
theorem Cuts.scan_behind_blanks {text s : List Char} {more : List (Connective × List Char)}
    (h : Cuts text s more) {blanks : List Char} (hblanks : Blanks blanks) :
    scan 0 false blanks text = scan 0 false [] text := by
  cases h with
  | last hs =>
    rw [scan_of_crossed hs, scan_of_crossed ((modeAfter?_behind_blanks hblanks _ _).trans hs),
      List.append_nil]
    exact ofSegment_blanks hblanks blanks_nil text.reverse
  | @next s rest s' c more hs hc hr =>
    have hcross := (modeAfter?_behind_blanks hblanks (c.letters ++ rest) s).trans hs
    have hfound : Connective.at? (s.reverse ++ blanks) (c.letters ++ rest) = some c :=
      (Connective.at?_behind fun _ => .inl hblanks.head?_not_word).trans hc
    have hsegment := ofSegment_blanks hblanks blanks_nil s.reverse
    rw [List.nil_append] at hsegment
    rw [List.append_assoc, scan_of_modeAfter? hcross, scan_connective hfound, hsegment,
      scan_of_modeAfter? hs, List.append_nil, scan_connective hc]

theorem scan_blanks {blanks : List Char} (hblanks : Blanks blanks) (text : List Char) :
    scan 0 false [] (blanks ++ text) = scan 0 false [] text := by
  obtain ⟨s, more, hcuts⟩ := exists_cuts text
  rw [scan_of_modeAfter? (modeAfter?_blanks hblanks text []), List.append_nil,
    hcuts.scan_behind_blanks hblanks.reverse]

/-- Two rules with a spaced connective between them have the tokens of the first, the connective and
the tokens of the second, if the second holds no apostrophe or the first leaves no literal open. -/
theorem ofRule_joined (first second front back : String) (c : Connective)
    (hfront : Blanks front.toList) (hfront_ne : front ≠ "") (hback : Blanks back.toList)
    (hback_ne : back ≠ "") (h : '\'' ∉ second.toList ∨ Closed first.toList) :
    ofRule (first ++ front ++ c.word ++ back ++ second) =
      ofRule first ++ .connective c :: ofRule second := by
  have hseal : Sealed first.toList
      (front.toList ++ (c.letters ++ (back.toList ++ second.toList))) := by
    rcases h with hsecond | hfirst
    · refine sealed_of_not_mem ?_ _
      simp only [List.mem_append, not_or]
      exact ⟨fun hmem => ne_apostrophe_of_isBlank (hfront _ hmem) rfl,
        fun hmem => ne_apostrophe_of_isWordChar (Connective.isWordChar_of_mem_letters hmem) rfl,
        fun hmem => ne_apostrophe_of_isBlank (hback _ hmem) rfl, hsecond⟩
    · exact hfirst.isSealed _
  have htext : (first ++ front ++ c.word ++ back ++ second).toList =
      first.toList ++ (front.toList ++ (c.letters ++ (back.toList ++ second.toList))) := by
    simp [Connective.letters]
  obtain ⟨s, more, hcuts⟩ := exists_cuts first.toList
  have hrest := head?_not_word_of_blanks hback (by simpa using hback_ne) second.toList
  rw [ofRule, htext, hcuts.scan_joined hfront (by simpa using hfront_ne) hrest hseal,
    scan_blanks hback]
  rfl

/-- A stray apostrophe and a closed literal in front of a literal. -/
theorem ofRule_joined_closed :
    ofRule ("it's OR a = 'x AND y'" ++ " " ++ Connective.and.word ++ "\t" ++ "b='z'") =
      [.connective .or, .operand "a = 'x AND y'", .connective .and, .operand "b='z'"] := by
  have htext : "it's OR a = 'x AND y'".toList = "it's OR a = 'x AND y".toList ++ ['\''] := by
    decide
  have hclosed : Closed "it's OR a = 'x AND y'".toList := by
    rw [htext, closed_iff List.not_mem_nil]
    rintro ⟨hout, -⟩
    exact absurd hout.quotedAfter_eq (by decide)
  rw [ofRule_joined "it's OR a = 'x AND y'" "b='z'" " " "\t" .and
    (List.forall_mem_singleton.mpr (by decide)) (by decide)
    (List.forall_mem_singleton.mpr (by decide)) (by decide) (.inr hclosed)]
  decide

/-- A literal that is left open pairs with the next one, and both clauses are lost. -/
example : ofRule "a='x" = [] ∧ ofRule "b='y'" = [.operand "b='y'"] ∧
    ofRule "a='x AND b='y'" = [] := by
  decide

end Token

end Verdict
