import Verdict.Proofs.LeftDeep
import Verdict.Proofs.NormalForm
import Verdict.Proofs.PlainRule
import Verdict.Proofs.Seams

/-!
# A clause alone

An operand between white space is the one token of its rule, and its tree is a leaf, unless it is
`Exposed`: white space that is no ASCII blank stands between the sign and the quote, so that the
scan does not see the literal, and the word of a connective stands in it. The recogniser of operands
takes any white space there, so an exposed operand is accepted alone and cut as a rule
(`kept_unless_exposed`).

1. A text without apostrophes is crossed exactly if no connective stands in it
   (`modeAfter?_of_not_occursIn`, `modeAfter?_of_occursIn`).
2. So an operand is crossed exactly if it is not exposed (`Spelling.crosses_iff`).
3. One that is not crossed is cut inside. A segment lacks the connective at which it is cut, so it
   has less ink than the operand (`Cuts.ink_lt`) and the operand is none of the tokens.
-/

namespace Verdict

open Text

/-- The word of a connective stands in the text with no word character directly before or after
it. -/
def Connective.OccursIn (text : List Char) : Prop :=
  ∃ (front : List Char) (c : Connective) (rest : List Char), text = front ++ (c.letters ++ rest) ∧
    front.getLast?.any isWordChar = false ∧ rest.head?.any isWordChar = false

/-- The value is quoted, the white space in front of it is not ASCII throughout, and a connective
stands in it. -/
def Operand.Spelling.Exposed (s : Operand.Spelling) : Prop :=
  ∃ text, s.literal = .quoted text ∧ (∃ c ∈ s.spaceAfter, isAsciiBlank c = false) ∧
    Connective.OccursIn text

namespace Token

/-! ## Texts without apostrophes -/

theorem sealed_of_no_apostrophe {text : List Char} (h : '\'' ∉ text) (tail : List Char) :
    Sealed text tail := by
  intro front rest hout
  rw [hout.text_eq] at h
  exact absurd (List.mem_append_right front List.mem_cons_self) h

/-- A text without apostrophes is crossed in every place as it is alone, if no word runs over its
ends. -/
theorem modeAfter?_of_no_apostrophe {text before after : List Char} (h : '\'' ∉ text)
    (hsign : ShowsNoSign before) (hb : before.head?.any isWordChar = false)
    (ha : after.head?.any isWordChar = false) :
    modeAfter? after false before text = modeAfter? [] false [] text := by
  have hseal : Sealed (text ++ []) after :=
    sealed_of_no_apostrophe (by rwa [List.append_nil]) after
  rw [← List.nil_append before, modeAfter?_behind hsign fun _ => .inl hb, ← List.nil_append after,
    modeAfter?_sealed ha hseal]

theorem modeAfter?_of_not_occursIn {text : List Char} (h : ¬Connective.OccursIn text) :
    modeAfter? [] false [] text = some false := by
  have hplain : false = true → '\'' ∈ text := nofun
  rcases crosses_or_stops [] text hplain with hcross | ⟨s, c, rest, rfl, -, hc⟩
  · exact hcross
  · obtain ⟨hbefore, rest', hrest, hafter⟩ := Connective.of_at?_eq_some hc
    cases List.append_cancel_left hrest
    rw [List.append_nil, List.head?_reverse] at hbefore
    exact absurd ⟨s, c, rest, List.append_assoc _ _ _, hbefore, hafter⟩ h

theorem modeAfter?_of_occursIn {text : List Char} (hq : '\'' ∉ text)
    (h : Connective.OccursIn text) : modeAfter? [] false [] text = none := by
  obtain ⟨front, c, rest, rfl, hfront, hrest⟩ := h
  obtain ⟨a, letters, hletters⟩ := c.exists_cons_letters
  cases hmode : modeAfter? [] false [] (front ++ (c.letters ++ rest)) with
  | none => rfl
  | some mode =>
    -- the scan would pass over the connective, which it meets outside literals
    exfalso
    have hplain : quotedAfter (c.letters ++ rest) false [] front = false :=
      (outside_of_not_mem (fun hmem => hq (List.mem_append_right front hmem)) front).quotedAfter_eq
    have hfound : Connective.at? (front.reverse ++ []) (c.letters ++ rest) = some c :=
      Connective.at?_letters c (by rwa [List.append_nil, List.head?_reverse]) hrest
    rw [hletters, List.cons_append] at hmode hplain hfound
    have hnone := at?_eq_none_of_mode hmode (by rwa [List.append_nil])
    rw [List.append_nil, List.append_nil] at hnone
    rw [List.append_nil, hnone] at hfound
    cases hfound

end Token

namespace Operand

open Token PlainClause

/-! ## Crossing an operand -/

theorem showsNoSign_frontReversed {s : Spelling} (h : ∃ c ∈ s.spaceAfter, isAsciiBlank c = false)
    (lead : List Char) : ShowsNoSign (frontReversed s ++ lead) := by
  have hsome : (s.spaceAfter.reverse.find? fun c => !isAsciiBlank c).isSome = true := by
    rw [List.find?_isSome]
    obtain ⟨c, hc, hascii⟩ := h
    exact ⟨c, List.mem_reverse.mpr hc, by rw [hascii]; rfl⟩
  refine showsNoSign_of_find? fun c hc => ?_
  rw [frontReversed, List.append_assoc, List.find?_append, Option.or_of_isSome hsome] at hc
  exact isSignChar_eq_false_of_isBlank
    (s.blankAfter c (List.mem_reverse.mp (List.mem_of_find?_eq_some hc)))

/-- A quote behind which the scan sees no sign is plain text, and so is the quote at the end if no
other one follows. So the value is crossed as the text between its quotes. -/
theorem modeAfter?_unseen {before text after : List Char} (hsign : ShowsNoSign before) :
    modeAfter? after false before ('\'' :: text ++ ['\'']) =
      (modeAfter? ('\'' :: after) false ('\'' :: before) text).bind fun mode =>
        modeAfter? after mode (text.reverse ++ '\'' :: before) ['\''] := by
  have hat : Connective.at? before ('\'' :: (text ++ ['\'']) ++ after) = none :=
    Connective.at?_eq_none_of_head? rfl _
  have hclosed : opensLiteral before (text ++ ['\''] ++ after) = false := by
    unfold ShowsNoSign at hsign
    rw [opensLiteral, hsign, Bool.false_and]
  rw [List.cons_append, modeAfter?_plain hat, hclosed, Bool.and_false, modeAfter?_append]
  rfl

theorem modeAfter?_lastQuote {after : List Char} (h : '\'' ∉ after) (before : List Char) :
    modeAfter? after false before ['\''] = some false := by
  have hat : Connective.at? before (['\''] ++ after) = none :=
    Connective.at?_eq_none_of_head? rfl _
  have hnone : after.contains '\'' = false := by simpa using h
  rw [modeAfter?_plain hat, List.nil_append, opensLiteral, hnone, Bool.and_false, Bool.and_false]
  rfl

/-- An operand whose words are no connectives is crossed, with no apostrophe behind it, exactly if
it is not exposed. -/
theorem Spelling.crosses_iff {s : Spelling} (hname : ∀ c : Connective, s.name ≠ c.letters)
    (hword : ∀ word, s.literal = .bare word → ∀ c : Connective, word ≠ c.letters)
    {lead after : List Char} (hlead : Blanks lead) (hq : '\'' ∉ after)
    (ha : after.head?.any isWordChar = false) :
    modeAfter? after false lead s.text = some false ↔ ¬s.Exposed := by
  have hwf := s.wellFormed
  cases hl : s.literal with
  | bare word =>
    refine iff_of_true (crosses_bare hname hl (hword word hl) ha lead hlead) ?_
    rintro ⟨text, htext, -⟩
    cases hl.symm.trans htext
  | quoted text =>
    rw [hl] at hwf
    by_cases hspace : ∀ c ∈ s.spaceAfter, isAsciiBlank c = true
    · refine iff_of_true (crosses_quoted hname hl hspace after lead hlead) ?_
      rintro ⟨-, -, ⟨c, hc, hascii⟩, -⟩
      rw [hspace c hc] at hascii
      cases hascii
    · have hspace' : ∃ c ∈ s.spaceAfter, isAsciiBlank c = false := by simpa using hspace
      have hsign := showsNoSign_frontReversed hspace' lead
      have hquote : ShowsNoSign ('\'' :: (frontReversed s ++ lead)) := rfl
      rw [modeAfter?_upToValue s hname hlead, hl, Literal.written, modeAfter?_unseen hsign,
        modeAfter?_of_no_apostrophe hwf hquote rfl rfl]
      by_cases hoccurs : Connective.OccursIn text
      · rw [modeAfter?_of_occursIn hwf hoccurs]
        exact iff_of_false (fun h => by cases h) (not_not.mpr ⟨text, hl, hspace', hoccurs⟩)
      · rw [modeAfter?_of_not_occursIn hoccurs]
        refine iff_of_true (modeAfter?_lastQuote hq _) ?_
        rintro ⟨other, hother, -, hoccurs'⟩
        cases hl.symm.trans hother
        exact hoccurs hoccurs'

end Operand

namespace Token

/-! ## Operands that are cut -/

/-- The number of characters that are no white space. -/
def ink (text : List Char) : Nat :=
  text.countP fun c => !isBlank c

theorem ink_append (front back : List Char) : ink (front ++ back) = ink front + ink back :=
  List.countP_append

theorem ink_of_blanks {text : List Char} (h : Blanks text) : ink text = 0 := by
  refine List.countP_eq_zero.mpr fun c hc => ?_
  rw [h c hc]
  decide

theorem ink_letters_pos (c : Connective) : 0 < ink c.letters := by
  cases c <;> decide

/-- A segment has less ink than the rule if the rule is cut, since it lacks a connective. -/
theorem Cuts.ink_lt {text s segment : List Char} {more : List (Connective × List Char)}
    (h : Cuts text s more) (hmore : more ≠ [])
    (hsegment : segment = s ∨ ∃ cut ∈ more, segment = cut.2) : ink segment < ink text := by
  rw [(h.behind (.inl rfl) (.inl rfl)).text_eq, spelled, ink_append]
  rcases hsegment with rfl | ⟨cut, hcut, rfl⟩
  · obtain ⟨cut, later, rfl⟩ := List.exists_cons_of_ne_nil hmore
    have hpos := ink_letters_pos cut.1
    rw [List.flatMap_cons, ink_append, ink_append]
    omega
  · obtain ⟨front, back, rfl⟩ := List.append_of_mem hcut
    have hpos := ink_letters_pos cut.1
    rw [List.flatMap_append, List.flatMap_cons, ink_append, ink_append, ink_append]
    omega

theorem ink_le_of_clauseOf? {segment : List Char} {clause : String}
    (h : clauseOf? segment = some clause) : ink clause.toList ≤ ink segment := by
  obtain ⟨u, v, -, -, hsplit⟩ := exists_trim segment
  rw [(clauseOf?_eq_some h).1, String.toList_ofList]
  conv_rhs => rw [hsplit, ink_append, ink_append]
  omega

theorem operand_mem_ofSegment {segment : List Char} {clause : String}
    (h : .operand clause ∈ ofSegment segment.reverse) : clauseOf? segment = some clause := by
  rw [ofSegment_reverse] at h
  obtain ⟨other, hother, heq⟩ := List.mem_map.mp h
  cases heq
  exact Option.mem_toList.mp hother

theorem Cuts.crossed_of_nil {text s : List Char} (h : Cuts text s []) :
    modeAfter? [] false [] text = some false := by
  cases h with
  | last hs => exact hs

theorem operand_mem_of_parse? {rule clause : String} {tree : Tree}
    (h : Tree.parse? rule = some tree) (hclause : clause ∈ tree.clauses) :
    .operand clause ∈ ofRule rule := by
  have hreads := Growth.reads_of_separated (separated_ofRule rule)
  rw [(hreads.folds tree h).clauses_eq] at hclause
  obtain ⟨token, htoken, hsome⟩ := List.mem_filterMap.mp hclause
  cases token with
  | connective c => cases hsome
  | operand other =>
    cases hsome
    exact htoken

/-- A rule that is cut holds a connective, and no operand with all its ink. -/
theorem Cuts.of_ne_nil {rule clause : String} {s : List Char}
    {more : List (Connective × List Char)} (h : Cuts rule.toList s more) (hmore : more ≠ [])
    (hink : ink clause.toList = ink rule.toList) :
    (∃ c, .connective c ∈ ofRule rule) ∧ .operand clause ∉ ofRule rule := by
  rw [h.ofRule_eq, ofCuts]
  constructor
  · obtain ⟨cut, later, rfl⟩ := List.exists_cons_of_ne_nil hmore
    exact ⟨cut.1, by simp⟩
  · intro hmem
    have hsegment : ∃ segment, (segment = s ∨ ∃ cut ∈ more, segment = cut.2) ∧
        clauseOf? segment = some clause := by
      rcases List.mem_append.mp hmem with hfirst | hlater
      · exact ⟨s, .inl rfl, operand_mem_ofSegment hfirst⟩
      · obtain ⟨cut, hcut, hmem⟩ := List.mem_flatMap.mp hlater
        have hoperand := (List.mem_cons.mp hmem).resolve_left fun h => by cases h
        exact ⟨cut.2, .inr ⟨cut, hcut, rfl⟩, operand_mem_ofSegment hoperand⟩
    obtain ⟨segment, hsegment, hclause⟩ := hsegment
    have hlt := h.ink_lt hmore hsegment
    have hle := ink_le_of_clauseOf? hclause
    omega

end Token

namespace Operand

open Token

/-- An operand that is crossed is the one token of its rule. -/
theorem Spelling.ofRule_of_crosses {s : Spelling} {rule : String} {lead trail : List Char}
    (hrule : rule.toList = lead ++ s.text ++ trail) (hlead : Blanks lead) (htrail : Blanks trail)
    (hcross : Crosses s.text trail) :
    ofRule rule = [.operand (String.ofList s.text)] ∧
      Tree.parse? rule = some (.leaf (String.ofList s.text)) := by
  have hclause := clauseOf?_padded (isOperand_text s) hlead htrail
  have hcuts : Cuts rule.toList (lead ++ s.text ++ trail) [] := by
    rw [hrule]
    exact .last (Crosses.padded (by rwa [List.append_nil]) hlead htrail)
  constructor
  · rw [hcuts.ofRule_eq, ofCuts, ofSegment_reverse, hclause]
    rfl
  · rw [Tree.parse?_of_cuts hcuts, spine?_of_clause hclause]
    rfl

/-- An exposed operand is cut, and the rule has other tokens. -/
theorem Spelling.Exposed.cut {s : Spelling} (h : s.Exposed)
    (hname : ∀ c : Connective, s.name ≠ c.letters)
    (hword : ∀ word, s.literal = .bare word → ∀ c : Connective, word ≠ c.letters) {rule : String}
    {lead trail : List Char} (hrule : rule.toList = lead ++ s.text ++ trail) (hlead : Blanks lead)
    (htrail : Blanks trail) :
    (∃ c, .connective c ∈ ofRule rule) ∧ .operand (String.ofList s.text) ∉ ofRule rule := by
  have hquote : '\'' ∉ trail := fun hmem => ne_apostrophe_of_isBlank (htrail _ hmem) rfl
  obtain ⟨first, more, hcuts⟩ := exists_cuts rule.toList
  refine hcuts.of_ne_nil ?_ ?_
  · rintro rfl
    have hwhole := hcuts.crossed_of_nil
    rw [hrule] at hwhole
    have hcross := modeAfter?_between hlead htrail hwhole
    rw [List.append_nil] at hcross
    exact (crosses_iff hname hword hlead.reverse hquote htrail.head?_not_word).mp hcross h
  · rw [hrule, String.toList_ofList, ink_append, ink_append, ink_of_blanks hlead,
      ink_of_blanks htrail]
    omega

/-- An operand between white space, with no connective for its name or its bare word, is the one
token of its rule and parses to a leaf exactly if it is not exposed. Otherwise a connective in its
quoted value cuts it. -/
theorem kept_unless_exposed {clause : String} (h : isOperand clause = true) :
    (∃ s : Spelling, clause = String.ofList s.text) ∧
      ∀ s : Spelling, clause = String.ofList s.text →
        (∀ c : Connective, s.name ≠ c.letters) →
        (∀ word, s.literal = .bare word → ∀ c : Connective, word ≠ c.letters) →
        ∀ lead trail : String, Blanks lead.toList → Blanks trail.toList →
          (ofRule (lead ++ clause ++ trail) = [.operand clause] ↔ ¬s.Exposed) ∧
          (Tree.parse? (lead ++ clause ++ trail) = some (.leaf clause) ↔ ¬s.Exposed) ∧
          ((∃ c, .connective c ∈ ofRule (lead ++ clause ++ trail)) ↔ s.Exposed) := by
  refine ⟨exists_spelling h, ?_⟩
  rintro s rfl hname hword lead trail hlead htrail
  have hrule : (lead ++ String.ofList s.text ++ trail).toList =
      lead.toList ++ s.text ++ trail.toList := by
    simp
  have hquote : '\'' ∉ trail.toList := fun hmem => ne_apostrophe_of_isBlank (htrail _ hmem) rfl
  by_cases hexposed : s.Exposed
  · obtain ⟨hconnective, hoperand⟩ := hexposed.cut hname hword hrule hlead htrail
    refine ⟨iff_of_false ?_ (not_not.mpr hexposed), iff_of_false ?_ (not_not.mpr hexposed),
      iff_of_true hconnective hexposed⟩
    · intro htokens
      rw [htokens] at hoperand
      exact hoperand List.mem_cons_self
    · intro htree
      exact hoperand (operand_mem_of_parse? htree (List.mem_singleton_self _))
  · have hcross : Crosses s.text trail.toList := fun other hother =>
      (Spelling.crosses_iff hname hword hother hquote htrail.head?_not_word).mpr hexposed
    obtain ⟨htokens, htree⟩ := Spelling.ofRule_of_crosses hrule hlead htrail hcross
    refine ⟨iff_of_true htokens hexposed, iff_of_true htree hexposed, iff_of_false ?_ hexposed⟩
    rw [htokens]
    simp

/-- Behind a space the quoted connective is kept, and behind a no-break space it cuts. -/
theorem kept_unless_exposed_spaces :
    ofRule ("\t" ++ "a= 'x AND y'" ++ "\n") = [.operand "a= 'x AND y'"] ∧
      ∃ c, .connective c ∈ ofRule ("\t" ++ "a=\u00a0'x AND y'" ++ "\n") := by
  let spelling (space : List Char) (hspace : Blanks space) : Spelling :=
    { name := ['a'], spaceBefore := [], comparator := .equal, spaceAfter := space
      literal := .quoted "x AND y".toList
      isName := ⟨'a', [], rfl, by decide, nofun⟩
      blankBefore := blanks_nil
      blankAfter := hspace
      wellFormed := show '\'' ∉ "x AND y".toList by decide }
  have hname : ∀ c : Connective, ['a'] ≠ c.letters := by
    intro c
    cases c <;> decide
  have htab : Blanks "\t".toList := List.forall_mem_singleton.mpr (by decide)
  have hfeed : Blanks "\n".toList := List.forall_mem_singleton.mpr (by decide)
  have hbreak : Blanks ['\u00a0'] := List.forall_mem_singleton.mpr (by decide)
  constructor
  · refine ((kept_unless_exposed (isOperand_text _)).2 (spelling [' '] blanks_space) rfl hname
      nofun "\t" "\n" htab hfeed).1.mpr ?_
    rintro ⟨-, -, ⟨c, hc, hascii⟩, -⟩
    rw [List.mem_singleton.mp hc] at hascii
    cases hascii
  · refine ((kept_unless_exposed (isOperand_text _)).2 (spelling ['\u00a0'] hbreak) rfl hname
      nofun "\t" "\n" htab hfeed).2.2.mpr ?_
    exact ⟨_, rfl, ⟨'\u00a0', List.mem_cons_self, by decide⟩,
      "x ".toList, .and, " y".toList, by decide, by decide, by decide⟩

/-- An operand with a no-break space in front of its quote is accepted, and lost in a rule. -/
theorem accepted_and_cut :
    isOperand "team =\u00a0'R AND D'" = true ∧
      ofRule "team =\u00a0'R AND D'" = [.connective .and] ∧
      Tree.parse? "team =\u00a0'R AND D'" = none := by
  decide

end Operand

end Verdict
