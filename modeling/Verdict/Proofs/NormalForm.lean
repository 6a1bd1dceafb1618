import Mathlib.Data.List.Basic
import Verdict.Proofs.Layout

/-!
# Parsing its own normal form

The tree of a rule is written as a rule again, its clauses joined by connectives with single spaces
around them. That text parses to the same tree (`parse?_normalForm`).

The step is `modeAfter?_transfer`: a clause that was crossed in one place, and left outside a
literal, is crossed alike in another. What stands around the clause matters only in three ways: a
word must end with the clause, the look behind an apostrophe must end inside the clause, and no
apostrophe may follow where none followed before. An apostrophe that opened a literal only because
of a later clause would have left the scan inside the literal, so it did not.
-/

namespace Verdict

open Text

/-- A tree written as a rule: each join writes its left side, its connective between two spaces and
its right side. -/
def Tree.normalForm : Tree → String
  | .leaf clause => clause
  | .join connective left right =>
    left.normalForm ++ " " ++ connective.word ++ " " ++ right.normalForm

namespace Token

/-! ## Crossing a text in another place -/

/-- No word that ends the text goes on behind it. -/
def EndsWord (text after : List Char) : Prop :=
  text.getLast?.any isWordChar = true → after.head?.any isWordChar = false

theorem EndsWord.tail {c : Char} {text after : List Char} (h : EndsWord (c :: text) after) :
    EndsWord text after := by
  intro hlast
  cases text with
  | nil => exact absurd hlast (by decide)
  | cons d text => exact h (by rwa [List.getLast?_cons_cons])

theorem endsWord_of_head? {after : List Char} (h : after.head?.any isWordChar = false)
    (text : List Char) : EndsWord text after :=
  fun _ => h

theorem takeWhile_of_endsWord {c : Char} {text after : List Char}
    (h : EndsWord (c :: text) after) :
    (c :: text ++ after).takeWhile isWordChar = (c :: text).takeWhile isWordChar := by
  rw [List.takeWhile_append]
  split
  · next hlen =>
    have hrun : (c :: text).takeWhile isWordChar = c :: text :=
      (List.takeWhile_prefix isWordChar).eq_of_length hlen
    have hlast : (c :: text).getLast?.any isWordChar = true := by
      rw [List.getLast?_eq_some_getLast (List.cons_ne_nil c text), Option.any_some]
      exact List.takeWhile_eq_self_iff.mp hrun _ (List.getLast_mem _)
    rw [takeWhile_eq_nil_of_head? (h hlast), List.append_nil, hrun]
  · rfl

/-- Whether a connective stands at the front of a text depends on the text and on the character
before it. -/
theorem at?_transfer {before before' after after' text : List Char} {c : Char}
    (hb : before.head?.any isWordChar = before'.head?.any isWordChar)
    (ha : EndsWord (c :: text) after) (ha' : EndsWord (c :: text) after') :
    Connective.at? before (c :: text ++ after) = Connective.at? before' (c :: text ++ after') := by
  rw [Connective.at?_eq, Connective.at?_eq, hb, takeWhile_of_endsWord ha,
    takeWhile_of_endsWord ha']

/-- Whether an apostrophe opens a literal depends on the text behind it, once something stands
there, and on the text after it, unless the literal is closed behind the text only. -/
theorem opensLiteral_transfer {p b b' after after' text : List Char}
    (hp : (p.find? fun c => !isAsciiBlank c).isSome = true)
    (ha : '\'' ∈ after' → '\'' ∈ after)
    (h : '\'' ∉ text → opensLiteral (p ++ b) (text ++ after) = false) :
    opensLiteral (p ++ b) (text ++ after) = opensLiteral (p ++ b') (text ++ after') := by
  have hlook : ∀ rest : List Char, (p ++ rest).find? (fun c => !isAsciiBlank c) =
      p.find? fun c => !isAsciiBlank c := by
    intro rest
    rw [List.find?_append, Option.or_of_isSome hp]
  unfold opensLiteral at h ⊢
  rw [hlook] at h
  rw [hlook, hlook]
  by_cases ht : '\'' ∈ text
  · have hmem : ∀ rest : List Char, (text ++ rest).contains '\'' = true := by
      intro rest
      exact List.contains_iff_mem.mpr (List.mem_append_left rest ht)
    rw [hmem, hmem]
  · have hfalse := h ht
    rw [hfalse]
    rcases Bool.and_eq_false_iff.mp hfalse with hl | hr
    · rw [hl, Bool.false_and]
    · have hnone : (text ++ after').contains '\'' = false := by
        rw [Bool.eq_false_iff] at hr ⊢
        intro hmem
        rcases List.mem_append.mp (List.contains_iff_mem.mp hmem) with hm | hm
        · exact ht hm
        · exact hr (List.contains_iff_mem.mpr (List.mem_append_right _ (ha hm)))
      rw [hnone, Bool.and_false]

/-- A text that is crossed behind `p ++ b` and left outside a literal is crossed alike behind
`p ++ b'`. -/
theorem modeAfter?_transfer {p b b' after after' text : List Char} {quoted : Bool}
    (hp : (p.find? fun c => !isAsciiBlank c).isSome = true)
    (he : EndsWord text after) (he' : EndsWord text after') (ha : '\'' ∈ after' → '\'' ∈ after)
    (h : modeAfter? after quoted (p ++ b) text = some false) :
    modeAfter? after' quoted (p ++ b') text = some false := by
  induction text generalizing p quoted with
  | nil => exact h
  | cons c text ih =>
    have hp' : ((c :: p).find? fun c => !isAsciiBlank c).isSome = true := by
      rw [List.find?_cons]
      split
      · rfl
      · exact hp
    cases quoted with
    | true =>
      rw [modeAfter?_quoted] at h ⊢
      exact ih hp' he.tail he'.tail h
    | false =>
      have hhead : (p ++ b).head?.any isWordChar = (p ++ b').head?.any isWordChar := by
        cases p with
        | nil => cases hp
        | cons d p => rfl
      have hat := at?_eq_none_of_crossed h
      rw [modeAfter?_plain hat] at h
      rw [modeAfter?_plain ((at?_transfer hhead he he').symm.trans hat)]
      by_cases hc : c = '\''
      · subst hc
        rw [beq_self_eq_true, Bool.true_and] at h ⊢
        have hopen : '\'' ∉ text → opensLiteral (p ++ b) (text ++ after) = false := by
          intro ht
          cases ho : opensLiteral (p ++ b) (text ++ after) with
          | false => rfl
          | true =>
            -- a literal that the text does not close would be open at its end
            rw [ho, modeAfter?_insideLiteral ht] at h
            cases h
        rw [← opensLiteral_transfer hp ha hopen]
        exact ih hp' he.tail he'.tail h
      · rw [beq_false_of_ne hc, Bool.false_and] at h ⊢
        exact ih hp' he.tail he'.tail h

/-! ## The clauses of a rule in a row -/

/-- Later clauses, each behind its connective, with single spaces. -/
def row (links : List (Connective × String)) : List Joint :=
  links.map fun link => ⟨[' '], link.1, [' '], link.2.toList⟩

theorem row_cons (link : Connective × String) (links : List (Connective × String)) :
    row (link :: links) = ⟨[' '], link.1, [' '], link.2.toList⟩ :: row links :=
  rfl

theorem map_link_row (links : List (Connective × String)) : (row links).map Joint.link = links := by
  induction links with
  | nil => rfl
  | cons link links ih =>
    rw [row_cons, List.map_cons, ih]
    simp [Joint.link]

theorem head?_joined_row (links : List (Connective × String)) :
    (joined [] (row links)).head?.any isWordChar = false := by
  cases links with
  | nil => rfl
  | cons link links => rfl

theorem apostrophe_mem_joined {link : Connective × String} {links : List (Connective × String)}
    (h : '\'' ∈ joined [] (row (link :: links))) :
    '\'' ∈ link.2.toList ∨ '\'' ∈ joined [] (row links) := by
  simp only [row_cons, joined, List.mem_append] at h
  rcases h with h | h | h | h
  · exact absurd h (by decide)
  · exact absurd rfl (ne_apostrophe_of_isWordChar (Connective.isWordChar_of_mem_letters h))
  · exact absurd h (by decide)
  · exact h

theorem mem_of_clauseOf? {s : List Char} {x : String} {d : Char} (hx : clauseOf? s = some x)
    (hd : d ∈ x.toList) : d ∈ s := by
  obtain ⟨u, v, -, -, hsplit⟩ := exists_trim s
  rw [(clauseOf?_eq_some hx).1, String.toList_ofList] at hd
  rw [hsplit]
  exact List.mem_append_left v (List.mem_append_right u hd)

theorem apostrophe_mem_links {c : Connective} {s : List Char} {more : List (Connective × List Char)}
    (h : '\'' ∈ joined [] (row (links ((c, s) :: more)))) :
    '\'' ∈ s ∨ '\'' ∈ joined [] (row (links more)) := by
  cases hx : clauseOf? s with
  | none =>
    rw [links_cons_none hx] at h
    exact .inr h
  | some x =>
    rw [links_cons_some hx] at h
    rcases apostrophe_mem_joined h with h | h
    · exact .inl (mem_of_clauseOf? hx h)
    · exact .inr h

theorem Cuts.apostrophe_mem {text s : List Char} {more : List (Connective × List Char)}
    (h : Cuts text s more) (hm : '\'' ∈ s ∨ '\'' ∈ joined [] (row (links more))) :
    '\'' ∈ text := by
  induction h with
  | last hs => exact hm.resolve_right (by decide)
  | @next s rest s' c more hs hc hr ih =>
    rcases hm with hm | hm
    · exact List.mem_append_left _ (List.mem_append_left _ hm)
    · exact List.mem_append_right _ (ih (apostrophe_mem_links hm))

theorem exists_around_clause {s : List Char} {x : String} (hx : clauseOf? s = some x) :
    ∃ u v c text, Blanks u ∧ Blanks v ∧ isWordChar c = true ∧ x.toList = c :: text ∧
      s = u ++ c :: text ++ v := by
  obtain ⟨rfl, hop⟩ := clauseOf?_eq_some hx
  obtain ⟨u, v, hu, hv, hsplit⟩ := exists_trim s
  obtain ⟨spelling, hspelling⟩ := Operand.exists_spelling hop
  obtain ⟨c, hhead, hstart⟩ := spelling.head?_text
  rw [← String.ofList_injective hspelling] at hhead
  obtain ⟨text, htext⟩ := List.head?_eq_some_iff.mp hhead
  refine ⟨u, v, c, text, hu, hv, isWordChar_of_isNameStart hstart, ?_, ?_⟩
  · rw [String.toList_ofList, htext]
  · rw [← htext]
    exact hsplit

/-- A text between blank runs is crossed in its place if all of it is: the blanks behind it would
not close a literal. -/
theorem modeAfter?_between {u v text after : List Char} (hu : Blanks u) (hv : Blanks v)
    (h : modeAfter? after false [] (u ++ text ++ v) = some false) :
    modeAfter? (v ++ after) false u.reverse text = some false := by
  rw [List.append_assoc, modeAfter?_append, modeAfter?_blanks hu, Option.bind_some,
    modeAfter?_append, List.append_nil] at h
  obtain ⟨mode, hmode, hrest⟩ := Option.bind_eq_some_iff.mp h
  cases mode with
  | false => exact hmode
  | true =>
    have hq : '\'' ∉ v := by
      intro hmem
      exact ne_apostrophe_of_isBlank (hv _ hmem) rfl
    rw [modeAfter?_insideLiteral hq] at hrest
    cases hrest

/-- The clause of a segment that is crossed is crossed in front of any text that does not continue
its last word and brings no new apostrophe. -/
theorem crosses_clause {s after after' : List Char} {x : String} (hx : clauseOf? s = some x)
    (hs : modeAfter? after false [] s = some false) (he : EndsWord s after)
    (he' : after'.head?.any isWordChar = false) (ha : '\'' ∈ after' → '\'' ∈ after) :
    Crosses x.toList after' := by
  obtain ⟨u, v, c, text, hu, hv, hc, hxtext, rfl⟩ := exists_around_clause hx
  intro lead hlead
  have hclause := modeAfter?_between hu hv hs
  have hends : EndsWord (c :: text) (v ++ after) := by
    cases v with
    | cons d v => exact endsWord_of_head? (head?_not_word_of_blanks hv (List.cons_ne_nil d v) _) _
    | nil =>
      intro hlast
      apply he
      rw [List.append_nil, List.getLast?_append_cons]
      exact hlast
  have hends' : EndsWord (c :: text) after' := endsWord_of_head? he' _
  have hheads : u.reverse.head?.any isWordChar = lead.head?.any isWordChar := by
    rw [hu.reverse.head?_not_word, hlead.head?_not_word]
  have hat := at?_eq_none_of_crossed hclause
  have hat' := (at?_transfer hheads hends hends').symm.trans hat
  -- behind its first character the clause looks back at that character at most
  have hlook : ([c].find? fun c => !isAsciiBlank c).isSome = true := by
    simp [isAsciiBlank_eq_false_of_isWordChar hc]
  have hq := beq_false_of_ne (ne_apostrophe_of_isWordChar hc)
  rw [modeAfter?_plain hat, hq] at hclause
  rw [hxtext, modeAfter?_plain hat', hq]
  exact modeAfter?_transfer hlook hends.tail hends'.tail
    (fun hm => List.mem_append_right v (ha hm)) hclause

/-- A segment's clause is crossed in front of the row of the later clauses. -/
theorem Cuts.crosses {text s : List Char} {more : List (Connective × List Char)} {x : String}
    (h : Cuts text s more) (hx : clauseOf? s = some x) :
    Crosses x.toList (joined [] (row (links more))) := by
  cases h with
  | last hs =>
    exact crosses_clause hx hs (endsWord_of_head? rfl _) (head?_joined_row _) (fun hm => hm)
  | @next s rest s' c more hs hc hr =>
    refine crosses_clause hx hs ?_ (head?_joined_row _) ?_
    · intro hlast
      have hbefore := (Connective.of_at?_eq_some hc).1
      rw [List.head?_reverse, hlast] at hbefore
      cases hbefore
    · intro hm
      exact List.mem_append_right _ (hr.apostrophe_mem (apostrophe_mem_links hm))

/-- A clause in front of a row is steady if it is crossed there and the row is steady. -/
theorem steady_row {x : String} {links : List (Connective × String)} (hop : isOperand x = true)
    (hx : Crosses x.toList (joined [] (row links)))
    (hrow : ∀ link rest, links = link :: rest → Steady [] link.2.toList (row rest)) :
    Steady [] x.toList (row links) := by
  have hop' : isOperand (String.ofList x.toList) = true := by rwa [String.ofList_toList]
  cases links with
  | nil => exact ⟨hop', hx⟩
  | cons link links =>
    have hne : [' '] ≠ [] := List.cons_ne_nil _ _
    exact ⟨hop', hx, ⟨blanks_space, hne, blanks_space, hne⟩, hrow link links rfl⟩

/-- The row of the later clauses is steady. -/
theorem Cuts.steady_links {text s : List Char} {more : List (Connective × List Char)}
    (h : Cuts text s more) :
    ∀ link rest, links more = link :: rest → Steady [] link.2.toList (row rest) := by
  induction h with
  | last hs =>
    intro link rest hlinks
    cases hlinks
  | @next s rest s' c more hs hc hr ih =>
    intro link later hlinks
    cases hx : clauseOf? s' with
    | none =>
      rw [links_cons_none hx] at hlinks
      exact ih link later hlinks
    | some x =>
      rw [links_cons_some hx] at hlinks
      cases hlinks
      exact steady_row (clauseOf?_eq_some hx).2 (hr.crosses hx) ih

theorem Cuts.steady_clause {text s : List Char} {more : List (Connective × List Char)} {x : String}
    (h : Cuts text s more) (hx : clauseOf? s = some x) :
    Steady [] x.toList (row (links more)) :=
  steady_row (clauseOf?_eq_some hx).2 (h.crosses hx) h.steady_links

/-- The spine of a rule is steady. -/
theorem Cuts.steady_spine {text s : List Char} {more : List (Connective × List Char)}
    {first : String} {rest : List (Connective × String)} (h : Cuts text s more)
    (hspine : spine? s more = some (first, rest)) : Steady [] first.toList (row rest) := by
  induction h with
  | @last s hs =>
    obtain ⟨x, hx, hspine⟩ := Option.map_eq_some_iff.mp hspine
    cases hspine
    exact Cuts.steady_clause (.last hs) hx
  | @next s later s' c more hs hc hr ih =>
    cases hx : clauseOf? s with
    | none =>
      rw [spine?, hx] at hspine
      exact ih hspine
    | some x =>
      rw [spine?_of_clause hx] at hspine
      cases hspine
      exact Cuts.steady_clause (.next hs hc hr) hx

end Token

/-! ## The round trip -/

namespace Tree

theorem toList_normalForm_ofSpine (first : String) (rest : List (Connective × String)) :
    (ofSpine first rest).normalForm.toList = first.toList ++ Token.joined [] (Token.row rest) := by
  have hgrow : ∀ tree : Tree,
      (rest.foldl (fun tree link => .join link.1 tree (.leaf link.2)) tree).normalForm.toList =
        tree.normalForm.toList ++ Token.joined [] (Token.row rest) := by
    induction rest with
    | nil =>
      intro tree
      exact (List.append_nil _).symm
    | cons link rest ih =>
      intro tree
      rw [List.foldl_cons, ih]
      simp [normalForm, Token.row_cons, Token.joined, Connective.letters]
  exact hgrow (.leaf first)

/-- The normal form of the tree of a rule parses to the same tree. -/
theorem parse?_normalForm {rule : String} {tree : Tree} (h : parse? rule = some tree) :
    parse? tree.normalForm = some tree := by
  obtain ⟨s, more, hcuts⟩ := Token.exists_cuts rule.toList
  rw [parse?_of_cuts hcuts] at h
  obtain ⟨⟨first, rest⟩, hspine, rfl⟩ := Option.map_eq_some_iff.mp h
  have hparse := Token.parse?_of_steady blanks_nil blanks_nil (hcuts.steady_spine hspine)
  rw [List.nil_append, ← toList_normalForm_ofSpine, String.ofList_toList, String.ofList_toList,
    Token.map_link_row] at hparse
  exact hparse

/-- Segments that are no operands fall away, and with them the apostrophe behind the last
connective; the literal that ends in a comparator and the quote behind the no-break space stay. -/
theorem parse?_normalForm_littered :
    parse? "OR ' AND a=\u00a0'x' AND AND b = 'y=' OR d != 5 AND 'oops" =
        some (.join .or (.join .and (.leaf "a=\u00a0'x'") (.leaf "b = 'y='")) (.leaf "d != 5")) ∧
      parse? (normalForm (.join .or (.join .and (.leaf "a=\u00a0'x'") (.leaf "b = 'y='"))
          (.leaf "d != 5"))) =
        some (.join .or (.join .and (.leaf "a=\u00a0'x'") (.leaf "b = 'y='"))
          (.leaf "d != 5")) := by
  have h : parse? "OR ' AND a=\u00a0'x' AND AND b = 'y=' OR d != 5 AND 'oops" =
      some (.join .or (.join .and (.leaf "a=\u00a0'x'") (.leaf "b = 'y='")) (.leaf "d != 5")) := by
    decide +kernel
  exact ⟨h, parse?_normalForm h⟩

end Tree

end Verdict
