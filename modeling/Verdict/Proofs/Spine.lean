import Mathlib.Data.List.Induction
import Verdict.Proofs.Cutting

/-!
# The tree of a rule is a spine

The tokens of a rule come from its segments, and between two operands there is always a connective.
So the fold of the tokens joins the operands from left to right, each with the connective directly
in front of its segment (`parse?_of_cuts`), whatever connectives are left waiting below.
-/

namespace Verdict

open Text

namespace Tree

/-! ## Spines -/

/-- The left-deep tree of a first clause and of later ones, each with the connective that joins
it. -/
def ofSpine (first : String) (rest : List (Connective × String)) : Tree :=
  rest.foldl (fun tree link => .join link.1 tree (.leaf link.2)) (.leaf first)

theorem ofSpine_concat (first : String) (rest : List (Connective × String))
    (link : Connective × String) :
    ofSpine first (rest ++ [link]) = .join link.1 (ofSpine first rest) (.leaf link.2) := by
  rw [ofSpine, List.foldl_append]
  rfl

theorem clauses_ofSpine (first : String) (rest : List (Connective × String)) :
    (ofSpine first rest).clauses = first :: rest.map Prod.snd := by
  induction rest using List.reverseRecOn with
  | nil => rfl
  | append_singleton rest link ih =>
    rw [ofSpine_concat, clauses_join, ih, clauses_leaf, List.map_append, List.map_singleton,
      List.cons_append]

end Tree

namespace Token

/-! ## The clauses of segments -/

/-- The clause of a segment, if its trimmed text is an operand. -/
def clauseOf? (segment : List Char) : Option String :=
  let clause := String.ofList (trim segment)
  if isOperand clause then some clause else none

theorem clauseOf?_eq_some {segment : List Char} {clause : String}
    (h : clauseOf? segment = some clause) :
    clause = String.ofList (trim segment) ∧ isOperand clause = true := by
  simp only [clauseOf?] at h
  split at h
  · next hop =>
    cases h
    exact ⟨rfl, hop⟩
  · cases h

theorem ofSegment_reverse (segment : List Char) :
    ofSegment segment.reverse = (clauseOf? segment).toList.map .operand := by
  simp only [ofSegment, clauseOf?, List.reverse_reverse]
  split <;> rfl

/-- The clauses of later segments, each with the connective in front of it. -/
def links (more : List (Connective × List Char)) : List (Connective × String) :=
  more.filterMap fun cut => (clauseOf? cut.2).map (cut.1, ·)

theorem links_cons_none {s : List Char} (h : clauseOf? s = none) (c : Connective)
    (more : List (Connective × List Char)) : links ((c, s) :: more) = links more := by
  have hlink : (clauseOf? s).map (c, ·) = none := by rw [h]; rfl
  exact List.filterMap_cons_none hlink

theorem links_cons_some {s : List Char} {x : String} (h : clauseOf? s = some x) (c : Connective)
    (more : List (Connective × List Char)) : links ((c, s) :: more) = (c, x) :: links more := by
  have hlink : (clauseOf? s).map (c, ·) = some (c, x) := by rw [h]; rfl
  exact List.filterMap_cons_some hlink

theorem isOperand_of_mem_links {more : List (Connective × List Char)}
    {link : Connective × String} (h : link ∈ links more) : isOperand link.2 = true := by
  obtain ⟨cut, -, hcut⟩ := List.mem_filterMap.mp h
  obtain ⟨x, hx, rfl⟩ := Option.map_eq_some_iff.mp hcut
  exact (clauseOf?_eq_some hx).2

/-- The first clause of segments and the links after it; none if there is no clause. -/
def spine? (s : List Char) :
    List (Connective × List Char) → Option (String × List (Connective × String))
  | [] => (clauseOf? s).map (·, [])
  | cut :: more =>
    match clauseOf? s with
    | some x => some (x, links (cut :: more))
    | none => spine? cut.2 more

theorem spine?_of_clause {s : List Char} {x : String} (h : clauseOf? s = some x)
    (more : List (Connective × List Char)) : spine? s more = some (x, links more) := by
  cases more with
  | nil => rw [spine?, h]; rfl
  | cons cut more => rw [spine?, h]

theorem isOperand_of_spine? {s : List Char} {more : List (Connective × List Char)}
    {first : String} {rest : List (Connective × String)} (h : spine? s more = some (first, rest)) :
    isOperand first = true ∧ ∀ link ∈ rest, isOperand link.2 = true := by
  induction more generalizing s with
  | nil =>
    rw [spine?] at h
    obtain ⟨x, hx, he⟩ := Option.map_eq_some_iff.mp h
    cases he
    exact ⟨(clauseOf?_eq_some hx).2, fun link hl => by cases hl⟩
  | cons cut more ih =>
    cases hs : clauseOf? s with
    | none =>
      rw [spine?, hs] at h
      exact ih h
    | some x =>
      rw [spine?_of_clause hs] at h
      cases h
      exact ⟨(clauseOf?_eq_some hs).2, fun link hl => isOperand_of_mem_links hl⟩

/-! ## Folding the tokens of segments -/

/-- The tokens of a later segment. -/
def ofCut (cut : Connective × List Char) : List Token :=
  .connective cut.1 :: ofSegment cut.2.reverse

theorem ofCuts_cons (s : List Char) (cut : Connective × List Char)
    (more : List (Connective × List Char)) :
    ofCuts s (cut :: more) = ofSegment s.reverse ++ .connective cut.1 :: ofCuts cut.2 more := by
  rw [ofCuts, List.flatMap_cons, List.cons_append]
  rfl

/-- A tree grows by the links of the segments that follow, whatever connectives wait. -/
theorem foldl_push_links (tree : Tree) (waiting : List Connective)
    (more : List (Connective × List Char)) :
    ((more.flatMap ofCut).foldl Growth.push ⟨some tree, waiting⟩).tree =
      some ((links more).foldl (fun tree link => .join link.1 tree (.leaf link.2)) tree) := by
  induction more generalizing tree waiting with
  | nil => rfl
  | cons cut more ih =>
    obtain ⟨c, s⟩ := cut
    rw [List.flatMap_cons, List.foldl_append, ofCut, ofSegment_reverse]
    cases h : clauseOf? s with
    | none =>
      rw [links_cons_none h]
      exact ih tree (c :: waiting)
    | some x =>
      rw [links_cons_some h, List.foldl_cons]
      exact ih (.join c tree (.leaf x)) waiting

theorem foldl_push_ofCuts (waiting : List Connective) (s : List Char)
    (more : List (Connective × List Char)) :
    ((ofCuts s more).foldl Growth.push ⟨none, waiting⟩).tree =
      (spine? s more).map fun spine => Tree.ofSpine spine.1 spine.2 := by
  induction more generalizing s waiting with
  | nil =>
    rw [ofCuts, List.flatMap_nil, List.append_nil, ofSegment_reverse, spine?]
    cases clauseOf? s with
    | none => rfl
    | some x => rfl
  | cons cut more ih =>
    cases h : clauseOf? s with
    | none =>
      rw [ofCuts_cons, ofSegment_reverse, h, spine?, h]
      exact ih (cut.1 :: waiting) cut.2
    | some x =>
      rw [spine?_of_clause h, ofCuts, ofSegment_reverse, h]
      exact foldl_push_links (.leaf x) waiting (cut :: more)

end Token

namespace Tree

/-! ## The tree of a rule -/

/-- The tree of a rule is the spine of the clauses among its segments. -/
theorem parse?_of_cuts {rule : String} {s : List Char} {more : List (Connective × List Char)}
    (h : Token.Cuts rule.toList s more) :
    parse? rule = (Token.spine? s more).map fun spine => ofSpine spine.1 spine.2 := by
  rw [parse?, h.ofRule_eq, ofTokens?, Growth.empty, Token.foldl_push_ofCuts]

theorem isOperand_of_parse? {rule : String} {tree : Tree} (h : parse? rule = some tree)
    {clause : String} (hc : clause ∈ tree.clauses) : isOperand clause = true := by
  obtain ⟨s, more, hcuts⟩ := Token.exists_cuts rule.toList
  rw [parse?_of_cuts hcuts] at h
  obtain ⟨⟨first, rest⟩, hspine, rfl⟩ := Option.map_eq_some_iff.mp h
  obtain ⟨hfirst, hrest⟩ := Token.isOperand_of_spine? hspine
  rw [clauses_ofSpine] at hc
  rcases List.mem_cons.mp hc with rfl | hc
  · exact hfirst
  · obtain ⟨link, hlink, rfl⟩ := List.mem_map.mp hc
    exact hrest link hlink

end Tree

end Verdict
