import Verdict.Proofs.Spelling
import Verdict.Proofs.Spine

/-!
# Clauses laid out in a row

A text of operands with spaced connectives between them parses to the spine of the operands, if the
scan crosses each operand in its place without meeting a connective and leaves it outside a
literal (`parse?_of_steady`).
-/

namespace Verdict

open Text

namespace Token

/-- A clause with the connective in front of it and the white space around the connective. -/
structure Joint where
  front : List Char
  connective : Connective
  back : List Char
  clause : List Char

/-- The connective and the clause that it joins. -/
def Joint.link (j : Joint) : Connective × String :=
  (j.connective, String.ofList j.clause)

/-- The white space around the connective is not empty. -/
structure Joint.Spaced (j : Joint) : Prop where
  front : Blanks j.front
  front_ne : j.front ≠ []
  back : Blanks j.back
  back_ne : j.back ≠ []

/-- The text of joints in front of a last text. -/
def joined (pad : List Char) : List Joint → List Char
  | [] => pad
  | j :: joints => j.front ++ (j.connective.letters ++ (j.back ++ (j.clause ++ joined pad joints)))

/-- The scan crosses a text in front of another, with nothing but white space behind it, and leaves
it outside a literal. -/
def Crosses (text after : List Char) : Prop :=
  ∀ lead, Blanks lead → modeAfter? after false lead text = some false

/-- The scan crosses a clause and the clauses joined to it, each in its place. -/
def Steady (pad clause : List Char) : List Joint → Prop
  | [] => isOperand (String.ofList clause) = true ∧ Crosses clause pad
  | j :: joints =>
    isOperand (String.ofList clause) = true ∧ Crosses clause (joined pad (j :: joints)) ∧
      j.Spaced ∧ Steady pad j.clause joints

theorem Crosses.padded {text after lead trail : List Char} (h : Crosses text (trail ++ after))
    (hl : Blanks lead) (ht : Blanks trail) :
    modeAfter? after false [] (lead ++ text ++ trail) = some false := by
  rw [List.append_assoc, modeAfter?_append, modeAfter?_blanks hl, Option.bind_some,
    modeAfter?_append, List.append_nil, h _ hl.reverse, Option.bind_some]
  exact modeAfter?_blanks ht _ _

theorem clauseOf?_padded {clause lead trail : List Char}
    (h : isOperand (String.ofList clause) = true) (hl : Blanks lead) (ht : Blanks trail) :
    clauseOf? (lead ++ clause ++ trail) = some (String.ofList clause) := by
  obtain ⟨s, hs⟩ := Operand.exists_spelling h
  have htrim : trim clause = clause := by
    rw [String.ofList_injective hs]
    exact s.trim_text
  simp only [clauseOf?, trim_append hl ht, htrim]
  exact if_pos h

theorem head?_not_word_of_blanks {cs : List Char} (h : Blanks cs) (hne : cs ≠ [])
    (rest : List Char) : (cs ++ rest).head?.any isWordChar = false := by
  cases cs with
  | nil => exact absurd rfl hne
  | cons c cs => simpa using isWordChar_eq_false_of_isBlank (h c List.mem_cons_self)

theorem Joint.Spaced.at?_eq {j : Joint} (h : j.Spaced) (text rest : List Char) :
    Connective.at? (text ++ j.front).reverse (j.connective.letters ++ (j.back ++ rest)) =
      some j.connective := by
  apply Connective.at?_letters
  · rw [List.reverse_append]
    exact head?_not_word_of_blanks h.front.reverse (by simpa using h.front_ne) _
  · exact head?_not_word_of_blanks h.back h.back_ne _

/-- The segments of a row of clauses are the clauses between their white space. -/
theorem exists_cuts_of_steady {pad clause : List Char} {joints : List Joint} (hpad : Blanks pad)
    (h : Steady pad clause joints) {lead : List Char} (hl : Blanks lead) :
    ∃ s more, Cuts (lead ++ (clause ++ joined pad joints)) s more ∧
      clauseOf? s = some (String.ofList clause) ∧ links more = joints.map Joint.link := by
  induction joints generalizing clause lead with
  | nil =>
    obtain ⟨hop, hcross⟩ := h
    refine ⟨lead ++ clause ++ pad, [], ?_, clauseOf?_padded hop hl hpad, rfl⟩
    rw [joined, ← List.append_assoc]
    exact .last (Crosses.padded (by rwa [List.append_nil]) hl hpad)
  | cons j joints ih =>
    obtain ⟨hop, hcross, hspaced, hrest⟩ := h
    obtain ⟨s, more, hcuts, hclause, hlinks⟩ := ih hrest hspaced.back
    refine ⟨lead ++ clause ++ j.front, (j.connective, s) :: more, ?_,
      clauseOf?_padded hop hl hspaced.front, ?_⟩
    · have htext : lead ++ (clause ++ joined pad (j :: joints)) =
          lead ++ clause ++ j.front ++ j.connective.letters ++
            (j.back ++ (j.clause ++ joined pad joints)) := by
        simp only [joined, List.append_assoc]
      rw [joined] at hcross
      rw [htext]
      exact .next (hcross.padded hl hspaced.front) (hspaced.at?_eq _ _) hcuts
    · rw [links_cons_some hclause, hlinks]
      rfl

/-- A row of clauses that are crossed in their places parses to their spine. -/
theorem parse?_of_steady {lead pad clause : List Char} {joints : List Joint} (hl : Blanks lead)
    (hpad : Blanks pad) (h : Steady pad clause joints) :
    Tree.parse? (String.ofList (lead ++ (clause ++ joined pad joints))) =
      some (Tree.ofSpine (String.ofList clause) (joints.map Joint.link)) := by
  obtain ⟨s, more, hcuts, hclause, hlinks⟩ := exists_cuts_of_steady hpad h hl
  have hrule : Cuts (String.ofList (lead ++ (clause ++ joined pad joints))).toList s more := by
    rwa [String.toList_ofList]
  rw [Tree.parse?_of_cuts hrule, spine?_of_clause hclause, hlinks, Option.map_some]

end Token

end Verdict
