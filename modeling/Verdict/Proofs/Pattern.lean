import Mathlib.Data.List.TakeWhile

/-!
# Patterns that backtrack

A pattern is a row of pieces, each with the class of the characters that it takes. A match shares a
whole text out among the pieces. Where that can be done in several ways an earlier piece has the
first say, a greedy one for as much and a lazy one for as little as it can get, and its choice is
given up only where the pieces behind it cannot share out what is left (`firstMatch?`).

1. A text is matched exactly if it can be shared out at all (`matches_cons`).
2. Pieces that may take less match the end of each text that they match (`matches_of_append`). So a
   greedy piece in front of them gives nothing back (`firstMatch?_greedy`).
3. A lazy piece takes the shortest run behind which the others match (`firstMatch?_lazy`).
-/

namespace Verdict

/-- A piece of a pattern. -/
inductive Piece where
  /-- One character of the class. -/
  | one (p : Char → Bool)
  /-- One character of the class, or else nothing. -/
  | optional (p : Char → Bool)
  /-- Characters of the class, the more the better. -/
  | greedy (p : Char → Bool)
  /-- Characters of the class, the fewer the better. -/
  | lazy (p : Char → Bool)

namespace Piece

/-- The runs of a class at the front of a text, the shortest first, each with what is left. -/
def runs (p : Char → Bool) : List Char → List (List Char × List Char)
  | [] => [([], [])]
  | c :: rest =>
    ([], c :: rest) :: if p c then (runs p rest).map fun way => (c :: way.1, way.2) else []

/-- What a piece can take off the front of a text, the best way first, each with what is left. -/
def ways : Piece → List Char → List (List Char × List Char)
  | .one _, [] => []
  | .one p, c :: rest => if p c then [([c], rest)] else []
  | .optional _, [] => [([], [])]
  | .optional p, c :: rest => if p c then [([c], rest), ([], c :: rest)] else [([], c :: rest)]
  | .greedy p, text => (runs p text).reverse
  | .lazy p, text => runs p text

/-- What a piece may take. -/
def Takes : Piece → List Char → Prop
  | .one p, taken => ∃ c, p c = true ∧ taken = [c]
  | .optional p, taken => taken = [] ∨ ∃ c, p c = true ∧ taken = [c]
  | .greedy p, taken => ∀ c ∈ taken, p c = true
  | .lazy p, taken => ∀ c ∈ taken, p c = true

/-! ## The ways of a piece -/

theorem mem_runs_iff {p : Char → Bool} {text taken rest : List Char} :
    (taken, rest) ∈ runs p text ↔ taken ++ rest = text ∧ ∀ c ∈ taken, p c = true := by
  induction text generalizing taken with
  | nil =>
    rw [runs, List.mem_singleton, Prod.mk.injEq, List.append_eq_nil_iff]
    constructor
    · rintro ⟨rfl, rfl⟩
      exact ⟨⟨rfl, rfl⟩, fun c hc => by cases hc⟩
    · exact fun h => h.1
  | cons d text ih =>
    rw [runs, List.mem_cons, Prod.mk.injEq]
    cases taken with
    | nil =>
      have hmore : ([], rest) ∉
          if p d then (runs p text).map fun way => (d :: way.1, way.2) else [] := by
        split <;> simp
      simp [hmore]
    | cons c taken =>
      by_cases hd : p d = true
      · have hway : (c :: taken, rest) ∈ (runs p text).map (fun way => (d :: way.1, way.2)) ↔
            d = c ∧ (taken, rest) ∈ runs p text := by
          simp only [List.mem_map, Prod.mk.injEq, List.cons.injEq]
          constructor
          · rintro ⟨way, hway, ⟨rfl, rfl⟩, rfl⟩
            exact ⟨rfl, hway⟩
          · rintro ⟨rfl, hway⟩
            exact ⟨_, hway, ⟨rfl, rfl⟩, rfl⟩
        rw [if_pos hd, hway, ih]
        simp only [List.cons_append, List.cons.injEq, List.forall_mem_cons]
        grind
      · rw [if_neg hd]
        simp only [List.cons_append, List.cons.injEq, List.forall_mem_cons]
        grind

/-- The ways of a piece are to take what it may take. -/
theorem mem_ways_iff {piece : Piece} {text taken rest : List Char} :
    (taken, rest) ∈ piece.ways text ↔ taken ++ rest = text ∧ piece.Takes taken := by
  cases piece with
  | one p =>
    cases text with
    | nil =>
      rw [ways, Takes]
      grind
    | cons c text =>
      rw [ways, Takes]
      split <;> grind
  | optional p =>
    cases text with
    | nil =>
      rw [ways, Takes]
      grind
    | cons c text =>
      rw [ways, Takes]
      split <;> grind
  | greedy p => rw [ways, List.mem_reverse, mem_runs_iff, Takes]
  | lazy p => rw [ways, mem_runs_iff, Takes]

theorem exists_runs (p : Char → Bool) (text : List Char) :
    ∃ shorter, runs p text = shorter ++ [(text.takeWhile p, text.dropWhile p)] := by
  induction text with
  | nil => exact ⟨[], rfl⟩
  | cons c text ih =>
    obtain ⟨shorter, hruns⟩ := ih
    by_cases hc : p c = true
    · refine ⟨([], c :: text) :: shorter.map fun way => (c :: way.1, way.2), ?_⟩
      rw [runs, if_pos hc, hruns, List.takeWhile_cons_of_pos hc, List.dropWhile_cons_of_pos hc,
        List.map_append]
      rfl
    · refine ⟨[], ?_⟩
      rw [runs, if_neg hc, List.takeWhile_cons_of_neg hc, List.dropWhile_cons_of_neg hc]
      rfl

theorem exists_left_of_mem_runs {p : Char → Bool} {text taken rest : List Char}
    (h : (taken, rest) ∈ runs p text) :
    ∃ run, (∀ c ∈ run, p c = true) ∧ rest = run ++ text.dropWhile p := by
  obtain ⟨rfl, htaken⟩ := mem_runs_iff.mp h
  refine ⟨rest.takeWhile p, fun c hc => List.mem_takeWhile_imp hc, ?_⟩
  rw [List.dropWhile_append_of_pos htaken, List.takeWhile_append_dropWhile]

/-- The first way that serves is the shortest run that does. -/
theorem findSome?_runs {α : Type} {p : Char → Bool} {serve : List Char × List Char → Option α}
    {taken rest : List Char} {a : α} (hserve : serve (taken, rest) = some a)
    (hshort : ∀ front back, front ++ back = taken → back ≠ [] →
      serve (front, back ++ rest) = none) :
    (runs p (taken ++ rest)).findSome? serve = if taken.all p then some a else none := by
  induction taken generalizing serve with
  | nil =>
    cases rest with
    | nil => simp [runs, hserve]
    | cons c rest => simp [runs, hserve]
  | cons c taken ih =>
    have hnone := hshort [] (c :: taken) rfl (List.cons_ne_nil c taken)
    rw [List.cons_append] at hnone ⊢
    rw [runs, List.findSome?_cons, hnone, List.all_cons]
    have hlonger : ∀ front back, front ++ back = taken → back ≠ [] →
        serve (c :: front, back ++ rest) = none := by
      rintro front back rfl hback
      exact hshort (c :: front) back rfl hback
    by_cases hc : p c = true
    · rw [if_pos hc, List.findSome?_map, hc, Bool.true_and]
      exact ih hserve hlonger
    · simp [hc]

end Piece

namespace Pattern

open Piece

/-- How a whole text is shared out among pieces, the best way of an earlier piece first. -/
def firstMatch? : List Piece → List Char → Option (List (List Char))
  | [], text => if text.isEmpty then some [] else none
  | piece :: pieces, text =>
    (piece.ways text).findSome? fun way => (firstMatch? pieces way.2).map (way.1 :: ·)

/-- The pieces can share out the text. -/
def Matches (pieces : List Piece) (text : List Char) : Prop :=
  (firstMatch? pieces text).isSome = true

variable {piece : Piece} {pieces : List Piece} {p q : Char → Bool} {text : List Char}

theorem eq_none_of_not_matches (h : ¬Matches pieces text) : firstMatch? pieces text = none := by
  simpa [Matches] using h

theorem matches_nil : Matches [] text ↔ text = [] := by
  cases text <;> simp [Matches, firstMatch?]

theorem matches_cons :
    Matches (piece :: pieces) text ↔
      ∃ taken rest, taken ++ rest = text ∧ piece.Takes taken ∧ Matches pieces rest := by
  unfold Matches
  rw [firstMatch?, List.findSome?_isSome_iff]
  constructor
  · rintro ⟨⟨taken, rest⟩, hway, hrest⟩
    obtain ⟨htext, htakes⟩ := mem_ways_iff.mp hway
    exact ⟨taken, rest, htext, htakes, by simpa using hrest⟩
  · rintro ⟨taken, rest, htext, htakes, hrest⟩
    exact ⟨(taken, rest), mem_ways_iff.mpr ⟨htext, htakes⟩, by simpa using hrest⟩

theorem length_of_firstMatch? {parts : List (List Char)}
    (h : firstMatch? pieces text = some parts) : parts.length = pieces.length := by
  induction pieces generalizing text parts with
  | nil =>
    rw [firstMatch?] at h
    split at h <;> cases h
    rfl
  | cons piece pieces ih =>
    obtain ⟨-, way, -, -, hway, -⟩ := List.findSome?_eq_some_iff.mp h
    obtain ⟨others, hothers, rfl⟩ := Option.map_eq_some_iff.mp hway
    rw [List.length_cons, List.length_cons, ih hothers]

/-! ## Greedy pieces -/

/-- A greedy piece takes the longest run if the others match what that leaves whenever they match
more of the class in front of it. -/
theorem firstMatch?_greedy_of_longest
    (h : ∀ run, (∀ c ∈ run, p c = true) → Matches pieces (run ++ text.dropWhile p) →
      Matches pieces (text.dropWhile p)) :
    firstMatch? (.greedy p :: pieces) text =
      (firstMatch? pieces (text.dropWhile p)).map (text.takeWhile p :: ·) := by
  obtain ⟨shorter, hruns⟩ := exists_runs p text
  rw [firstMatch?, ways, hruns, List.reverse_concat, List.findSome?_cons]
  cases hlongest : firstMatch? pieces (text.dropWhile p) with
  | some parts => rfl
  | none =>
    -- the pieces do not match what the longest run leaves, so no shorter run can help
    rw [Option.map_none]
    show shorter.reverse.findSome? _ = none
    rw [List.findSome?_eq_none_iff]
    rintro ⟨taken, rest⟩ hway
    have hmem : (taken, rest) ∈ runs p text := by
      rw [hruns]
      exact List.mem_append_left _ (List.mem_reverse.mp hway)
    obtain ⟨run, hrun, rfl⟩ := exists_left_of_mem_runs hmem
    have hnot : ¬Matches pieces (run ++ text.dropWhile p) := by
      intro hmatches
      have hleft := h run hrun hmatches
      rw [Matches, hlongest] at hleft
      cases hleft
    rw [eq_none_of_not_matches hnot, Option.map_none]

/-- The pieces match no text that starts with a character of the class. -/
def Avoids (p : Char → Bool) (pieces : List Piece) : Prop :=
  ∀ c rest, p c = true → ¬Matches pieces (c :: rest)

theorem avoids_one (h : ∀ c, p c = true → q c = false) : Avoids p (.one q :: pieces) := by
  intro c rest hc hmatches
  obtain ⟨taken, left, htext, ⟨d, hd, rfl⟩, -⟩ := matches_cons.mp hmatches
  obtain ⟨rfl, -⟩ := List.cons.inj htext
  rw [h d hc] at hd
  cases hd

theorem avoids_greedy (h : ∀ c, p c = true → q c = false) (hpieces : Avoids p pieces) :
    Avoids p (.greedy q :: pieces) := by
  intro c rest hc hmatches
  obtain ⟨taken, left, htext, htakes, hleft⟩ := matches_cons.mp hmatches
  cases taken with
  | nil =>
    obtain rfl : left = c :: rest := htext
    exact hpieces c rest hc hleft
  | cons d taken =>
    obtain ⟨rfl, -⟩ := List.cons.inj htext
    have hd : q d = true := htakes d List.mem_cons_self
    rw [h d hc] at hd
    cases hd

theorem firstMatch?_greedy_of_avoids (h : Avoids p pieces) (text : List Char) :
    firstMatch? (.greedy p :: pieces) text =
      (firstMatch? pieces (text.dropWhile p)).map (text.takeWhile p :: ·) := by
  apply firstMatch?_greedy_of_longest
  intro run hrun hmatches
  cases run with
  | nil => exact hmatches
  | cons c run => exact absurd hmatches (h c _ (hrun c List.mem_cons_self))

/-! ## Pieces that may take less -/

/-- The piece may take any end of what it may take. -/
def isFlexible : Piece → Bool
  | .one _ => false
  | _ => true

theorem takes_of_append (h : isFlexible piece = true) {front back : List Char}
    (htakes : piece.Takes (front ++ back)) : piece.Takes back := by
  cases piece with
  | one p => cases h
  | optional p =>
    rcases htakes with hnil | ⟨c, hc, hone⟩
    · exact .inl (List.append_eq_nil_iff.mp hnil).2
    · rcases List.append_eq_singleton_iff.mp hone with ⟨-, rfl⟩ | ⟨-, rfl⟩
      · exact .inr ⟨c, hc, rfl⟩
      · exact .inl rfl
  | greedy p => exact fun c hc => htakes c (List.mem_append_right front hc)
  | lazy p => exact fun c hc => htakes c (List.mem_append_right front hc)

/-- Pieces that may take less match the end of each text that they match. -/
theorem matches_of_append (h : pieces.all isFlexible = true) {front back : List Char}
    (hmatches : Matches pieces (front ++ back)) : Matches pieces back := by
  induction pieces generalizing front with
  | nil =>
    rw [matches_nil] at hmatches ⊢
    exact (List.append_eq_nil_iff.mp hmatches).2
  | cons piece pieces ih =>
    obtain ⟨hpiece, hpieces⟩ := Bool.and_eq_true_iff.mp h
    obtain ⟨taken, rest, htext, htakes, hrest⟩ := matches_cons.mp hmatches
    rw [matches_cons]
    rcases List.append_eq_append_iff.mp htext with ⟨others, rfl, rfl⟩ | ⟨part, rfl, rfl⟩
    · exact ⟨[], back, rfl, takes_of_append hpiece (by simpa using htakes), ih hpieces hrest⟩
    · exact ⟨part, rest, rfl, takes_of_append hpiece htakes, hrest⟩

theorem firstMatch?_greedy (h : pieces.all isFlexible = true) (text : List Char) :
    firstMatch? (.greedy p :: pieces) text =
      (firstMatch? pieces (text.dropWhile p)).map (text.takeWhile p :: ·) :=
  firstMatch?_greedy_of_longest fun _ _ hmatches => matches_of_append h hmatches

/-! ## Single characters -/

theorem firstMatch?_one {c : Char} (hc : p c = true) (rest : List Char) :
    firstMatch? (.one p :: pieces) (c :: rest) = (firstMatch? pieces rest).map ([c] :: ·) := by
  simp [firstMatch?, ways, hc]

theorem firstMatch?_one_eq_none (h : text.head?.any p = false) :
    firstMatch? (.one p :: pieces) text = none := by
  cases text with
  | nil => rfl
  | cons c rest =>
    have hc : p c = false := h
    simp [firstMatch?, ways, hc]

theorem firstMatch?_optional (h : pieces.all isFlexible = true) {c : Char} (hc : p c = true)
    (rest : List Char) :
    firstMatch? (.optional p :: pieces) (c :: rest) = (firstMatch? pieces rest).map ([c] :: ·) := by
  rw [firstMatch?, ways, if_pos hc, List.findSome?_cons]
  cases hrest : firstMatch? pieces rest with
  | some parts => rfl
  | none =>
    have hnot : ¬Matches pieces (c :: rest) := by
      intro hmatches
      rw [← List.singleton_append] at hmatches
      have hleft := matches_of_append h hmatches
      rw [Matches, hrest] at hleft
      cases hleft
    simp [eq_none_of_not_matches hnot]

theorem firstMatch?_optional_of_head? (h : text.head?.any p = false) :
    firstMatch? (.optional p :: pieces) text = (firstMatch? pieces text).map ([] :: ·) := by
  cases text with
  | nil => simp [firstMatch?, ways]
  | cons c rest =>
    have hc : p c = false := h
    simp [firstMatch?, ways, hc]

/-! ## Lazy pieces -/

/-- A lazy piece takes the shortest run behind which the others match, if it may take that. -/
theorem firstMatch?_lazy {taken rest : List Char} {parts : List (List Char)}
    (hrest : firstMatch? pieces rest = some parts)
    (hshort : ∀ back, back ≠ [] → back <:+ taken → ¬Matches pieces (back ++ rest)) :
    firstMatch? (.lazy p :: pieces) (taken ++ rest) =
      if taken.all p then some (taken :: parts) else none := by
  rw [firstMatch?, ways]
  apply findSome?_runs
  · rw [hrest, Option.map_some]
  · intro front back htaken hback
    rw [eq_none_of_not_matches (hshort back hback ⟨front, htaken⟩), Option.map_none]

end Pattern

end Verdict
