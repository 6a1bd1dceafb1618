import Mathlib.Data.List.TakeWhile
import Verdict.Operand

/-!
# Classes of characters, and trimming

White space, word characters, the characters of comparison signs and the apostrophe are disjoint.
Trimming takes the longest blank runs off both ends, so a text between blank runs trims as the
text does.
-/

namespace Verdict.Text

/-! ## Classes -/

theorem toNat_of_isUpper {c : Char} (h : c.isUpper = true) : 65 ≤ c.toNat ∧ c.toNat ≤ 90 :=
  of_decide_eq_true h

theorem toNat_of_isLower {c : Char} (h : c.isLower = true) : 97 ≤ c.toNat ∧ c.toNat ≤ 122 :=
  (Bool.and_eq_true_iff.mp h).imp of_decide_eq_true of_decide_eq_true

theorem toNat_of_isWordChar {c : Char} (h : isWordChar c = true) :
    (48 ≤ c.toNat ∧ c.toNat ≤ 57) ∨ (65 ≤ c.toNat ∧ c.toNat ≤ 90) ∨
      (97 ≤ c.toNat ∧ c.toNat ≤ 122) ∨ c.toNat = 95 ∨ c.toNat = 46 := by
  simp only [isWordChar, Char.isAlphanum, Bool.or_eq_true, beq_iff_eq] at h
  rcases h with ((halpha | hdigit) | rfl) | rfl
  · rcases Bool.or_eq_true_iff.mp halpha with hupper | hlower
    · exact .inr (.inl (toNat_of_isUpper hupper))
    · exact .inr (.inr (.inl (toNat_of_isLower hlower)))
  · exact .inl (Char.isDigit_iff_toNat.mp hdigit)
  · decide
  · decide

theorem isBlank_eq_false_of_isWordChar {c : Char} (h : isWordChar c = true) :
    isBlank c = false := by
  have hc := toNat_of_isWordChar h
  simp only [isBlank, blankRanges, List.any_cons, List.any_nil, Bool.or_false, Bool.or_eq_false_iff,
    Bool.and_eq_false_iff, decide_eq_false_iff_not]
  omega

theorem isAsciiBlank_eq_false_of_isWordChar {c : Char} (h : isWordChar c = true) :
    isAsciiBlank c = false := by
  by_contra hc
  have hblank := isBlank_of_isAsciiBlank (c := c) (by simpa using hc)
  rw [isBlank_eq_false_of_isWordChar h] at hblank
  exact Bool.false_ne_true hblank

theorem isWordChar_eq_false_of_isBlank {c : Char} (h : isBlank c = true) :
    isWordChar c = false := by
  by_contra hc
  rw [isBlank_eq_false_of_isWordChar (by simpa using hc)] at h
  exact Bool.false_ne_true h

theorem classes_of_isSignChar {c : Char} (h : Comparator.isSignChar c = true) :
    isBlank c = false ∧ isWordChar c = false ∧ c ≠ '\'' := by
  simp only [Comparator.isSignChar, Bool.or_eq_true, beq_iff_eq] at h
  rcases h with ((rfl | rfl) | rfl) | rfl <;> decide

theorem isSignChar_eq_false_of_isWordChar {c : Char} (h : isWordChar c = true) :
    Comparator.isSignChar c = false := by
  by_contra hc
  rw [(classes_of_isSignChar (by simpa using hc)).2.1] at h
  exact Bool.false_ne_true h

theorem isSignChar_eq_false_of_isBlank {c : Char} (h : isBlank c = true) :
    Comparator.isSignChar c = false := by
  by_contra hc
  rw [(classes_of_isSignChar (by simpa using hc)).1] at h
  exact Bool.false_ne_true h

theorem ne_apostrophe_of_isWordChar {c : Char} (h : isWordChar c = true) : c ≠ '\'' := by
  rintro rfl
  exact absurd h (by decide)

theorem ne_apostrophe_of_isBlank {c : Char} (h : isBlank c = true) : c ≠ '\'' := by
  rintro rfl
  exact absurd h (by decide)

/-! ## Runs -/

/-- A text of white space only. -/
def Blanks (cs : List Char) : Prop :=
  ∀ c ∈ cs, isBlank c = true

theorem blanks_nil : Blanks [] := by
  intro c hc
  cases hc

theorem blanks_space : Blanks [' '] := by
  intro c hc
  rw [List.mem_singleton.mp hc]
  decide

theorem Blanks.reverse {cs : List Char} (h : Blanks cs) : Blanks cs.reverse := by
  intro c hc
  exact h c (List.mem_reverse.mp hc)

theorem Blanks.head?_not_word {cs : List Char} (h : Blanks cs) :
    cs.head?.any isWordChar = false := by
  cases cs with
  | nil => rfl
  | cons c cs => simpa using isWordChar_eq_false_of_isBlank (h c List.mem_cons_self)

theorem head?_any_dropWhile (p : Char → Bool) (cs : List Char) :
    (cs.dropWhile p).head?.any p = false := by
  have h := List.head?_dropWhile_not p cs
  cases hd : (cs.dropWhile p).head? with
  | none => rfl
  | some c => simpa [hd] using h

theorem dropWhile_eq_self_of_head? {p : Char → Bool} {cs : List Char}
    (h : cs.head?.any p = false) : cs.dropWhile p = cs := by
  cases cs with
  | nil => rfl
  | cons c cs => exact List.dropWhile_cons_of_neg (by simpa using h)

theorem takeWhile_eq_nil_of_head? {p : Char → Bool} {cs : List Char}
    (h : cs.head?.any p = false) : cs.takeWhile p = [] := by
  cases cs with
  | nil => rfl
  | cons c cs => exact List.takeWhile_cons_of_neg (by simpa using h)

theorem dropWhile_run {p : Char → Bool} {run rest : List Char} (hrun : ∀ c ∈ run, p c = true)
    (hrest : rest.head?.any p = false) : (run ++ rest).dropWhile p = rest := by
  rw [List.dropWhile_append_of_pos hrun, dropWhile_eq_self_of_head? hrest]

theorem takeWhile_run {p : Char → Bool} {run rest : List Char} (hrun : ∀ c ∈ run, p c = true)
    (hrest : rest.head?.any p = false) : (run ++ rest).takeWhile p = run := by
  rw [List.takeWhile_append_of_pos hrun, takeWhile_eq_nil_of_head? hrest, List.append_nil]

/-- A run and what does not continue it are told apart in one way only. -/
theorem run_append_inj {p : Char → Bool} {run run' rest rest' : List Char}
    (hrun : ∀ c ∈ run, p c = true) (hrest : rest.head?.any p = false)
    (hrun' : ∀ c ∈ run', p c = true) (hrest' : rest'.head?.any p = false)
    (h : run ++ rest = run' ++ rest') : run = run' ∧ rest = rest' := by
  have htake := congrArg (List.takeWhile p) h
  have hdrop := congrArg (List.dropWhile p) h
  rw [takeWhile_run hrun hrest, takeWhile_run hrun' hrest'] at htake
  rw [dropWhile_run hrun hrest, dropWhile_run hrun' hrest'] at hdrop
  exact ⟨htake, hdrop⟩

/-! ## Trimming -/

theorem exists_trimRight (cs : List Char) : ∃ v, Blanks v ∧ cs = trimRight cs ++ v := by
  refine ⟨(cs.reverse.takeWhile isBlank).reverse, ?_, ?_⟩
  · intro c hc
    exact List.mem_takeWhile_imp (List.mem_reverse.mp hc)
  · rw [trimRight, ← List.reverse_append, List.takeWhile_append_dropWhile, List.reverse_reverse]

theorem exists_trim (cs : List Char) : ∃ u v, Blanks u ∧ Blanks v ∧ cs = u ++ trim cs ++ v := by
  obtain ⟨v, hv, h⟩ := exists_trimRight (cs.dropWhile isBlank)
  refine ⟨cs.takeWhile isBlank, v, fun c hc => List.mem_takeWhile_imp hc, hv, ?_⟩
  rw [List.append_assoc, trim, ← h, List.takeWhile_append_dropWhile]

theorem trimRight_append {v : List Char} (hv : Blanks v) (cs : List Char) :
    trimRight (cs ++ v) = trimRight cs := by
  rw [trimRight, trimRight, List.reverse_append, List.dropWhile_append_of_pos hv.reverse]

theorem trimRight_eq_self {cs : List Char} (h : cs.getLast?.any isBlank = false) :
    trimRight cs = cs := by
  rw [trimRight, dropWhile_eq_self_of_head? (by rwa [List.head?_reverse]), List.reverse_reverse]

theorem trimRight_eq_nil {cs : List Char} (h : Blanks cs) : trimRight cs = [] := by
  simpa [trimRight] using trimRight_append h []

theorem trim_append {u v : List Char} (hu : Blanks u) (hv : Blanks v) (cs : List Char) :
    trim (u ++ cs ++ v) = trim cs := by
  rw [trim, trim, List.append_assoc, List.dropWhile_append_of_pos hu, List.dropWhile_append]
  split
  · next h =>
    rw [List.isEmpty_iff.mp h, trimRight_eq_nil (fun c hc => ?_)]
    · rfl
    · exact hv c (List.dropWhile_subset isBlank hc)
  · exact trimRight_append hv _

theorem trim_eq_nil {cs : List Char} (h : Blanks cs) : trim cs = [] := by
  have htrim := trim_append h blanks_nil []
  rwa [List.append_nil, List.append_nil] at htrim

theorem trim_eq_self {cs : List Char} (hh : cs.head?.any isBlank = false)
    (hl : cs.getLast?.any isBlank = false) : trim cs = cs := by
  rw [trim, dropWhile_eq_self_of_head? hh, trimRight_eq_self hl]

end Verdict.Text
