import Verdict.Proofs.Characters

/-!
# How operands are spelled

An operand is a name, a comparator and a value with white space around the comparator. The
recogniser accepts exactly the texts that are spelled this way (`accepts_iff`), and no text is
spelled in two ways (`Spelling.text_injective`): a word, white space, a sign and white space each
end where nothing behind them continues them, and the value is what is left.
-/

namespace Verdict

open Text

namespace Operand

/-! ## Spellings -/

/-- A value as an operand writes it. -/
inductive Literal where
  | bare (word : List Char)
  | quoted (text : List Char)

namespace Literal

/-- The value with its quotes. -/
def written : Literal → List Char
  | .bare word => word
  | .quoted text => '\'' :: text ++ ['\'']

/-- The value without its quotes. -/
def content : Literal → List Char
  | .bare word => word
  | .quoted text => text

/-- A bare word is not empty, and a quoted text holds no apostrophe. -/
def WellFormed : Literal → Prop
  | .bare word => word ≠ [] ∧ ∀ c ∈ word, isWordChar c = true
  | .quoted text => '\'' ∉ text

end Literal

/-- A character that starts a name, and word characters. -/
def IsName (cs : List Char) : Prop :=
  ∃ c rest, cs = c :: rest ∧ isNameStart c = true ∧ ∀ d ∈ rest, isWordChar d = true

/-- The parts of an operand. -/
structure Spelling where
  name : List Char
  spaceBefore : List Char
  comparator : Comparator
  spaceAfter : List Char
  literal : Literal
  isName : IsName name
  blankBefore : Blanks spaceBefore
  blankAfter : Blanks spaceAfter
  wellFormed : literal.WellFormed

/-- The text of an operand. -/
def Spelling.text (s : Spelling) : List Char :=
  s.name ++ (s.spaceBefore ++ (s.comparator.sign ++ (s.spaceAfter ++ s.literal.written)))

/-! ## The ends of the parts -/

theorem isWordChar_of_mem_name {cs : List Char} (h : IsName cs) {d : Char} (hd : d ∈ cs) :
    isWordChar d = true := by
  obtain ⟨c, rest, rfl, hc, hrest⟩ := h
  rcases List.mem_cons.mp hd with rfl | hd
  · exact isWordChar_of_isNameStart hc
  · exact hrest d hd

theorem Literal.head?_written {l : Literal} (h : l.WellFormed) :
    ∃ c, l.written.head? = some c ∧ (isWordChar c = true ∨ c = '\'') := by
  cases l with
  | quoted text => exact ⟨'\'', rfl, .inr rfl⟩
  | bare word =>
    obtain ⟨hne, hw⟩ := h
    cases word with
    | nil => exact absurd rfl hne
    | cons c word => exact ⟨c, rfl, .inl (hw c List.mem_cons_self)⟩

theorem Literal.getLast?_written {l : Literal} (h : l.WellFormed) :
    ∃ c, l.written.getLast? = some c ∧ (isWordChar c = true ∨ c = '\'') := by
  cases l with
  | quoted text => exact ⟨'\'', List.getLast?_concat, .inr rfl⟩
  | bare word =>
    obtain ⟨hne, hw⟩ := h
    exact ⟨word.getLast hne, List.getLast?_eq_some_getLast hne, .inl (hw _ (List.getLast_mem hne))⟩

theorem Literal.head?_not_blank {l : Literal} (h : l.WellFormed) :
    l.written.head?.any isBlank = false := by
  obtain ⟨c, hc, hw | rfl⟩ := head?_written h
  · simpa [hc] using isBlank_eq_false_of_isWordChar hw
  · rw [hc]
    decide

theorem Literal.getLast?_not_blank {l : Literal} (h : l.WellFormed) :
    l.written.getLast?.any isBlank = false := by
  obtain ⟨c, hc, hw | rfl⟩ := getLast?_written h
  · simpa [hc] using isBlank_eq_false_of_isWordChar hw
  · rw [hc]
    decide

theorem head?_afterSign {space : List Char} {l : Literal} (hs : Blanks space) (h : l.WellFormed) :
    (space ++ l.written).head?.any Comparator.isSignChar = false := by
  cases space with
  | cons c space => simpa using isSignChar_eq_false_of_isBlank (hs c List.mem_cons_self)
  | nil =>
    obtain ⟨c, hc, hw | rfl⟩ := Literal.head?_written h
    · simpa [hc] using isSignChar_eq_false_of_isWordChar hw
    · rw [List.nil_append, hc]
      decide

theorem isSignChar_of_mem_sign {c : Comparator} {d : Char} (h : d ∈ c.sign) :
    Comparator.isSignChar d = true := by
  have hall : c.sign.all Comparator.isSignChar = true := by cases c <;> decide
  exact List.all_eq_true.mp hall d h

theorem sign_ne_nil (c : Comparator) : c.sign ≠ [] := by
  cases c <;> decide

theorem head?_sign_append (c : Comparator) (rest : List Char) :
    ∃ d, (c.sign ++ rest).head? = some d ∧ Comparator.isSignChar d = true := by
  cases h : c.sign with
  | nil => exact absurd h (sign_ne_nil c)
  | cons d sign => exact ⟨d, rfl, isSignChar_of_mem_sign (c := c) (h ▸ List.mem_cons_self)⟩

theorem head?_sign_not_blank (c : Comparator) (rest : List Char) :
    (c.sign ++ rest).head?.any isBlank = false := by
  obtain ⟨d, hd, hs⟩ := head?_sign_append c rest
  simpa [hd] using (classes_of_isSignChar hs).1

theorem head?_afterName {space : List Char} (hs : Blanks space) (c : Comparator)
    (rest : List Char) : (space ++ (c.sign ++ rest)).head?.any isWordChar = false := by
  cases space with
  | cons d space => simpa using isWordChar_eq_false_of_isBlank (hs d List.mem_cons_self)
  | nil =>
    obtain ⟨d, hd, hsign⟩ := head?_sign_append c rest
    simpa [hd] using (classes_of_isSignChar hsign).2.1

/-! ## The recogniser -/

theorem acceptsValue_written {l : Literal} (h : l.WellFormed) : acceptsValue l.written = true := by
  cases l with
  | quoted text =>
    have hdrop : (text ++ ['\'']).dropWhile (· != '\'') = ['\''] :=
      dropWhile_run (fun c hc => bne_iff_ne.mpr (ne_of_mem_of_not_mem hc h)) rfl
    rw [Literal.written, List.cons_append, acceptsValue, if_pos rfl, hdrop]
    exact beq_self_eq_true _
  | bare word =>
    obtain ⟨hne, hw⟩ := h
    cases word with
    | nil => exact absurd rfl hne
    | cons c word =>
      rw [Literal.written, acceptsValue,
        if_neg (ne_apostrophe_of_isWordChar (hw c List.mem_cons_self))]
      exact List.all_eq_true.mpr hw

theorem exists_written_of_acceptsValue {text : List Char} (h : acceptsValue text = true) :
    ∃ l : Literal, l.WellFormed ∧ l.written = text := by
  cases text with
  | nil => cases h
  | cons c rest =>
    rw [acceptsValue] at h
    split at h
    · next hc =>
      refine ⟨.quoted (rest.takeWhile (· != '\'')), ?_, ?_⟩
      · intro hmem
        exact absurd (List.mem_takeWhile_imp hmem) (by decide)
      · rw [Literal.written, List.cons_append, ← eq_of_beq h, List.takeWhile_append_dropWhile, hc]
    · exact ⟨.bare (c :: rest), ⟨List.cons_ne_nil c rest, List.all_eq_true.mp h⟩, rfl⟩

theorem read?_sign_append (c : Comparator) {rest : List Char}
    (h : rest.head?.any Comparator.isSignChar = false) :
    Comparator.read? (c.sign ++ rest) = some (c, rest) := by
  cases rest with
  | nil => cases c <;> rfl
  | cons d rest =>
    have hd : d ≠ '=' := by
      rintro rfl
      have hsign : Comparator.isSignChar '=' = false := h
      revert hsign
      decide
    cases c <;> simp [Comparator.sign, Comparator.read?, hd]

theorem acceptsComparison_iff {text : List Char} :
    acceptsComparison text = true ↔ ∃ (c : Comparator) (space : List Char) (l : Literal),
      Blanks space ∧ l.WellFormed ∧ text = c.sign ++ (space ++ l.written) := by
  constructor
  · intro h
    rw [acceptsComparison] at h
    split at h
    · next c rest hread =>
      obtain ⟨l, hl, hrest⟩ := exists_written_of_acceptsValue h
      refine ⟨c, rest.takeWhile isBlank, l, fun d hd => List.mem_takeWhile_imp hd, hl, ?_⟩
      rw [hrest, List.takeWhile_append_dropWhile]
      exact Comparator.eq_sign_append_of_read? hread
    · cases h
  · rintro ⟨c, space, l, hs, hl, rfl⟩
    rw [acceptsComparison, read?_sign_append c (head?_afterSign hs hl)]
    exact (congrArg acceptsValue (dropWhile_run hs (Literal.head?_not_blank hl))).trans
      (acceptsValue_written hl)

/-- The recogniser accepts exactly the texts of spellings. -/
theorem accepts_iff {text : List Char} : accepts text = true ↔ ∃ s : Spelling, s.text = text := by
  constructor
  · intro h
    cases text with
    | nil => cases h
    | cons c rest =>
      rw [accepts, Bool.and_eq_true] at h
      obtain ⟨hstart, hcmp⟩ := h
      obtain ⟨cmp, space, l, hs, hl, htext⟩ := acceptsComparison_iff.mp hcmp
      refine ⟨⟨c :: rest.takeWhile isWordChar, (rest.dropWhile isWordChar).takeWhile isBlank, cmp,
        space, l, ⟨c, _, rfl, hstart, fun d hd => List.mem_takeWhile_imp hd⟩,
        fun d hd => List.mem_takeWhile_imp hd, hs, hl⟩, ?_⟩
      rw [Spelling.text, ← htext, List.takeWhile_append_dropWhile, List.cons_append,
        List.takeWhile_append_dropWhile]
  · rintro ⟨s, rfl⟩
    obtain ⟨c, rest, hname, hstart, hrest⟩ := s.isName
    rw [Spelling.text, hname, List.cons_append, accepts, hstart, Bool.true_and,
      dropWhile_run hrest (head?_afterName s.blankBefore _ _),
      dropWhile_run s.blankBefore (head?_sign_not_blank _ _)]
    exact acceptsComparison_iff.mpr ⟨_, _, _, s.blankAfter, s.wellFormed, rfl⟩

theorem isOperand_text (s : Spelling) : isOperand (String.ofList s.text) = true := by
  rw [isOperand, String.toList_ofList]
  exact accepts_iff.mpr ⟨s, rfl⟩

theorem exists_spelling {clause : String} (h : isOperand clause = true) :
    ∃ s : Spelling, clause = String.ofList s.text := by
  obtain ⟨s, hs⟩ := accepts_iff.mp h
  exact ⟨s, by rw [hs, String.ofList_toList]⟩

/-! ## The ends of an operand -/

theorem Spelling.head?_text (s : Spelling) :
    ∃ c, s.text.head? = some c ∧ isNameStart c = true := by
  obtain ⟨c, rest, hname, hstart, -⟩ := s.isName
  exact ⟨c, by rw [Spelling.text, hname]; rfl, hstart⟩

theorem Spelling.head?_not_blank (s : Spelling) : s.text.head?.any isBlank = false := by
  obtain ⟨c, hc, hstart⟩ := s.head?_text
  simpa [hc] using isBlank_eq_false_of_isWordChar (isWordChar_of_isNameStart hstart)

theorem Spelling.getLast?_not_blank (s : Spelling) : s.text.getLast?.any isBlank = false := by
  obtain ⟨c, hc, -⟩ := Literal.getLast?_written s.wellFormed
  have hlast : s.text.getLast? = s.literal.written.getLast? := by
    simp only [Spelling.text, List.getLast?_append, hc, Option.some_or]
  rw [hlast]
  exact Literal.getLast?_not_blank s.wellFormed

theorem Spelling.trim_text (s : Spelling) : trim s.text = s.text :=
  trim_eq_self s.head?_not_blank s.getLast?_not_blank

theorem isOperand_eq_false_of_blank {c : Char} (hc : isBlank c = true) (text : String) :
    isOperand (text.push c) = false ∧ isOperand (String.singleton c ++ text) = false := by
  refine ⟨Bool.eq_false_iff.mpr fun h => ?_, Bool.eq_false_iff.mpr fun h => ?_⟩
  · obtain ⟨s, hs⟩ := accepts_iff.mp h
    have hlast := s.getLast?_not_blank
    rw [hs, String.toList_push, List.getLast?_concat, Option.any_some, hc] at hlast
    cases hlast
  · obtain ⟨s, hs⟩ := accepts_iff.mp h
    have hhead := s.head?_not_blank
    rw [hs, String.toList_append, String.toList_singleton, List.singleton_append, List.head?_cons,
      Option.any_some, hc] at hhead
    cases hhead

/-! ## One spelling of a text -/

theorem sign_injective {c d : Comparator} (h : c.sign = d.sign) : c = d := by
  have hread := congrArg Comparator.ofSign? h
  rw [Comparator.ofSign?_sign, Comparator.ofSign?_sign] at hread
  exact Option.some.inj hread

theorem Literal.written_bare_ne_quoted {word text : List Char}
    (h : (Literal.bare word).WellFormed) : (Literal.bare word).written ≠
      (Literal.quoted text).written := by
  intro heq
  have hmem : '\'' ∈ (Literal.bare word).written := by
    rw [heq]
    exact List.mem_cons_self
  exact ne_apostrophe_of_isWordChar (h.2 _ hmem) rfl

theorem Literal.written_inj {l m : Literal} (hl : l.WellFormed) (hm : m.WellFormed)
    (h : l.written = m.written) : l = m := by
  cases l with
  | bare word =>
    cases m with
    | bare other => exact congrArg Literal.bare h
    | quoted text => exact absurd h (written_bare_ne_quoted hl)
  | quoted text =>
    cases m with
    | bare word => exact absurd h.symm (written_bare_ne_quoted hm)
    | quoted other => exact congrArg Literal.quoted (List.append_cancel_right (List.cons.inj h).2)

/-- The parts of an operand are found from left to right: each is a run that nothing behind it
continues. -/
theorem Spelling.text_injective {s t : Spelling} (h : s.text = t.text) : s = t := by
  obtain ⟨hname, hrest⟩ := run_append_inj (fun _ => isWordChar_of_mem_name s.isName)
    (head?_afterName s.blankBefore _ _) (fun _ => isWordChar_of_mem_name t.isName)
    (head?_afterName t.blankBefore _ _) h
  obtain ⟨hbefore, hrest⟩ := run_append_inj s.blankBefore (head?_sign_not_blank _ _)
    t.blankBefore (head?_sign_not_blank _ _) hrest
  obtain ⟨hsign, hrest⟩ := run_append_inj (fun _ => isSignChar_of_mem_sign)
    (head?_afterSign s.blankAfter s.wellFormed) (fun _ => isSignChar_of_mem_sign)
    (head?_afterSign t.blankAfter t.wellFormed) hrest
  obtain ⟨hafter, hwritten⟩ := run_append_inj s.blankAfter
    (Literal.head?_not_blank s.wellFormed) t.blankAfter (Literal.head?_not_blank t.wellFormed) hrest
  have hcomparator := sign_injective hsign
  have hliteral := Literal.written_inj s.wellFormed t.wellFormed hwritten
  cases s
  cases t
  subst hname hbefore hcomparator hafter hliteral
  rfl

theorem Spelling.length_sign_le (s : Spelling) {c : Comparator} {rest : List Char}
    (h : s.text = s.name ++ s.spaceBefore ++ (c.sign ++ rest)) :
    c.sign.length ≤ s.comparator.sign.length := by
  have htext : s.comparator.sign ++ (s.spaceAfter ++ s.literal.written) = c.sign ++ rest := by
    rw [Spelling.text, ← List.append_assoc] at h
    exact List.append_cancel_left h
  have hrun := takeWhile_run (fun _ => isSignChar_of_mem_sign (c := s.comparator))
    (head?_afterSign s.blankAfter s.wellFormed)
  rw [htext, List.takeWhile_append_of_pos fun _ => isSignChar_of_mem_sign] at hrun
  rw [← hrun, List.length_append]
  exact Nat.le_add_right _ _

/-- A text is an operand exactly if it is spelled as one: a name, a comparator and a value, with any
white space around the comparator. It has one spelling only, with the longest sign that stands
behind the name, and neither of its ends is white space, not even a line feed. -/
theorem isOperand_iff_spelled (text : String) :
    (isOperand text = true ↔ ∃ s : Spelling, s.text = text.toList) ∧
      (∀ s : Spelling, s.text = text.toList →
        (∀ t : Spelling, t.text = text.toList → t = s) ∧
          ∀ (c : Comparator) (rest : List Char),
            text.toList = s.name ++ s.spaceBefore ++ (c.sign ++ rest) →
              c.sign.length ≤ s.comparator.sign.length) ∧
      ∀ c, isBlank c = true →
        isOperand (text.push c) = false ∧ isOperand (String.singleton c ++ text) = false := by
  refine ⟨accepts_iff, fun s hs => ⟨fun t ht => ?_, fun c rest h => ?_⟩,
    fun c hc => isOperand_eq_false_of_blank hc text⟩
  · exact Spelling.text_injective (ht.trans hs.symm)
  · exact s.length_sign_le (hs.trans h)

/-- An operand with white space of two kinds and a literal over two lines that starts with a
sign. -/
def spellingOverLines : Spelling where
  name := ['_', 'a', '.', '1']
  spaceBefore := ['\u3000']
  comparator := .greaterEqual
  spaceAfter := ['\x0b']
  literal := .quoted ['=', '\n', 'A', 'N', 'D', ' ']
  isName := ⟨'_', ['a', '.', '1'], rfl, by decide, List.all_eq_true.mp (by decide)⟩
  blankBefore := List.all_eq_true.mp (by decide)
  blankAfter := List.all_eq_true.mp (by decide)
  wellFormed := by
    show '\'' ∉ ['=', '\n', 'A', 'N', 'D', ' ']
    decide

/-- It is an operand in one way, and with a line feed behind it no more. -/
theorem isOperand_iff_spelled_overLines :
    isOperand "_a.1\u3000>=\x0b'=\nAND '" = true ∧
      (∀ t : Spelling, t.text = "_a.1\u3000>=\x0b'=\nAND '".toList → t = spellingOverLines) ∧
      isOperand "_a.1\u3000>=\x0b'=\nAND '\n" = false := by
  have htext : spellingOverLines.text = "_a.1\u3000>=\x0b'=\nAND '".toList := by decide +kernel
  obtain ⟨hiff, honce, hblank⟩ := isOperand_iff_spelled "_a.1\u3000>=\x0b'=\nAND '"
  exact ⟨hiff.mpr ⟨spellingOverLines, htext⟩, (honce spellingOverLines htext).1,
    (hblank '\n' (by decide)).1⟩

end Operand

end Verdict
