import Verdict.Proofs.LookBehind
import Verdict.Proofs.Utf8

/-!
# The scan of the bytes of a rule

The scan can be run over the UTF-8 bytes of a rule with a position, the position where the segment
starts and a flag for being inside a literal, and slices of the bytes taken between positions. Here
each slice is checked: one with a bound that is out of range gives no result, and so does a text
whose bound is inside a character.

The checks never fail (`run?_eq`). The scan passes over the bytes inside a character
(`loop?_skip`), finds at the start of one what the scan of characters finds there (`find?_utf8`),
and so crosses a segment in the same modes (`loop?_crossing`). Segments start and end between
characters because the words of the connectives are ASCII (`loop?_connective`).
-/

namespace Verdict

open Text

/-! ## The scan -/

namespace ByteScan

open Utf8

/-- The byte is an apostrophe. -/
def isApostrophe (b : UInt8) : Bool :=
  isCode (· == '\'') b

/-- Whether the apostrophe at `i` opens a literal. -/
def opensLiteral? (bytes : List UInt8) (i : Nat) : Option Bool := do
  let before ← slice? bytes 0 i
  let behindSign := (before.reverse.find? fun b => !isCode isAsciiBlank b).any
    (isCode fun c => c == '=' || c == '<' || c == '>')
  if behindSign then
    let after ← slice? bytes (i + 1) bytes.length
    return after.any isApostrophe
  else return false

/-- Whether the byte before `i` is one of a word. -/
def wordBefore? (bytes : List UInt8) (i : Nat) : Option Bool :=
  if 0 < i then bytes[i - 1]?.map (isCode isWordChar) else some false

/-- The connective whose word stands on its own at `i`. -/
def connectiveAt? (bytes : List UInt8) (i : Nat) : Option (Option Connective) := do
  if ← wordBefore? bytes i then return none
  else
    let rest ← slice? bytes i bytes.length
    return [Connective.and, .or].find? fun c => (utf8 c.letters).isPrefixOf rest &&
      !bytes[i + (utf8 c.letters).length]?.any (isCode isWordChar)

/-- What the scan finds at a byte. -/
inductive Finding where
  | nothing
  | opening
  | closing
  | connective (c : Connective)

/-- What the scan finds at `i`, inside a literal or outside. -/
def find? (bytes : List UInt8) (quoted : Bool) (i : Nat) : Option Finding := do
  let b ← bytes[i]?
  if quoted then return if isApostrophe b then .closing else .nothing
  else if ← if isApostrophe b then opensLiteral? bytes i else some false then return .opening
  else
    match ← connectiveAt? bytes i with
    | some c => return .connective c
    | none => return .nothing

/-- The tokens of a segment. -/
def ofText (segment : String) : List Token :=
  let clause := String.ofList (trim segment.toList)
  if clause.isEmpty then [] else if isOperand clause then [.operand clause] else []

/-- How far the scan has come: the tokens so far, the start of the segment, and whether the scan is
inside a literal. -/
structure State where
  tokens : List Token
  start : Nat
  quoted : Bool

/-- The scan from the byte at `i` to the end. -/
def loop? (bytes : List UInt8) (state : State) (i : Nat) : Option State :=
  if i < bytes.length then
    match find? bytes state.quoted i with
    | none => none
    | some .nothing => loop? bytes state (i + 1)
    | some .opening => loop? bytes ⟨state.tokens, state.start, true⟩ (i + 1)
    | some .closing => loop? bytes ⟨state.tokens, state.start, false⟩ (i + 1)
    | some (.connective c) =>
      match textBetween? bytes state.start i with
      | none => none
      | some segment =>
        have hpos : 0 < (utf8 c.letters).length := by cases c <;> decide
        loop? bytes
          ⟨state.tokens ++ ofText segment ++ [.connective c], i + (utf8 c.letters).length,
            state.quoted⟩
          (i + (utf8 c.letters).length)
  else some state
termination_by bytes.length - i

/-- The tokens when the end is reached: the last segment ends there. -/
def finish? (bytes : List UInt8) (state : State) : Option (List Token × Bool) := do
  let segment ← textBetween? bytes state.start bytes.length
  return (state.tokens ++ ofText segment, state.quoted)

/-- The tokens of a rule and whether the scan ends inside a literal; none if a slice is taken with a
bound that is out of range or inside a character. -/
def run? (rule : String) : Option (List Token × Bool) := do
  let bytes := utf8 rule.toList
  finish? bytes (← loop? bytes ⟨[], 0, false⟩ 0)

/-! ## What is found at a character -/

theorem ascii_isWordChar : Ascii isWordChar := by
  intro c hc
  have h := toNat_of_isWordChar hc
  omega

theorem ascii_isAsciiBlank : Ascii isAsciiBlank := by
  intro c hc
  simp only [isAsciiBlank, Bool.or_eq_true, beq_iff_eq] at hc
  rcases hc with (((rfl | rfl) | rfl) | rfl) | rfl <;> decide

theorem ascii_sign : Ascii fun c => c == '=' || c == '<' || c == '>' := by
  intro c hc
  simp only [Bool.or_eq_true, beq_iff_eq] at hc
  rcases hc with (rfl | rfl) | rfl <;> decide

theorem ascii_apostrophe : Ascii (· == '\'') :=
  ascii_beq (by decide)

theorem opensLiteral?_utf8 (front rest : List Char) :
    opensLiteral? (utf8 (front ++ '\'' :: rest)) (utf8 front).length =
      some (Token.opensLiteral front.reverse rest) := by
  have hbefore : slice? (utf8 (front ++ '\'' :: rest)) 0 (utf8 front).length =
      some (utf8 front) := by
    rw [utf8_append]
    exact slice?_front _ _
  have hafter : slice? (utf8 (front ++ '\'' :: rest)) ((utf8 front).length + 1)
      (utf8 (front ++ '\'' :: rest)).length = some (utf8 rest) := by
    have hbytes : utf8 (front ++ '\'' :: rest) = utf8 (front ++ ['\'']) ++ utf8 rest := by
      rw [← utf8_append, List.append_assoc, List.singleton_append]
    have hlength : (utf8 front).length + 1 = (utf8 (front ++ ['\''])).length := by
      rw [utf8_append, List.length_append]
      rfl
    rw [hlength, hbytes]
    exact slice?_back _ _
  have hclosed : (utf8 rest).any isApostrophe = rest.contains '\'' := by
    refine (any_utf8 ascii_apostrophe rest).trans ?_
    rw [List.contains_eq_any_beq]
    exact congrArg rest.any (funext fun c => BEq.comm)
  unfold opensLiteral? Token.opensLiteral
  rw [hbefore, hafter, Option.bind_eq_bind, Option.bind_some,
    find?_reverse_utf8 ascii_isAsciiBlank ascii_sign]
  cases (front.reverse.find? fun c => !isAsciiBlank c).any
    (fun c => c == '=' || c == '<' || c == '>') with
  | false => rfl
  | true =>
    rw [if_pos rfl, Bool.true_and, ← hclosed]
    rfl

theorem wordBefore?_utf8 (front rest : List Char) :
    wordBefore? (utf8 (front ++ rest)) (utf8 front).length =
      some (front.getLast?.any isWordChar) := by
  rw [← getLast?_utf8 ascii_isWordChar, wordBefore?, List.getLast?_eq_getElem?]
  split
  · next hpos =>
    have hlt : (utf8 front).length - 1 < (utf8 front).length := by omega
    rw [utf8_append, List.getElem?_append_left hlt, List.getElem?_eq_getElem hlt]
    rfl
  · next hzero =>
    have hnil : utf8 front = [] := List.length_eq_zero_iff.mp (by omega)
    rw [hnil]
    rfl

theorem letters_lt (c : Connective) : ∀ d ∈ c.letters, d.toNat < 128 := by
  intro d hd
  exact ascii_isWordChar d (Connective.isWordChar_of_mem_letters hd)

/-- A word stands on its own in the bytes as it does in the text. -/
theorem word_utf8 (front text : List Char) (c : Connective) :
    ((utf8 c.letters).isPrefixOf (utf8 text) &&
      !(utf8 (front ++ text))[(utf8 front).length + (utf8 c.letters).length]?.any
        (isCode isWordChar)) =
      (c.letters.isPrefixOf text && !(text.drop c.letters.length).head?.any isWordChar) := by
  rw [isPrefixOf_utf8 (letters_lt c)]
  cases hword : c.letters.isPrefixOf text with
  | false => rfl
  | true =>
    obtain ⟨rest, rfl⟩ := List.isPrefixOf_iff_prefix.mp hword
    have hnext := getElem?_utf8 (front ++ c.letters) rest
    rw [utf8_append front c.letters, List.length_append, List.append_assoc] at hnext
    rw [hnext, head?_utf8 ascii_isWordChar, List.drop_left]

theorem connectiveAt?_utf8 (front text : List Char) :
    connectiveAt? (utf8 (front ++ text)) (utf8 front).length =
      some (Connective.at? front.reverse text) := by
  have hrest : slice? (utf8 (front ++ text)) (utf8 front).length
      (utf8 (front ++ text)).length = some (utf8 text) := by
    rw [utf8_append]
    exact slice?_back _ _
  unfold connectiveAt? Connective.at?
  rw [wordBefore?_utf8, hrest, List.head?_reverse, Option.bind_eq_bind, Option.bind_some]
  split
  · rfl
  · rw [← funext (word_utf8 front text)]
    rfl

/-- Inside a character no connective starts: the words are ASCII. -/
theorem connectiveAt?_of_le {bytes : List UInt8} {i : Nat} {b : UInt8} (hb : bytes[i]? = some b)
    (hhigh : 128 ≤ b.toNat) : connectiveAt? bytes i = some none := by
  obtain ⟨hlt, hget⟩ := List.getElem?_eq_some_iff.mp hb
  have hword : ∃ word, wordBefore? bytes i = some word := by
    unfold wordBefore?
    split
    · exact ⟨_, by rw [List.getElem?_eq_getElem (by omega)]; rfl⟩
    · exact ⟨_, rfl⟩
  have hrest : slice? bytes i bytes.length = some (b :: bytes.drop (i + 1)) := by
    rw [slice?, if_pos ⟨Nat.le_of_lt hlt, Nat.le_refl _⟩, List.take_length,
      List.drop_eq_getElem_cons hlt, hget]
  have hstart (c : Connective) : (utf8 c.letters).isPrefixOf (b :: bytes.drop (i + 1)) = false := by
    obtain ⟨first, others, hutf8, hlow⟩ : ∃ first others, utf8 c.letters = first :: others ∧
        first.toNat < 128 := by
      cases c <;> exact ⟨_, _, rfl, by decide⟩
    have hne : first ≠ b := by
      rintro rfl
      omega
    rw [hutf8, List.isPrefixOf, beq_false_of_ne hne, Bool.false_and]
  obtain ⟨word, hword⟩ := hword
  unfold connectiveAt?
  rw [hword, hrest]
  cases word with
  | true => rfl
  | false => simp [hstart]

theorem find?_of_le {bytes : List UInt8} {i : Nat} {b : UInt8} (hb : bytes[i]? = some b)
    (hhigh : 128 ≤ b.toNat) (quoted : Bool) : find? bytes quoted i = some .nothing := by
  have hno : isApostrophe b = false := isCode_of_le hhigh _
  cases quoted with
  | true => simp [find?, hb, hno]
  | false => simp [find?, hb, hno, connectiveAt?_of_le hb hhigh]

/-- What is found at the start of a character. -/
theorem find?_utf8 (front rest : List Char) (c : Char) (quoted : Bool) :
    find? (utf8 (front ++ c :: rest)) quoted (utf8 front).length =
      some (if quoted then if c = '\'' then .closing else .nothing
        else match Connective.at? front.reverse (c :: rest) with
          | some found => .connective found
          | none =>
            if c == '\'' && Token.opensLiteral front.reverse rest then .opening else .nothing) := by
  obtain ⟨first, others, hencode, -⟩ := exists_encode_cons c
  have hfirst : isApostrophe first = (c == '\'') :=
    isCode_of_mem ascii_apostrophe (hencode ▸ List.mem_cons_self)
  have hget : (utf8 (front ++ c :: rest))[(utf8 front).length]? = some first := by
    rw [getElem?_utf8, utf8_cons, hencode]
    rfl
  unfold find?
  rw [hget, Option.bind_eq_bind, Option.bind_some, hfirst]
  cases quoted with
  | true => simp
  | false =>
    by_cases hc : c = '\''
    · subst hc
      rw [opensLiteral?_utf8, connectiveAt?_utf8, Connective.at?_eq_none_of_head? (by rfl)]
      cases Token.opensLiteral front.reverse rest <;> rfl
    · rw [connectiveAt?_utf8, beq_false_of_ne hc]
      cases Connective.at? front.reverse (c :: rest) <;> rfl

/-! ## Crossing a text -/

/-- The scan passes the other bytes of a character. -/
theorem loop?_skip {others : List UInt8} (h : ∀ b ∈ others, 128 ≤ b.toNat)
    (front back : List UInt8) (state : State) :
    loop? (front ++ others ++ back) state front.length =
      loop? (front ++ others ++ back) state (front ++ others).length := by
  induction others generalizing front with
  | nil => rw [List.append_nil]
  | cons b others ih =>
    have hget : (front ++ b :: others ++ back)[front.length]? = some b := by
      simp
    have hlt : front.length < (front ++ b :: others ++ back).length := by
      simp
    have hrest := ih (fun d hd => h d (List.mem_cons_of_mem b hd)) (front ++ [b])
    rw [loop?, if_pos hlt, find?_of_le hget (h b List.mem_cons_self)]
    simpa using hrest

theorem loop?_next (front rest : List Char) (c : Char) (state : State) :
    loop? (utf8 (front ++ c :: rest)) state ((utf8 front).length + 1) =
      loop? (utf8 (front ++ c :: rest)) state (utf8 (front ++ [c])).length := by
  obtain ⟨first, others, hencode, hothers⟩ := exists_encode_cons c
  have hbytes : utf8 (front ++ c :: rest) = utf8 front ++ [first] ++ others ++ utf8 rest := by
    rw [utf8_append, utf8_cons, hencode]
    simp
  have hnext : utf8 (front ++ [c]) = utf8 front ++ [first] ++ others := by
    rw [utf8_append, utf8_cons, hencode]
    simp
  rw [hbytes, hnext, ← loop?_skip hothers, List.length_append, List.length_singleton]

theorem length_utf8_lt (front rest : List Char) (c : Char) :
    (utf8 front).length < (utf8 (front ++ c :: rest)).length := by
  obtain ⟨first, others, hencode, -⟩ := exists_encode_cons c
  rw [utf8_append, utf8_cons, hencode]
  simp

/-- Over a character at which no connective stands the scan goes as the scan of characters does. -/
theorem loop?_character {front rest : List Char} {c : Char} {quoted : Bool}
    (h : quoted = false → Connective.at? front.reverse (c :: rest) = none)
    (tokens : List Token) (start : Nat) :
    loop? (utf8 (front ++ c :: rest)) ⟨tokens, start, quoted⟩ (utf8 front).length =
      loop? (utf8 (front ++ c :: rest))
        ⟨tokens, start, if quoted then c != '\''
          else c == '\'' && Token.opensLiteral front.reverse rest⟩
        (utf8 (front ++ [c])).length := by
  have hfound := find?_utf8 front rest c quoted
  rw [loop?, if_pos (length_utf8_lt front rest c), ← loop?_next]
  cases quoted with
  | true =>
    by_cases hc : c = '\''
    · have hmode : (c != '\'') = false := by simp [hc]
      rw [if_pos rfl, if_pos hc] at hfound
      simp only [hfound, hmode, if_true]
    · rw [if_pos rfl, if_neg hc] at hfound
      simp only [hfound, bne_iff_ne.mpr hc, if_true]
  | false =>
    rw [if_neg Bool.false_ne_true, h rfl] at hfound
    cases hopen : c == '\'' && Token.opensLiteral front.reverse rest with
    | true =>
      simp only [hopen, if_true] at hfound
      simp only [hfound, Bool.false_eq_true, if_false]
    | false =>
      simp only [hopen, Bool.false_eq_true, if_false] at hfound
      simp only [hfound, Bool.false_eq_true, if_false]

/-- A text that the scan of characters crosses is crossed by its bytes alike. -/
theorem loop?_crossing {front s after : List Char} {quoted mode : Bool}
    (h : Token.modeAfter? after quoted front.reverse s = some mode) (tokens : List Token)
    (start : Nat) :
    loop? (utf8 (front ++ s ++ after)) ⟨tokens, start, quoted⟩ (utf8 front).length =
      loop? (utf8 (front ++ s ++ after)) ⟨tokens, start, mode⟩ (utf8 (front ++ s)).length := by
  induction s generalizing front quoted with
  | nil =>
    cases h
    rw [List.append_nil]
  | cons c s ih =>
    have hplain : quoted = false →
        Connective.at? front.reverse (c :: (s ++ after)) = none := by
      rintro rfl
      exact Token.at?_eq_none_of_crossed h
    have hrest : Token.modeAfter? after (if quoted then c != '\''
        else c == '\'' && Token.opensLiteral front.reverse (s ++ after))
        (front ++ [c]).reverse s = some mode := by
      rw [List.reverse_concat]
      cases quoted with
      | true =>
        rw [Token.modeAfter?_quoted] at h
        exact h
      | false =>
        rw [Token.modeAfter?_plain (hplain rfl)] at h
        exact h
    have hsplit : front ++ c :: s = front ++ [c] ++ s := by simp
    have hcharacter := loop?_character hplain tokens start
    rw [← List.cons_append, ← List.append_assoc, hsplit] at hcharacter
    rw [hsplit, hcharacter]
    exact ih hrest

/-! ## The whole rule -/

theorem ofText_ofList (segment : List Char) :
    ofText (String.ofList segment) = Token.ofSegment segment.reverse := by
  unfold ofText Token.ofSegment
  rw [String.toList_ofList, List.reverse_reverse]
  by_cases hempty : (String.ofList (trim segment)).isEmpty = true
  · have hno : isOperand "" = false := by decide
    rw [if_pos hempty, String.isEmpty_iff.mp hempty]
    exact (if_neg (ne_true_of_eq_false hno)).symm
  · rw [if_neg hempty]

/-- At a connective the segment in front of it is taken, and the next one starts behind it. -/
theorem loop?_connective {front s rest : List Char} {c : Connective}
    (h : Connective.at? (front ++ s).reverse (c.letters ++ rest) = some c) (tokens : List Token) :
    loop? (utf8 (front ++ s ++ (c.letters ++ rest))) ⟨tokens, (utf8 front).length, false⟩
        (utf8 (front ++ s)).length =
      loop? (utf8 (front ++ s ++ (c.letters ++ rest)))
        ⟨tokens ++ Token.ofSegment s.reverse ++ [.connective c],
          (utf8 (front ++ s ++ c.letters)).length, false⟩
        (utf8 (front ++ s ++ c.letters)).length := by
  obtain ⟨a, letters, hletters⟩ := c.exists_cons_letters
  have hfound : find? (utf8 (front ++ s ++ (c.letters ++ rest))) false (utf8 (front ++ s)).length =
      some (.connective c) := by
    rw [hletters, List.cons_append] at h ⊢
    rw [find?_utf8, if_neg Bool.false_ne_true, h]
  have hlt : (utf8 (front ++ s)).length < (utf8 (front ++ s ++ (c.letters ++ rest))).length := by
    rw [hletters, List.cons_append]
    exact length_utf8_lt _ _ _
  have hend : (utf8 (front ++ s)).length + (utf8 c.letters).length =
      (utf8 (front ++ s ++ c.letters)).length := by
    rw [utf8_append (front ++ s), List.length_append]
  rw [loop?, if_pos hlt]
  simp only [hfound, textBetween?_utf8, ofText_ofList, hend]

/-- From the start of a segment the scan takes the segments of what follows, and it ends outside the
literals. -/
theorem loop?_cuts {behind text s : List Char} {more : List (Connective × List Char)}
    (h : Token.CutsBehind behind text s more) (tokens : List Token) :
    (loop? (utf8 (behind.reverse ++ text)) ⟨tokens, (utf8 behind.reverse).length, false⟩
        (utf8 behind.reverse).length).bind (finish? (utf8 (behind.reverse ++ text))) =
      some (tokens ++ Token.ofCuts s more, false) := by
  induction h generalizing tokens with
  | @last behind s hs =>
    have hcross : Token.modeAfter? [] false behind.reverse.reverse s = some false := by
      rwa [List.reverse_reverse]
    have hloop := loop?_crossing hcross tokens (utf8 behind.reverse).length
    have hlast := textBetween?_utf8 behind.reverse s []
    rw [List.append_nil] at hloop hlast
    rw [hloop, loop?, if_neg (Nat.lt_irrefl _), Option.bind_some, finish?, hlast]
    simp [ofText_ofList, Token.ofCuts]
  | @next behind s rest s' c more hs hc hr ih =>
    have hcross : Token.modeAfter? (c.letters ++ rest) false behind.reverse.reverse s =
        some false := by
      rwa [List.reverse_reverse]
    have hat : Connective.at? (behind.reverse ++ s).reverse (c.letters ++ rest) = some c := by
      simpa using hc
    have hfront : (c.letters.reverse ++ (s.reverse ++ behind)).reverse =
        behind.reverse ++ s ++ c.letters := by
      simp
    have htext : behind.reverse ++ (s ++ c.letters ++ rest) =
        behind.reverse ++ s ++ (c.letters ++ rest) := by
      simp
    have hrest := ih (tokens ++ Token.ofSegment s.reverse ++ [.connective c])
    rw [hfront, List.append_assoc (behind.reverse ++ s)] at hrest
    rw [htext, loop?_crossing hcross, loop?_connective hat, hrest]
    simp [Token.ofCuts]

/-- The scan of the bytes takes every slice in range and between characters, ends outside the
literals, and yields the tokens of the rule. -/
theorem run?_eq (rule : String) : run? rule = some (Token.ofRule rule, false) := by
  obtain ⟨s, more, h, htokens⟩ := Token.exists_cutsBehind rule.toList
  have hrun := loop?_cuts h []
  rw [← htokens] at hrun
  exact hrun

end ByteScan

end Verdict
