import Mathlib.Data.List.Chain
import Mathlib.Data.List.Induction
import Verdict.Rule

/-!
# The shape of a parsed rule

No two operands stand next to each other among the tokens of a rule (`separated_ofRule`). On such
tokens the fold never drops an operand: the token in front of an operand is a connective, which is
then the latest that waits, whatever else waits below it (`Growth.reads_of_separated`). So the tree
is left-deep, holds every operand once and in order, and joins each with the connective directly in
front of it (`parse?_shape`).
-/

namespace Verdict

namespace Token

/-- The clause of an operand. -/
def clause? : Token → Option String
  | .operand clause => some clause
  | .connective _ => none

/-- The clauses of the operands among tokens, in order. -/
def operands (tokens : List Token) : List String :=
  tokens.filterMap clause?

@[simp] theorem operands_append (front back : List Token) :
    operands (front ++ back) = operands front ++ operands back :=
  List.filterMap_append

@[simp] theorem operands_operand (clause : String) : operands [.operand clause] = [clause] := rfl

@[simp] theorem operands_connective (c : Connective) : operands [.connective c] = [] := rfl

/-! ## Operands are kept apart -/

/-- Of two tokens next to each other one is a connective. -/
def Separated (tokens : List Token) : Prop :=
  tokens.IsChain fun first second => first.clause? = none ∨ second.clause? = none

theorem Separated.of_append {front back : List Token} (h : Separated (front ++ back)) :
    Separated front :=
  List.IsChain.left_of_append h

theorem Separated.connective_cons {tokens : List Token} (h : Separated tokens) (c : Connective) :
    Separated (.connective c :: tokens) :=
  List.isChain_cons.mpr ⟨fun _ _ => .inl rfl, h⟩

theorem Separated.append_connective {front back : List Token} {c : Connective}
    (hf : Separated front) (hb : Separated (.connective c :: back)) :
    Separated (front ++ .connective c :: back) := by
  refine List.IsChain.append hf hb ?_
  intro first _ second hsecond
  rw [← Option.mem_some_iff.mp hsecond]
  exact .inr rfl

theorem separated_ofSegment (segment : List Char) : Separated (ofSegment segment) := by
  simp only [ofSegment]
  split
  · exact List.isChain_singleton _
  · exact List.isChain_nil

theorem Separated.exists_connective {before : List Token} {clause : String}
    (h : Separated (before ++ [.operand clause])) (hne : before ≠ []) :
    ∃ c, before.getLast? = some (.connective c) := by
  have hlast := List.getLast?_eq_some_getLast hne
  cases hl : before.getLast hne with
  | connective c => exact ⟨c, hl ▸ hlast⟩
  | operand other =>
    have hlink := (List.isChain_append.mp h).2.2 (.operand other) (hl ▸ hlast) (.operand clause) rfl
    rcases hlink with hnone | hnone <;> cases hnone

theorem separated_scan (pass : Nat) (quoted : Bool) (segment text : List Char) :
    Separated (scan pass quoted segment text) := by
  fun_induction scan pass quoted segment text with
  | case1 => exact separated_ofSegment _
  | case2 => assumption
  | case3 => assumption
  | case4 _ segment _ _ _ found _ ih =>
    exact (separated_ofSegment segment).append_connective (ih.connective_cons found)
  | case5 => assumption

/-- No two operands of a rule stand next to each other. -/
theorem separated_ofRule (rule : String) : Separated (ofRule rule) :=
  separated_scan 0 false [] rule.toList

/-- The two ways in which a token can stand in a text that is one token longer. -/
theorem eq_or_exists_of_concat_eq {front before after : List Token} {x y : Token}
    (h : front ++ [x] = before ++ y :: after) :
    (front = before ∧ x = y ∧ after = []) ∨
      ∃ rest, front = before ++ y :: rest ∧ after = rest ++ [x] := by
  rcases List.eq_nil_or_concat after with rfl | ⟨rest, z, rfl⟩
  · obtain ⟨hfront, hlast⟩ := List.append_inj' h rfl
    exact .inl ⟨hfront, List.singleton_inj.mp hlast, rfl⟩
  · rw [List.concat_eq_append, ← List.cons_append, ← List.append_assoc] at h
    obtain ⟨hfront, hlast⟩ := List.append_inj' h rfl
    rw [List.singleton_inj.mp hlast, List.concat_eq_append]
    exact .inr ⟨rest, hfront, rfl⟩

end Token

namespace Tree

/-! ## The left fold of tokens -/

/-- Every right side is a single clause. -/
def LeftDeep : Tree → Prop
  | .leaf _ => True
  | .join _ left right => left.LeftDeep ∧ ∃ clause, right = .leaf clause

/-- The joins down the left side, lowest first: the connective of each and its right side. -/
def joins : Tree → List (Connective × Tree)
  | .leaf _ => []
  | .join connective left right => left.joins ++ [(connective, right)]

theorem LeftDeep.length_joins {tree : Tree} (h : tree.LeftDeep) :
    tree.joins.length = tree.depth := by
  induction tree with
  | leaf clause => rfl
  | join c left right ih _ =>
    obtain ⟨hleft, clause, rfl⟩ := h
    rw [joins, List.length_append, ih hleft, List.length_singleton, depth, depth,
      Nat.max_zero, Nat.add_comm]

/-- The tree holds the operands of tokens from left to right, each behind the first joined with the
connective directly in front of it. -/
structure Folds (tokens : List Token) (tree : Tree) : Prop where
  leftDeep : tree.LeftDeep
  clauses_eq : tree.clauses = Token.operands tokens
  depth_eq : tree.depth = (Token.operands tokens).length - 1
  joins_eq : ∀ before clause after, tokens = before ++ .operand clause :: after →
    Token.operands before ≠ [] → ∃ c, before.getLast? = some (.connective c) ∧
      tree.joins[(Token.operands before).length - 1]? = some (c, .leaf clause)

theorem folds_leaf {tokens : List Token} (h : Token.operands tokens = []) (clause : String) :
    (leaf clause).Folds (tokens ++ [.operand clause]) where
  leftDeep := trivial
  clauses_eq := by simp [h]
  depth_eq := by simp [h, depth]
  joins_eq := by
    intro before other after htokens hbefore
    exfalso
    rcases Token.eq_or_exists_of_concat_eq htokens with ⟨rfl, -, -⟩ | ⟨rest, rfl, -⟩
    · exact hbefore h
    · exact hbefore (List.append_eq_nil_iff.mp (by simpa using h)).1

theorem Folds.connective {tokens : List Token} {tree : Tree} (h : tree.Folds tokens)
    (c : Connective) : tree.Folds (tokens ++ [.connective c]) where
  leftDeep := h.leftDeep
  clauses_eq := by simpa using h.clauses_eq
  depth_eq := by simpa using h.depth_eq
  joins_eq := by
    intro before clause after htokens
    rcases Token.eq_or_exists_of_concat_eq htokens with ⟨-, hlast, -⟩ | ⟨rest, htokens, -⟩
    · cases hlast
    · exact h.joins_eq before clause rest htokens

/-- An operand that comes last is joined with the connective in front of it. -/
theorem Folds.join {tokens : List Token} {tree : Tree} {c : Connective} (h : tree.Folds tokens)
    (hlast : tokens.getLast? = some (.connective c)) (clause : String) :
    (Tree.join c tree (.leaf clause)).Folds (tokens ++ [.operand clause]) := by
  have hpos : 0 < (Token.operands tokens).length := by
    rw [← h.clauses_eq]
    exact List.length_pos_iff.mpr tree.clauses_ne_nil
  have hlength : tree.joins.length = (Token.operands tokens).length - 1 :=
    h.leftDeep.length_joins.trans h.depth_eq
  refine ⟨⟨h.leftDeep, clause, rfl⟩, by simp [h.clauses_eq], ?_, ?_⟩
  · rw [depth, depth, Nat.max_zero, h.depth_eq, Token.operands_append, List.length_append,
      Token.operands_operand, List.length_singleton]
    omega
  · intro before other after htokens hbefore
    rw [joins]
    rcases Token.eq_or_exists_of_concat_eq htokens with ⟨rfl, hsame, -⟩ | ⟨rest, htokens, -⟩
    · cases hsame
      exact ⟨c, hlast, by rw [← hlength, List.getElem?_concat_length]⟩
    · obtain ⟨d, hd, hjoin⟩ := h.joins_eq before other rest htokens hbefore
      obtain ⟨hlt, -⟩ := List.getElem?_eq_some_iff.mp hjoin
      exact ⟨d, hd, by rw [List.getElem?_append_left hlt, hjoin]⟩

end Tree

namespace Growth

/-- A rule as far as `tokens` have been read: the tree is their left fold, and a connective that was
read last is the latest that waits. -/
structure Reads (g : Growth) (tokens : List Token) : Prop where
  none_iff : g.tree = none ↔ Token.operands tokens = []
  folds : ∀ tree, g.tree = some tree → tree.Folds tokens
  latest : ∀ c, tokens.getLast? = some (.connective c) → g.waiting.head? = some c

theorem reads_empty : empty.Reads [] where
  none_iff := ⟨fun _ => rfl, fun _ => rfl⟩
  folds := by
    intro tree h
    cases h
  latest := by
    intro c h
    cases h

theorem Reads.connective {g : Growth} {tokens : List Token} (h : g.Reads tokens)
    (c : Connective) : (g.push (.connective c)).Reads (tokens ++ [.connective c]) where
  none_iff := by simpa [push] using h.none_iff
  folds := fun tree htree => (h.folds tree htree).connective c
  latest := by
    intro d hd
    rw [List.getLast?_concat] at hd
    cases hd
    rfl

/-- Behind tokens that were read, an operand finds a connective unless it is the first one. -/
theorem Reads.exists_waiting {g : Growth} {tokens : List Token} {clause : String}
    (h : g.Reads tokens) (hsep : Token.Separated (tokens ++ [.operand clause]))
    (htree : g.tree ≠ none) :
    ∃ c below, tokens.getLast? = some (.connective c) ∧ g.waiting = c :: below := by
  have hne : tokens ≠ [] := by
    rintro rfl
    exact htree (h.none_iff.mpr rfl)
  obtain ⟨c, hc⟩ := hsep.exists_connective hne
  obtain ⟨below, hbelow⟩ := List.head?_eq_some_iff.mp (h.latest c hc)
  exact ⟨c, below, hc, hbelow⟩

theorem Reads.operand {g : Growth} {tokens : List Token} {clause : String} (h : g.Reads tokens)
    (hsep : Token.Separated (tokens ++ [.operand clause])) :
    (g.push (.operand clause)).Reads (tokens ++ [.operand clause]) := by
  have hpushed : ∃ tree, (g.push (.operand clause)).tree = some tree ∧
      tree.Folds (tokens ++ [.operand clause]) := by
    cases htree : g.tree with
    | none =>
      refine ⟨.leaf clause, by simp [push, htree], ?_⟩
      exact Tree.folds_leaf (h.none_iff.mp htree) clause
    | some tree =>
      obtain ⟨c, below, hlast, hwaiting⟩ := h.exists_waiting hsep (by simp [htree])
      refine ⟨.join c tree (.leaf clause), by simp [push, htree, hwaiting], ?_⟩
      exact (h.folds tree htree).join hlast clause
  obtain ⟨tree, hsome, hfolds⟩ := hpushed
  refine ⟨by simp [hsome], ?_, ?_⟩
  · intro other hother
    cases hsome.symm.trans hother
    exact hfolds
  · intro c hc
    rw [List.getLast?_concat] at hc
    cases hc

/-- The fold reads separated tokens. -/
theorem reads_of_separated {tokens : List Token} (h : Token.Separated tokens) :
    (tokens.foldl push .empty).Reads tokens := by
  induction tokens using List.reverseRecOn with
  | nil => exact reads_empty
  | append_singleton tokens token ih =>
    rw [List.foldl_append]
    cases token with
    | connective c => exact (ih h.of_append).connective c
    | operand clause => exact (ih h.of_append).operand h

end Growth

namespace Tree

/-- A rule has a tree exactly if it has an operand. Its tree is the left fold of its tokens, and no
operand is dropped on the way: one that is not the first finds a connective waiting. -/
theorem parse?_shape (rule : String) :
    (parse? rule = none ↔ Token.operands (Token.ofRule rule) = []) ∧
      (∀ tree, parse? rule = some tree → tree.Folds (Token.ofRule rule)) ∧
      ∀ before clause after, Token.ofRule rule = before ++ .operand clause :: after →
        (before.foldl Growth.push .empty).tree ≠ none →
        (before.foldl Growth.push .empty).waiting ≠ [] := by
  have hreads := Growth.reads_of_separated (Token.separated_ofRule rule)
  refine ⟨hreads.none_iff, hreads.folds, ?_⟩
  intro before clause after htokens htree
  have hsep : Token.Separated (before ++ [.operand clause]) := by
    have hall := Token.separated_ofRule rule
    rw [htokens, List.append_cons] at hall
    exact hall.of_append
  obtain ⟨c, below, -, hwaiting⟩ :=
    (Growth.reads_of_separated hsep.of_append).exists_waiting hsep htree
  rw [hwaiting]
  exact List.cons_ne_nil c below

/-- Stranded connectives before, between and behind the clauses. -/
theorem parse?_shape_stranded :
    parse? "AND a=1 AND x OR b=2 OR" = some (.join .or (.leaf "a=1") (.leaf "b=2")) ∧
      Tree.Folds (Token.ofRule "AND a=1 AND x OR b=2 OR")
        (.join .or (.leaf "a=1") (.leaf "b=2")) ∧
      (([.connective .and, .operand "a=1", .connective .and, .connective .or] :
        List Token).foldl Growth.push .empty).waiting ≠ [] := by
  have hparse : parse? "AND a=1 AND x OR b=2 OR" =
      some (.join .or (.leaf "a=1") (.leaf "b=2")) := by decide
  obtain ⟨-, hfolds, hready⟩ := parse?_shape "AND a=1 AND x OR b=2 OR"
  refine ⟨hparse, hfolds _ hparse, ?_⟩
  exact hready _ "b=2" [.connective .or] (by decide) (by decide)

end Tree

end Verdict
