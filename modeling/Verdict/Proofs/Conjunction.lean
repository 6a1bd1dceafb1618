import Mathlib.Data.List.Induction
import Verdict.Evaluation

/-!
# Combined rules

The tree of several rules holds the tree of each of them unchanged, one after the other under `AND`.
So its clauses are theirs in order, and it answers what they answer one by one: the first refusal,
or else whether all of them hold (`combine?_conjoins`). A rule without a tree is false alone and has
no part in it, wherever it stands.
-/

namespace Verdict

open Json

/-! ## Answers together -/

/-- Why an answer is no verdict, if it is none. -/
def refusalOf? : Except Refusal Bool → Option Refusal
  | .ok _ => none
  | .error refusal => some refusal

/-- What answers say together: the first refusal if there is one, and otherwise whether all of them
are true. -/
def conjunctionOf (answers : List (Except Refusal Bool)) : Except Refusal Bool :=
  match answers.findSome? refusalOf? with
  | some refusal => .error refusal
  | none => .ok (answers.all fun answer => answer matches .ok true)

theorem conjunctionOf_singleton (answer : Except Refusal Bool) :
    conjunctionOf [answer] = answer := by
  rcases answer with refusal | _ | _ <;> rfl

/-- One more answer counts if none before it is a refusal. -/
theorem conjunctionOf_concat (answers : List (Except Refusal Bool))
    (answer : Except Refusal Bool) :
    conjunctionOf (answers ++ [answer]) = do
      let before ← conjunctionOf answers
      let last ← answer
      return before && last := by
  unfold conjunctionOf
  rw [List.findSome?_append, List.findSome?_singleton]
  cases answers.findSome? refusalOf? with
  | some refusal => rfl
  | none =>
    rcases answer with refusal | _ | _
    · rfl
    all_goals simp [refusalOf?, bind, Except.bind, pure, Except.pure]

namespace Tree

/-! ## Trees under `AND` -/

/-- A tree stands in another one, as the whole of it or below a join. -/
inductive StandsIn (tree : Tree) : Tree → Prop
  | whole : StandsIn tree tree
  | left {connective : Connective} {left right : Tree} (h : StandsIn tree left) :
    StandsIn tree (.join connective left right)
  | right {connective : Connective} {left right : Tree} (h : StandsIn tree right) :
    StandsIn tree (.join connective left right)

theorem foldl_join_concat (tree : Tree) (trees : List Tree) (last : Tree) :
    (trees ++ [last]).foldl (join .and) tree = join .and (trees.foldl (join .and) tree) last := by
  rw [List.foldl_append]
  rfl

theorem clauses_foldl_join (tree : Tree) (trees : List Tree) :
    (trees.foldl (join .and) tree).clauses = (tree :: trees).flatMap clauses := by
  induction trees using List.reverseRecOn with
  | nil => simp
  | append_singleton trees last ih =>
    rw [foldl_join_concat, clauses_join, ih]
    simp

theorem standsIn_foldl_join {part tree : Tree} {trees : List Tree} (h : part ∈ tree :: trees) :
    part.StandsIn (trees.foldl (join .and) tree) := by
  induction trees using List.reverseRecOn with
  | nil =>
    rw [List.mem_singleton.mp h]
    exact .whole
  | append_singleton trees last ih =>
    rw [foldl_join_concat]
    rw [← List.cons_append, List.mem_append, List.mem_singleton] at h
    rcases h with h | rfl
    · exact .left (ih h)
    · exact .right .whole

theorem check_foldl_join (record : Value) (tree : Tree) (trees : List Tree) :
    (trees.foldl (join .and) tree).check record =
      conjunctionOf ((tree :: trees).map (check record)) := by
  induction trees using List.reverseRecOn with
  | nil => exact (conjunctionOf_singleton _).symm
  | append_singleton trees last ih =>
    rw [foldl_join_concat, check, ih, ← List.cons_append, List.map_append, List.map_singleton,
      conjunctionOf_concat]
    rfl

/-! ## Rules with a tree -/

/-- The rules that have a tree, in order. -/
def rulesWithTree (rules : List String) : List String :=
  rules.filter fun rule => (parse? rule).isSome

theorem rulesWithTree_map_parse? (rules : List String) :
    (rulesWithTree rules).map parse? = (rules.filterMap parse?).map some := by
  induction rules with
  | nil => rfl
  | cons rule rules ih =>
    cases h : parse? rule with
    | none => simpa [rulesWithTree, h] using ih
    | some tree => simpa [rulesWithTree, h] using ih

theorem combine?_append_cons {rule : String} (h : parse? rule = none) (front back : List String) :
    combine? (front ++ rule :: back) = combine? (front ++ back) := by
  simp [combine?, List.filterMap_append, h]

/-- Several rules are one tree of the trees that they have, and answer what these answer one by
one. Without any tree they are false; a rule without a tree does not count. -/
theorem combine?_conjoins (rules : List String) (record : Value) :
    (rulesWithTree rules = [] →
        combine? rules = none ∧ evaluate (combine? rules) record = .ok false) ∧
      (rulesWithTree rules ≠ [] →
        ∃ (tree : Tree) (trees : List Tree), combine? rules = some tree ∧
          (rulesWithTree rules).map parse? = trees.map some ∧
          tree.clauses = trees.flatMap clauses ∧
          (∀ part ∈ trees, part.StandsIn tree) ∧
          evaluate (combine? rules) record =
            conjunctionOf ((rulesWithTree rules).map fun rule => evaluate (parse? rule) record)) ∧
      ∀ rule front back, parse? rule = none →
        combine? (front ++ rule :: back) = combine? (front ++ back) ∧
          evaluate (parse? rule) record = .ok false := by
  have hmap := rulesWithTree_map_parse? rules
  refine ⟨fun hnil => ?_, fun hne => ?_, fun rule front back hrule => ?_⟩
  · have htrees : rules.filterMap parse? = [] := by simpa [hnil] using hmap.symm
    have hnone : combine? rules = none := by rw [combine?, htrees, conjoin?]
    rw [hnone]
    exact ⟨rfl, rfl⟩
  · cases htrees : rules.filterMap parse? with
    | nil =>
      rw [htrees] at hmap
      exact absurd (List.map_eq_nil_iff.mp hmap) hne
    | cons tree trees =>
      have hcombine : combine? rules = some (trees.foldl (join .and) tree) := by
        rw [combine?, htrees, conjoin?]
      have hanswers : (rulesWithTree rules).map (fun rule => evaluate (parse? rule) record) =
          (tree :: trees).map (check record) := by
        have hcomp := congrArg (List.map (evaluate · record)) hmap
        rw [htrees] at hcomp
        simpa [Function.comp_def, evaluate] using hcomp
      refine ⟨_, tree :: trees, hcombine, by rw [hmap, htrees], clauses_foldl_join tree trees,
        fun part hpart => standsIn_foldl_join hpart, ?_⟩
      rw [hanswers, hcombine]
      exact check_foldl_join record tree trees
  · rw [hrule]
    exact ⟨combine?_append_cons hrule front back, rfl⟩

/-- Two rules with a tree and two without one. The first keeps its own `OR` as it is, and the last
is refused. -/
theorem combine?_conjoins_refused :
    (∃ tree, combine? ["no rule", "a=1 OR b=2", "", "c='\n'"] = some tree ∧
      (join .or (.leaf "a=1") (.leaf "b=2")).StandsIn tree) ∧
      evaluate (combine? ["no rule", "a=1 OR b=2", "", "c='\n'"]) (.object []) =
        .error (.invalidOperand "c='\n'") ∧
      combine? ["no rule", "a=1 OR b=2", "", "c='\n'"] = combine? ["a=1 OR b=2", "", "c='\n'"] := by
  obtain ⟨-, hmeaning, hwithout⟩ :=
    combine?_conjoins ["no rule", "a=1 OR b=2", "", "c='\n'"] (.object [])
  obtain ⟨tree, trees, htree, htrees, -, hparts, hanswer⟩ := hmeaning (by decide +kernel)
  refine ⟨⟨tree, htree, hparts _ ?_⟩, ?_, ?_⟩
  · have hmem : some (join .or (.leaf "a=1") (.leaf "b=2")) ∈ trees.map some := by
      rw [← htrees]
      decide +kernel
    simpa using hmem
  · rw [hanswer]
    decide +kernel
  · exact (hwithout "no rule" [] _ (by decide +kernel)).1

end Tree

end Verdict
