import Mathlib.Data.List.Dedup
import Mathlib.Data.List.Induction
import Verdict.Proofs.EngineState

/-!
# What a cache holds

A cache is emptied by order, and by a rule that it does not hold when it is full. Since the last
such step it has taken in every rule that it was asked for, and nothing has left it, whatever the
limit was in between (`HoldsSince.step`). So after any steps it holds exactly these rules, each once
and with its tree, and it has outgrown no limit under which one of them was asked for
(`content_after`).
-/

namespace Verdict

namespace Cache

/-! ## Steps on a cache -/

/-- A step on a cache. -/
inductive Step where
  | getOrParse (rule : String)
  | contains (rule : String)
  | setCapacity (capacity : Nat)
  | clear

/-- The rule whose tree a step asks for. -/
def Step.rule? : Step → Option String
  | .getOrParse rule => some rule
  | _ => none

/-- The cache after a step. -/
def step (cache : Cache) : Step → Cache
  | .getOrParse rule => (cache.getOrParse rule).2
  | .contains _ => cache
  | .setCapacity capacity => cache.setCapacity capacity
  | .clear => cache.clear

/-- The cache after steps in order. -/
def after (cache : Cache) (steps : List Step) : Cache :=
  steps.foldl step cache

/-- A step with the cache that it finds. -/
structure Visit where
  found : Cache
  step : Step

/-- The visits of steps in order. -/
def visits (cache : Cache) : List Step → List Visit
  | [] => []
  | s :: rest => ⟨cache, s⟩ :: visits (cache.step s) rest

theorem after_concat (cache : Cache) (steps : List Step) (s : Step) :
    cache.after (steps ++ [s]) = (cache.after steps).step s := by
  rw [after, List.foldl_append]
  rfl

theorem visits_concat (cache : Cache) (steps : List Step) (s : Step) :
    cache.visits (steps ++ [s]) = cache.visits steps ++ [⟨cache.after steps, s⟩] := by
  induction steps generalizing cache with
  | nil => rfl
  | cons first rest ih =>
    rw [List.cons_append, visits, ih, visits, List.cons_append]
    rfl

namespace Visit

/-- The visit empties the cache: by order, or by a rule that is not held when the cache is full. -/
def clears (visit : Visit) : Bool :=
  match visit.step with
  | .clear => true
  | .getOrParse rule =>
    !visit.found.contains rule && decide (visit.found.capacity ≤ visit.found.size)
  | _ => false

/-- The limit in force when a rule is asked for. -/
def limit? (visit : Visit) : Option Nat :=
  visit.step.rule?.map fun _ => visit.found.capacity

/-- The visits from the last one that empties the cache on; all of them if none does. -/
def sinceClearing : List Visit → List Visit
  | [] => []
  | visit :: rest => if rest.any clears then sinceClearing rest else visit :: rest

/-- The rules that visits ask for. -/
def asked (visits : List Visit) : List String :=
  visits.filterMap fun visit => visit.step.rule?

/-- The limits in force when rules are asked for without emptying the cache. -/
def limits (visits : List Visit) : List Nat :=
  (visits.filter fun visit => !visit.clears).filterMap limit?

theorem sinceClearing_concat (visits : List Visit) (visit : Visit) :
    sinceClearing (visits ++ [visit]) =
      if visit.clears then [visit] else sinceClearing visits ++ [visit] := by
  induction visits with
  | nil => simp [sinceClearing]
  | cons first rest ih =>
    rw [List.cons_append, sinceClearing, sinceClearing, ih, List.any_append, List.any_cons,
      List.any_nil, Bool.or_false]
    cases visit.clears with
    | true => simp
    | false => cases rest.any clears <;> simp

theorem asked_concat (visits : List Visit) (visit : Visit) :
    asked (visits ++ [visit]) = asked visits ++ visit.step.rule?.toList := by
  rw [asked, List.filterMap_append]
  cases h : visit.step.rule? <;> simp [h, asked]

theorem limits_concat {visit : Visit} (h : visit.clears = false) (visits : List Visit) :
    limits (visits ++ [visit]) = limits visits ++ visit.limit?.toList := by
  rw [limits, List.filter_append, List.filterMap_append]
  cases hl : visit.limit? <;> simp [h, hl, limits]

theorem foldl_max_limits_le {visit : Visit} (h : visit.clears = false) (visits : List Visit) :
    (limits visits).foldl max 1 ≤ (limits (visits ++ [visit])).foldl max 1 := by
  rw [limits_concat h, List.foldl_append]
  cases visit.limit? with
  | none => exact Nat.le_refl _
  | some limit => exact Nat.le_max_left _ _

end Visit

/-! ## Asking for a rule -/

/-- The rules that are held. -/
def rules (cache : Cache) : List String :=
  cache.entries.map Prod.fst

theorem length_rules (cache : Cache) : cache.rules.length = cache.size :=
  List.length_map _

theorem contains_iff (cache : Cache) (rule : String) :
    cache.contains rule = true ↔ rule ∈ cache.rules := by
  unfold contains get? rules
  rw [List.lookup_isSome_iff]
  simp

theorem Faithful.getOrParse_of_contains {cache : Cache} (h : cache.Faithful) {rule : String}
    (hheld : cache.contains rule = true) : cache.getOrParse rule = (Tree.parse? rule, cache) := by
  obtain ⟨tree, htree⟩ := Option.isSome_iff_exists.mp hheld
  unfold Cache.getOrParse
  rw [htree, h.get?_eq htree]

theorem getOrParse_of_not_contains {cache : Cache} {rule : String}
    (hnew : cache.contains rule = false) :
    cache.getOrParse rule = (Tree.parse? rule, cache.insert rule (Tree.parse? rule)) := by
  have hnone : cache.get? rule = none :=
    Option.isNone_iff_eq_none.mp (Option.isSome_eq_false_iff.mp hnew)
  unfold getOrParse
  rw [hnone]

theorem rules_insert_of_full {cache : Cache} (h : cache.capacity ≤ cache.size) (rule : String)
    (tree : Option Tree) : (cache.insert rule tree).rules = [rule] := by
  unfold insert rules
  rw [if_pos h]
  rfl

theorem rules_insert_of_room {cache : Cache} (h : cache.size < cache.capacity) (rule : String)
    (tree : Option Tree) : (cache.insert rule tree).rules = rule :: cache.rules := by
  unfold insert rules
  rw [if_neg (Nat.not_le.mpr h)]
  rfl

theorem contains_getOrParse (cache : Cache) (rule : String) :
    (cache.getOrParse rule).2.contains rule = true := by
  cases hheld : cache.contains rule with
  | true =>
    obtain ⟨tree, htree⟩ := Option.isSome_iff_exists.mp hheld
    unfold getOrParse
    rw [htree]
    exact hheld
  | false =>
    rw [getOrParse_of_not_contains hheld, contains_iff]
    exact List.mem_cons_self

/-! ## Since the last clearing -/

open Visit

/-- The cache holds the rules that were asked for at recent visits, each once and with its tree, and
has outgrown none of their limits. -/
structure HoldsSince (cache : Cache) (recent : List Visit) : Prop where
  faithful : cache.Faithful
  nodup : cache.rules.Nodup
  mem_iff : ∀ rule, rule ∈ cache.rules ↔ rule ∈ asked recent
  size_le : cache.size ≤ (limits recent).foldl max 1

namespace HoldsSince

variable {cache : Cache} {recent : List Visit} {visit : Visit}

theorem withCapacity (capacity : Nat) : (Cache.withCapacity capacity).HoldsSince [] where
  faithful := faithful_withCapacity capacity
  nodup := List.nodup_nil
  mem_iff := fun _ => Iff.rfl
  size_le := Nat.zero_le _

/-- A visit that asks for no new rule and does not empty the cache changes at most the limit. -/
theorem setCapacity (h : cache.HoldsSince recent) (hclears : visit.clears = false)
    (hrule : ∀ rule, visit.step.rule? = some rule → rule ∈ cache.rules) (capacity : Nat) :
    (cache.setCapacity capacity).HoldsSince (recent ++ [visit]) where
  faithful := h.faithful.setCapacity capacity
  nodup := h.nodup
  mem_iff := by
    intro rule
    show rule ∈ cache.rules ↔ rule ∈ asked (recent ++ [visit])
    rw [asked_concat, List.mem_append, ← h.mem_iff, Option.mem_toList]
    exact ⟨.inl, fun hmem => hmem.elim id (hrule rule)⟩
  size_le := h.size_le.trans (foldl_max_limits_le hclears recent)

theorem clear (cache : Cache) : cache.clear.HoldsSince [⟨cache, .clear⟩] where
  faithful := faithful_clear cache
  nodup := List.nodup_nil
  mem_iff := fun _ => Iff.rfl
  size_le := Nat.zero_le _

theorem insert_of_full (h : cache.HoldsSince recent) (hfull : cache.capacity ≤ cache.size)
    {rule : String} (hclears : Visit.clears ⟨cache, .getOrParse rule⟩ = true) :
    (cache.insert rule (Tree.parse? rule)).HoldsSince [⟨cache, .getOrParse rule⟩] := by
  have hrules := rules_insert_of_full hfull rule (Tree.parse? rule)
  refine ⟨h.faithful.insert rule, ?_, fun other => ?_, ?_⟩
  · rw [hrules]
    exact List.nodup_singleton rule
  · rw [hrules]
    rfl
  · have hlimits : limits [⟨cache, .getOrParse rule⟩] = [] := by simp [limits, hclears]
    rw [← length_rules, hrules, hlimits]
    exact Nat.le_refl 1

/-- A new rule comes to the others in a cache with room for it. -/
theorem insert_of_room (h : cache.HoldsSince recent) (hroom : cache.size < cache.capacity)
    {rule : String} (hnew : rule ∉ cache.rules)
    (hclears : Visit.clears ⟨cache, .getOrParse rule⟩ = false) :
    (cache.insert rule (Tree.parse? rule)).HoldsSince
      (recent ++ [⟨cache, .getOrParse rule⟩]) := by
  have hrules := rules_insert_of_room hroom rule (Tree.parse? rule)
  refine ⟨h.faithful.insert rule, ?_, fun other => ?_, ?_⟩
  · rw [hrules]
    exact List.nodup_cons.mpr ⟨hnew, h.nodup⟩
  · rw [hrules, List.mem_cons, h.mem_iff, asked_concat, List.mem_append, or_comm]
    simp [Step.rule?, eq_comm]
  · rw [← length_rules, hrules, List.length_cons, length_rules, limits_concat hclears,
      List.foldl_append]
    exact hroom.trans_le (Nat.le_max_right _ _)

/-- What the cache holds after one more step. -/
theorem step (h : cache.HoldsSince recent) (s : Step) :
    (cache.step s).HoldsSince
      (if Visit.clears ⟨cache, s⟩ then [⟨cache, s⟩] else recent ++ [⟨cache, s⟩]) := by
  cases s with
  | contains rule => exact h.setCapacity rfl (fun _ hrule => by cases hrule) cache.capacity
  | setCapacity capacity => exact h.setCapacity rfl (fun _ hrule => by cases hrule) capacity
  | clear => exact HoldsSince.clear cache
  | getOrParse rule =>
    have hclears : Visit.clears ⟨cache, .getOrParse rule⟩ =
        (!cache.contains rule && decide (cache.capacity ≤ cache.size)) := rfl
    cases hheld : cache.contains rule with
    | true =>
      rw [hheld, Bool.not_true, Bool.false_and] at hclears
      rw [Cache.step, h.faithful.getOrParse_of_contains hheld, hclears]
      refine h.setCapacity hclears (fun other hother => ?_) cache.capacity
      cases hother
      exact (cache.contains_iff rule).mp hheld
    | false =>
      rw [hheld, Bool.not_false, Bool.true_and] at hclears
      rw [Cache.step, getOrParse_of_not_contains hheld]
      by_cases hfull : cache.capacity ≤ cache.size
      · rw [decide_eq_true hfull] at hclears
        rw [if_pos hclears]
        exact h.insert_of_full hfull hclears
      · rw [decide_eq_false hfull] at hclears
        rw [hclears]
        refine h.insert_of_room (Nat.not_le.mp hfull) (fun hmem => ?_) hclears
        rw [(cache.contains_iff rule).mpr hmem] at hheld
        cases hheld

end HoldsSince

theorem holdsSince_after (capacity : Nat) (steps : List Step) :
    ((withCapacity capacity).after steps).HoldsSince
      (sinceClearing ((withCapacity capacity).visits steps)) := by
  induction steps using List.reverseRecOn with
  | nil => exact .withCapacity capacity
  | append_singleton steps s ih =>
    rw [after_concat, visits_concat, sinceClearing_concat]
    exact ih.step s

namespace HoldsSince

variable {cache : Cache} {recent : List Visit}

theorem contains_iff (h : cache.HoldsSince recent) (rule : String) :
    cache.contains rule = true ↔ rule ∈ asked recent :=
  (cache.contains_iff rule).trans (h.mem_iff rule)

theorem get?_eq (h : cache.HoldsSince recent) (rule : String) :
    cache.get? rule = if rule ∈ asked recent then some (Tree.parse? rule) else none := by
  cases hget : cache.get? rule with
  | some tree =>
    have hheld : cache.contains rule = true := Option.isSome_iff_exists.mpr ⟨tree, hget⟩
    rw [if_pos ((h.contains_iff rule).mp hheld), h.faithful.get?_eq hget]
  | none =>
    have hnew : ¬cache.contains rule = true := by simp [Cache.contains, hget]
    rw [if_neg (mt (h.contains_iff rule).mpr hnew)]

theorem size_eq (h : cache.HoldsSince recent) : cache.size = (asked recent).dedup.length := by
  rw [← length_rules]
  refine ((List.perm_ext_iff_of_nodup h.nodup (List.nodup_dedup _)).mpr fun rule => ?_).length_eq
  rw [List.mem_dedup, h.mem_iff]

end HoldsSince

/-- After any steps a cache holds exactly the rules that were asked for since it was emptied last,
each with its tree. Their number is at most one, or at most the largest limit in force when one of
them was asked for. A rule that is held is found without any change. A rule that was asked for is
held, and if it is new the cache is not above its limit, or holds nothing else. -/
theorem content_after (capacity : Nat) (steps : List Step) :
    let cache := (withCapacity capacity).after steps
    let recent := sinceClearing ((withCapacity capacity).visits steps)
    (∀ rule, cache.get? rule = if rule ∈ asked recent then some (Tree.parse? rule) else none) ∧
    (∀ rule, cache.contains rule = true ↔ rule ∈ asked recent) ∧
    cache.size = (asked recent).dedup.length ∧
    cache.size ≤ (limits recent).foldl max 1 ∧
    ∀ rule,
      (cache.contains rule = true → cache.getOrParse rule = (Tree.parse? rule, cache)) ∧
      (cache.getOrParse rule).2.contains rule = true ∧
      (cache.contains rule = false →
        (cache.getOrParse rule).2.size ≤ max 1 cache.capacity) := by
  intro cache recent
  have h : cache.HoldsSince recent := holdsSince_after capacity steps
  refine ⟨h.get?_eq, h.contains_iff, h.size_eq, h.size_le, fun rule => ⟨?_, ?_, fun hnew => ?_⟩⟩
  · exact h.faithful.getOrParse_of_contains
  · exact contains_getOrParse cache rule
  · rw [getOrParse_of_not_contains hnew]
    exact size_insert_le cache rule _

/-- The limit is lowered while three rules are held. It does nothing to a rule that is held, and the
next new rule empties the cache. -/
theorem content_after_lowered :
    let steps : List Step := [.getOrParse "a=1", .getOrParse "b=2", .getOrParse "c=3",
      .setCapacity 1, .getOrParse "a=1", .getOrParse "d=4", .contains "a=1"]
    let cache := (withCapacity 8).after steps
    cache.get? "d=4" = some (some (.leaf "d=4")) ∧ cache.get? "a=1" = none ∧ cache.size = 1 ∧
      cache.getOrParse "d=4" = (some (.leaf "d=4"), cache) ∧
      (cache.getOrParse "a=1").2.size ≤ 1 := by
  intro steps cache
  obtain ⟨hget, hheld, hsize, -, hask⟩ := content_after 8 steps
  have hasked : asked (sinceClearing ((withCapacity 8).visits steps)) = ["d=4"] := by
    decide +kernel
  have htree : Tree.parse? "d=4" = some (.leaf "d=4") := by decide
  rw [hasked] at hsize
  refine ⟨?_, ?_, hsize, ?_, (hask "a=1").2.2 ?_⟩
  · rw [hget, hasked, htree]
    rfl
  · rw [hget, hasked]
    rfl
  · rw [← htree]
    refine (hask "d=4").1 ((hheld "d=4").mpr ?_)
    rw [hasked]
    exact List.mem_singleton_self _
  · rw [Bool.eq_false_iff, ne_eq, hheld, hasked]
    decide

end Cache

end Verdict
