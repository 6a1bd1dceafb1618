import Verdict.Proofs.Spine
import Verdict.Session

/-!
# The cache does not show in an answer

Whatever steps an engine has taken, its cache holds each rule with the tree that the rule is parsed
to (`faithful_after`). So a check answers what evaluating the parsed rule answers (`check_after`),
and every step of a session has an answer of its own, which is told without an engine
(`answers_run`).
-/

namespace Verdict

/-! ## The cache -/

namespace Cache

/-- Every entry holds the tree that its rule is parsed to. -/
def Faithful (cache : Cache) : Prop :=
  ∀ entry ∈ cache.entries, entry.2 = Tree.parse? entry.1

theorem faithful_withCapacity (capacity : Nat) : (withCapacity capacity).Faithful := by
  intro entry h
  cases h

theorem Faithful.setCapacity {cache : Cache} (h : cache.Faithful) (capacity : Nat) :
    (cache.setCapacity capacity).Faithful :=
  h

theorem faithful_clear (cache : Cache) : cache.clear.Faithful := by
  intro entry h
  cases h

theorem Faithful.get?_eq {cache : Cache} (h : cache.Faithful) {rule : String}
    {tree : Option Tree} (hget : cache.get? rule = some tree) : tree = Tree.parse? rule := by
  obtain ⟨front, back, hentries, -⟩ := List.lookup_eq_some_iff.mp hget
  exact h (rule, tree) (by rw [hentries]; simp)

theorem Faithful.insert {cache : Cache} (h : cache.Faithful) (rule : String) :
    (cache.insert rule (Tree.parse? rule)).Faithful := by
  intro entry hentry
  simp only [Cache.insert] at hentry
  rcases List.mem_cons.mp hentry with rfl | hentry
  · rfl
  · split at hentry
    · cases hentry
    · exact h entry hentry

theorem Faithful.getOrParse {cache : Cache} (h : cache.Faithful) (rule : String) :
    (cache.getOrParse rule).1 = Tree.parse? rule ∧ (cache.getOrParse rule).2.Faithful := by
  unfold Cache.getOrParse
  split
  · next tree hget => exact ⟨h.get?_eq hget, h⟩
  · exact ⟨rfl, h.insert rule⟩

end Cache

/-! ## Blank rules -/

theorem Tree.parse?_blank {rule : String} (h : Text.isBlankText rule = true) :
    Tree.parse? rule = none := by
  have hblank : Text.Blanks rule.toList := List.all_eq_true.mp h
  have hclause : Token.clauseOf? rule.toList = none := by
    rw [Token.clauseOf?, Text.trim_eq_nil hblank]
    rfl
  rw [parse?_of_cuts (.last (Token.modeAfter?_blanks hblank [] [])), Token.spine?, hclause]
  rfl

/-! ## The engine -/

namespace Engine

theorem faithful_configure {engine : Engine} (h : engine.cache.Faithful) (settings : Settings) :
    (engine.configure settings).2.cache.Faithful := by
  unfold configure
  split
  · exact h
  · show (if settings.cacheEnabled then engine.cache.setCapacity settings.cacheCapacity
      else (engine.cache.setCapacity settings.cacheCapacity).clear).Faithful
    split
    · exact h.setCapacity settings.cacheCapacity
    · exact Cache.faithful_clear _

theorem faithful_configureText {engine : Engine} (h : engine.cache.Faithful) (text : String) :
    (engine.configureText text).2.cache.Faithful := by
  unfold configureText
  split
  · exact h
  · exact faithful_configure h _

theorem parse_of_faithful {engine : Engine} (h : engine.cache.Faithful) (rule : String) :
    (engine.parse rule).1 = Tree.parse? rule ∧ (engine.parse rule).2.cache.Faithful := by
  unfold parse
  split
  · exact h.getOrParse rule
  · exact ⟨rfl, h⟩

/-- A check answers what evaluating the parsed rule answers; for a blank rule both are false. -/
theorem check_of_faithful {engine : Engine} (h : engine.cache.Faithful) (rule : String)
    (record : Json.Value) :
    (engine.check rule record).1 = evaluate (Tree.parse? rule) record ∧
      (engine.check rule record).2.cache.Faithful := by
  unfold check
  split
  · next hblank =>
    rw [Tree.parse?_blank hblank]
    exact ⟨rfl, h⟩
  · obtain ⟨htree, hcache⟩ := parse_of_faithful h rule
    exact ⟨congrArg (evaluate · record) htree, hcache⟩

end Engine

/-! ## Sessions -/

namespace Session

/-- The engine after steps in order, from the start. -/
def after (steps : List Step) : Engine :=
  steps.foldl (fun engine s => (step engine s).2) .initial

theorem faithful_step {engine : Engine} (h : engine.cache.Faithful) (s : Step) :
    (step engine s).2.cache.Faithful := by
  cases s with
  | configure settings => exact Engine.faithful_configure h settings
  | configureText text => exact Engine.faithful_configureText h text
  | check rule record => exact (Engine.check_of_faithful h rule record).2
  | parse rule => exact (Engine.parse_of_faithful h rule).2
  | setCacheCapacity capacity => exact h.setCapacity capacity
  | clearCache => exact Cache.faithful_clear _
  | hostConfigure settings =>
    rw [step]
    split
    · exact h
    · exact Engine.faithful_configure h _
  | hostCheck rule record =>
    rw [step]
    split
    · exact (Engine.check_of_faithful h _ _).2
    · exact h
    · exact h

/-- After any steps the cache is faithful. -/
theorem faithful_after (steps : List Step) : (after steps).cache.Faithful := by
  induction steps using List.reverseRecOn with
  | nil => exact Cache.faithful_withCapacity _
  | append_singleton steps s ih =>
    rw [after, List.foldl_append]
    exact faithful_step ih s

/-- After any steps a check answers what evaluating the parsed rule answers. -/
theorem check_after (steps : List Step) (rule : String) (record : Json.Value) :
    ((after steps).check rule record).1 = evaluate (Tree.parse? rule) record :=
  (Engine.check_of_faithful (faithful_after steps) rule record).1

end Session

/-! ## What a session answers

A rule is parsed, or parsed and evaluated, and settings are put in force if they can be read and are
valid. An engine whose cache is faithful gives that answer, so a session gives it at every step,
whatever was configured, cached, forgotten or refused before. -/

namespace Session

/-- The answer of settings that are configured. -/
def answerOfSettings (settings : Settings) : Answer :=
  .ofUnit settings.validate

/-- The answer of a rule that is checked: the verdict of its tree. -/
def answerOfRule (rule : String) (record : Json.Value) : Answer :=
  .ofVerdict (evaluate (Tree.parse? rule) record)

/-- The answer of a step, told without an engine. -/
def answer : Step → Answer
  | .configure settings => answerOfSettings settings
  | .configureText text =>
    match Settings.ofText text with
    | .error refusal => .refused refusal
    | .ok settings => answerOfSettings settings
  | .check rule record => answerOfRule rule record
  | .parse rule => .tree (Tree.parse? rule)
  | .setCacheCapacity _ => .done
  | .clearCache => .done
  | .hostConfigure object =>
    match Host.settingsOf object with
    | .error fault => .hostRefused fault
    | .ok settings => (answerOfSettings settings).toHost
  | .hostCheck rule record =>
    match Host.textOf rule, record.toRecord with
    | .error fault, _ => .hostRefused fault
    | .ok _, .error fault => .hostRefused fault
    | .ok rule, .ok record => (answerOfRule rule record).toHost

theorem ofUnit_configure (engine : Engine) (settings : Settings) :
    Answer.ofUnit (engine.configure settings).1 = answerOfSettings settings := by
  unfold Engine.configure answerOfSettings
  cases settings.validate <;> rfl

theorem ofVerdict_check {engine : Engine} (h : engine.cache.Faithful) (rule : String)
    (record : Json.Value) :
    Answer.ofVerdict (engine.check rule record).1 = answerOfRule rule record := by
  rw [(Engine.check_of_faithful h rule record).1, answerOfRule]

/-- With a faithful cache a step gives its answer. -/
theorem step_of_faithful {engine : Engine} (h : engine.cache.Faithful) (s : Step) :
    (step engine s).1 = answer s := by
  cases s with
  | configure settings => exact ofUnit_configure engine settings
  | configureText text =>
    simp only [step, answer, Engine.configureText]
    cases Settings.ofText text with
    | error refusal => rfl
    | ok settings => exact ofUnit_configure engine settings
  | check rule record => exact ofVerdict_check h rule record
  | parse rule => exact congrArg Answer.tree (Engine.parse_of_faithful h rule).1
  | setCacheCapacity capacity => rfl
  | clearCache => rfl
  | hostConfigure object =>
    simp only [step, answer]
    cases Host.settingsOf object with
    | error fault => rfl
    | ok settings => exact congrArg Answer.toHost (ofUnit_configure engine settings)
  | hostCheck rule record =>
    simp only [step, answer]
    cases Host.textOf rule with
    | error fault => rfl
    | ok rule =>
      cases record.toRecord with
      | error fault => rfl
      | ok record => exact congrArg Answer.toHost (ofVerdict_check h rule record)

theorem run_of_faithful {engine : Engine} (h : engine.cache.Faithful) (steps : List Step) :
    (run engine steps).map Prod.fst = steps.map answer := by
  induction steps generalizing engine with
  | nil => rfl
  | cons s rest ih =>
    rw [run, List.map_cons, List.map_cons, step_of_faithful h s, ih (faithful_step h s)]

/-- In a session from the start every step gives its answer: a rule that is parsed its tree, and a
rule that is checked what evaluating its tree gives, a refusal included. -/
theorem answers_run (steps : List Step) :
    (run .initial steps).map Prod.fst = steps.map answer :=
  run_of_faithful (Cache.faithful_withCapacity _) steps

end Session

end Verdict
