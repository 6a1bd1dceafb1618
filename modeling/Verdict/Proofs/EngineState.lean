import Mathlib.Data.List.Induction
import Verdict.Proofs.History

/-!
# The state of an engine

Settings and cache are changed by few kinds of steps, told once in `effect_step`: valid settings are
put in force, the limit of the cache is set, the cache is emptied, a rule is parsed, or nothing
changes. From this the invariants of every session follow (`state_after`): the settings are valid, a
cache that is off is empty, its limit is the one that was given last, and it never outgrows the
largest limit that was in force. A configuration that fails leaves the engine as it was.
-/

namespace Verdict

namespace Settings

/-- The settings, if they are valid. -/
def valid? (settings : Settings) : Option Settings :=
  if settings.cacheCapacity = 0 then none else some settings

theorem valid?_eq_some {settings valid : Settings} (h : settings.valid? = some valid) :
    valid = settings ∧ settings.validate = .ok () ∧ 1 ≤ settings.cacheCapacity := by
  unfold valid? at h
  split at h
  · cases h
  · next hpos =>
    cases h
    exact ⟨rfl, if_neg hpos, Nat.one_le_iff_ne_zero.mpr hpos⟩

theorem validate_of_valid?_eq_none {settings : Settings} (h : settings.valid? = none) :
    settings.validate = .error .zeroCapacity := by
  unfold valid? at h
  split at h
  · next hzero => exact if_pos hzero
  · cases h

theorem valid?_of_ofText {text : String} {settings : Settings}
    (h : ofText text = .ok settings) : settings.valid? = some settings := by
  simp only [ofText] at h
  split at h
  · cases h
  · next read _ =>
    cases hread : read.valid? with
    | none =>
      rw [validate_of_valid?_eq_none hread] at h
      cases h
    | some valid =>
      obtain ⟨rfl, hvalid, -⟩ := valid?_eq_some hread
      rw [hvalid] at h
      cases h
      exact hread

end Settings

namespace Cache

/-! ## The size of the cache -/

@[simp] theorem capacity_getOrParse (cache : Cache) (rule : String) :
    (cache.getOrParse rule).2.capacity = cache.capacity := by
  unfold getOrParse
  split <;> rfl

theorem size_insert_le (cache : Cache) (rule : String) (tree : Option Tree) :
    (cache.insert rule tree).size ≤ max 1 cache.capacity := by
  by_cases hfull : cache.capacity ≤ cache.size
  · simp only [insert, if_pos hfull]
    exact Nat.le_max_left _ _
  · have hroom : cache.entries.length < cache.capacity := Nat.not_le.mp hfull
    simp only [insert, if_neg hfull]
    show cache.entries.length + 1 ≤ max 1 cache.capacity
    omega

theorem size_getOrParse_le (cache : Cache) (rule : String) :
    (cache.getOrParse rule).2.size ≤ max cache.size (max 1 cache.capacity) := by
  unfold getOrParse
  split
  · exact Nat.le_max_left _ _
  · exact Nat.le_trans (cache.size_insert_le rule _) (Nat.le_max_right _ _)

end Cache

namespace Engine

theorem parse_of_off {engine : Engine} (h : engine.settings.cacheEnabled = false) (rule : String) :
    (engine.parse rule).2 = engine := by
  unfold parse
  rw [if_neg (by simp [h])]

@[simp] theorem settings_parse (engine : Engine) (rule : String) :
    (engine.parse rule).2.settings = engine.settings := by
  unfold parse
  split <;> rfl

@[simp] theorem capacity_parse (engine : Engine) (rule : String) :
    (engine.parse rule).2.cache.capacity = engine.cache.capacity := by
  unfold parse
  split
  · exact engine.cache.capacity_getOrParse rule
  · rfl

theorem size_parse_le (engine : Engine) (rule : String) :
    (engine.parse rule).2.cache.size ≤
      max engine.cache.size (max 1 engine.cache.capacity) := by
  unfold parse
  split
  · exact engine.cache.size_getOrParse_le rule
  · exact Nat.le_max_left _ _

theorem check_cases (engine : Engine) (rule : String) (record : Json.Value) :
    (engine.check rule record).2 = engine ∨
      (engine.check rule record).2 = (engine.parse rule).2 := by
  unfold check
  split
  · exact .inl rfl
  · exact .inr rfl

/-! ## Putting settings in force -/

/-- The engine with valid settings put in force. -/
def withSettings (engine : Engine) (settings : Settings) : Engine :=
  let cache := engine.cache.setCapacity settings.cacheCapacity
  ⟨settings, if settings.cacheEnabled then cache else cache.clear⟩

theorem configure_of_valid {engine : Engine} {settings valid : Settings}
    (h : settings.valid? = some valid) :
    engine.configure settings = (.ok (), engine.withSettings valid) := by
  obtain ⟨rfl, hvalid, -⟩ := Settings.valid?_eq_some h
  simp only [configure, hvalid, withSettings]

theorem configure_of_invalid {engine : Engine} {settings : Settings}
    (h : settings.valid? = none) :
    engine.configure settings = (.error .zeroCapacity, engine) := by
  simp only [configure, Settings.validate_of_valid?_eq_none h]

@[simp] theorem capacity_withSettings (engine : Engine) (settings : Settings) :
    (engine.withSettings settings).cache.capacity = settings.cacheCapacity := by
  unfold withSettings
  dsimp only
  split <;> rfl

theorem size_withSettings_le (engine : Engine) (settings : Settings) :
    (engine.withSettings settings).cache.size ≤ engine.cache.size := by
  unfold withSettings
  dsimp only
  split
  · exact Nat.le_refl _
  · exact Nat.zero_le _

theorem entries_withSettings_of_off {settings : Settings} (h : settings.cacheEnabled = false)
    (engine : Engine) : (engine.withSettings settings).cache.entries = [] := by
  unfold withSettings
  dsimp only
  rw [if_neg (by simp [h])]
  rfl

end Engine

namespace Session

/-! ## What a step changes -/

namespace Step

/-- The step configures the engine. -/
def Configures : Step → Prop
  | .configure _ => True
  | .configureText _ => True
  | .hostConfigure _ => True
  | _ => False

/-- The settings that a step puts in force: they can be read and are valid. -/
def settings? : Step → Option Settings
  | .configure settings => settings.valid?
  | .configureText text => (Settings.ofText text).toOption
  | .hostConfigure object => (Host.settingsOf object).toOption.bind Settings.valid?
  | _ => none

/-- The limit that a step gives to the cache. -/
def limit? : Step → Option Nat
  | .setCacheCapacity capacity => some capacity
  | s => s.settings?.map Settings.cacheCapacity

theorem limit?_eq {s : Step} (h : ∀ capacity, s ≠ .setCacheCapacity capacity) :
    s.limit? = s.settings?.map Settings.cacheCapacity := by
  cases s with
  | setCacheCapacity capacity => exact absurd rfl (h capacity)
  | _ => rfl

end Step

theorem refused_ne_done (refusal : Refusal) : Answer.refused refusal ≠ .done := by
  intro h
  cases h

theorem hostRefused_ne_done (fault : Host.Fault) : Answer.hostRefused fault ≠ .done := by
  intro h
  cases h

/-- A step that configures succeeds and puts its settings in force, or it fails and changes
nothing. -/
theorem step_of_configures {s : Step} (h : s.Configures) (engine : Engine) :
    (∃ settings, s.settings? = some settings ∧
      step engine s = (.done, engine.withSettings settings)) ∨
    (s.settings? = none ∧ (step engine s).1 ≠ .done ∧ (step engine s).2 = engine) := by
  cases s with
  | configure settings =>
    cases hv : settings.valid? with
    | some valid =>
      refine .inl ⟨valid, hv, ?_⟩
      rw [step, Engine.configure_of_valid hv]
      rfl
    | none =>
      refine .inr ⟨hv, ?_⟩
      rw [step, Engine.configure_of_invalid hv]
      exact ⟨refused_ne_done _, rfl⟩
  | configureText text =>
    cases hread : Settings.ofText text with
    | ok settings =>
      refine .inl ⟨settings, by rw [Step.settings?, hread]; rfl, ?_⟩
      simp only [step, Engine.configureText, hread,
        Engine.configure_of_valid (Settings.valid?_of_ofText hread), Answer.ofUnit]
    | error refusal =>
      refine .inr ⟨by rw [Step.settings?, hread]; rfl, ?_⟩
      simp only [step, Engine.configureText, hread]
      exact ⟨refused_ne_done _, trivial⟩
  | hostConfigure object =>
    cases hread : Host.settingsOf object with
    | ok settings =>
      cases hv : settings.valid? with
      | some valid =>
        refine .inl ⟨valid, by rw [Step.settings?, hread]; exact hv, ?_⟩
        simp only [step, hread, Engine.configure_of_valid hv, Answer.ofUnit, Answer.toHost]
      | none =>
        refine .inr ⟨by rw [Step.settings?, hread]; exact hv, ?_⟩
        simp only [step, hread, Engine.configure_of_invalid hv, Answer.ofUnit, Answer.toHost]
        exact ⟨hostRefused_ne_done _, trivial⟩
    | error fault =>
      refine .inr ⟨by rw [Step.settings?, hread]; rfl, ?_⟩
      simp only [step, hread]
      exact ⟨hostRefused_ne_done _, trivial⟩
  | check rule record => cases h
  | parse rule => cases h
  | setCacheCapacity capacity => cases h
  | clearCache => cases h
  | hostCheck rule record => cases h

/-- What a step does to an engine. -/
inductive Effect (engine : Engine) (s : Step) : Engine → Prop
  | configured {settings : Settings} (h : s.settings? = some settings) :
    Effect engine s (engine.withSettings settings)
  | limited {capacity : Nat} (h : s = .setCacheCapacity capacity) :
    Effect engine s (engine.setCacheCapacity capacity)
  | emptied (h : s.limit? = none) : Effect engine s engine.clearCache
  | parsed (rule : String) (h : s.limit? = none) : Effect engine s (engine.parse rule).2
  | kept (h : s.limit? = none) : Effect engine s engine

theorem effect_check {engine : Engine} {s : Step} (h : s.limit? = none) (rule : String)
    (record : Json.Value) : Effect engine s (engine.check rule record).2 := by
  rcases engine.check_cases rule record with hkept | hparsed
  · rw [hkept]
    exact .kept h
  · rw [hparsed]
    exact .parsed rule h

theorem effect_of_configures {s : Step} (h : s.Configures) (engine : Engine) :
    Effect engine s (step engine s).2 := by
  rcases step_of_configures h engine with ⟨settings, hsettings, hstep⟩ | ⟨hnone, -, hstep⟩
  · rw [hstep]
    exact .configured hsettings
  · rw [hstep]
    refine .kept ?_
    rw [Step.limit?_eq (by rintro capacity rfl; cases h), hnone]
    rfl

theorem effect_step (engine : Engine) (s : Step) : Effect engine s (step engine s).2 := by
  cases s with
  | configure settings => exact effect_of_configures (s := .configure settings) trivial engine
  | configureText text => exact effect_of_configures (s := .configureText text) trivial engine
  | hostConfigure object => exact effect_of_configures (s := .hostConfigure object) trivial engine
  | check rule record => exact effect_check rfl rule record
  | parse rule => exact .parsed rule rfl
  | setCacheCapacity capacity => exact .limited rfl
  | clearCache => exact .emptied rfl
  | hostCheck rule record =>
    rw [step]
    split
    · exact effect_check rfl _ _
    · exact .kept rfl
    · exact .kept rfl

/-! ## Invariants -/

end Session

/-- The settings are valid, and a cache that is off is empty. -/
structure Engine.Sound (engine : Engine) : Prop where
  capacity_pos : 1 ≤ engine.settings.cacheCapacity
  empty_of_off : engine.settings.cacheEnabled = false → engine.cache.entries = []

namespace Session

theorem valid_of_settings? {s : Step} {settings : Settings} (h : s.settings? = some settings) :
    1 ≤ settings.cacheCapacity := by
  have hvalid : ∃ read : Settings, read.valid? = some settings := by
    cases s with
    | configure read => exact ⟨read, h⟩
    | configureText text =>
      cases hread : Settings.ofText text with
      | error refusal =>
        rw [Step.settings?, hread] at h
        cases h
      | ok read =>
        rw [Step.settings?, hread] at h
        cases h
        exact ⟨settings, Settings.valid?_of_ofText hread⟩
    | hostConfigure object =>
      obtain ⟨read, -, hread⟩ := Option.bind_eq_some_iff.mp h
      exact ⟨read, hread⟩
    | _ => cases h
  obtain ⟨read, hread⟩ := hvalid
  obtain ⟨rfl, -, hpos⟩ := Settings.valid?_eq_some hread
  exact hpos

theorem Effect.sound {engine next : Engine} {s : Step} (he : Effect engine s next)
    (h : engine.Sound) : next.Sound := by
  cases he with
  | configured hs =>
    exact ⟨valid_of_settings? hs, fun hoff => Engine.entries_withSettings_of_off hoff engine⟩
  | limited hs => exact ⟨h.capacity_pos, h.empty_of_off⟩
  | emptied hs => exact ⟨h.capacity_pos, fun _ => rfl⟩
  | parsed rule hs =>
    refine ⟨by simpa using h.capacity_pos, ?_⟩
    intro hoff
    rw [Engine.settings_parse] at hoff
    rw [Engine.parse_of_off hoff]
    exact h.empty_of_off hoff
  | kept hs => exact h

/-- The limit after a step is the one that the step gives, or else the one before it. -/
theorem Effect.capacity_eq {engine next : Engine} {s : Step} (he : Effect engine s next) :
    next.cache.capacity = s.limit?.getD engine.cache.capacity := by
  cases he with
  | configured hs =>
    rw [Step.limit?_eq (by rintro capacity rfl; cases hs), hs]
    exact engine.capacity_withSettings _
  | limited hs =>
    rw [hs]
    rfl
  | emptied hs =>
    rw [hs]
    rfl
  | parsed rule hs =>
    rw [hs]
    exact engine.capacity_parse rule
  | kept hs =>
    rw [hs]
    rfl

theorem Effect.size_le {engine next : Engine} {s : Step} (he : Effect engine s next) :
    next.cache.size ≤ max engine.cache.size (max 1 engine.cache.capacity) := by
  cases he with
  | configured hs =>
    exact Nat.le_trans (engine.size_withSettings_le _) (Nat.le_max_left _ _)
  | limited hs => exact Nat.le_max_left _ _
  | emptied hs => exact Nat.zero_le _
  | parsed rule hs => exact engine.size_parse_le rule
  | kept hs => exact Nat.le_max_left _ _

/-- Unless the limit is set apart from the settings, it stays the one of the settings. -/
theorem Effect.capacity_eq_settings {engine next : Engine} {s : Step} (he : Effect engine s next)
    (hs : ∀ capacity, s ≠ .setCacheCapacity capacity)
    (h : engine.cache.capacity = engine.settings.cacheCapacity) :
    next.cache.capacity = next.settings.cacheCapacity := by
  cases he with
  | configured _ => exact engine.capacity_withSettings _
  | limited hlimit => exact absurd hlimit (hs _)
  | emptied _ => exact h
  | parsed rule _ => simpa using h
  | kept _ => exact h

/-! ## Sessions -/

theorem after_concat (steps : List Step) (s : Step) :
    after (steps ++ [s]) = (step (after steps) s).2 := by
  rw [after, List.foldl_append]
  rfl

theorem sound_after (steps : List Step) : (after steps).Sound := by
  induction steps using List.reverseRecOn with
  | nil => exact ⟨by decide, fun _ => rfl⟩
  | append_singleton steps s ih =>
    rw [after_concat]
    exact (effect_step (after steps) s).sound ih

/-- The limit that was given last in a session; 2048 if none was. -/
def latestLimit (steps : List Step) : Nat :=
  (steps.reverse.findSome? Step.limit?).getD 2048

theorem capacity_after (steps : List Step) :
    (after steps).cache.capacity = latestLimit steps := by
  induction steps using List.reverseRecOn with
  | nil => rfl
  | append_singleton steps s ih =>
    rw [after_concat, (effect_step (after steps) s).capacity_eq, ih, latestLimit, latestLimit,
      List.reverse_concat, List.findSome?_cons]
    cases s.limit? with
    | none => rfl
    | some capacity => rfl

theorem capacity_after_eq_settings {steps : List Step}
    (h : ∀ capacity, .setCacheCapacity capacity ∉ steps) :
    (after steps).cache.capacity = (after steps).settings.cacheCapacity := by
  induction steps using List.reverseRecOn with
  | nil => rfl
  | append_singleton steps s ih =>
    rw [after_concat]
    refine (effect_step (after steps) s).capacity_eq_settings ?_ (ih ?_)
    · rintro capacity rfl
      exact h capacity (by simp)
    · intro capacity hmem
      exact h capacity (List.mem_append_left _ hmem)

/-- The limit in force at each step of a session, in order. -/
def limits (engine : Engine) : List Step → List Nat
  | [] => []
  | s :: rest => engine.cache.capacity :: limits (step engine s).2 rest

theorem size_le_limits {engine : Engine} {bound : Nat} (hsize : engine.cache.size ≤ bound)
    (hbound : 1 ≤ bound) (steps : List Step) :
    (steps.foldl (fun engine s => (step engine s).2) engine).cache.size ≤
      (limits engine steps).foldl max bound := by
  induction steps generalizing engine bound with
  | nil => exact hsize
  | cons s rest ih =>
    have hstep := (effect_step engine s).size_le
    rw [List.foldl_cons, limits, List.foldl_cons]
    exact ih (by omega) (by omega)

/-- What holds of the engine after any steps. -/
theorem state_after (steps : List Step) :
    1 ≤ (after steps).settings.cacheCapacity ∧
      ((after steps).settings.cacheEnabled = false → (after steps).cache.entries = []) ∧
      (after steps).cache.capacity = latestLimit steps ∧
      ((∀ capacity, .setCacheCapacity capacity ∉ steps) →
        (after steps).cache.capacity = (after steps).settings.cacheCapacity) ∧
      (after steps).cache.size ≤ (limits .initial steps).foldl max 1 ∧
      ∀ s : Step, s.Configures →
        ((step (after steps) s).1 = .done ↔ s.settings?.isSome) ∧
        ((step (after steps) s).1 ≠ .done → (step (after steps) s).2 = after steps) := by
  refine ⟨(sound_after steps).capacity_pos, (sound_after steps).empty_of_off,
    capacity_after steps, capacity_after_eq_settings, ?_, ?_⟩
  · exact size_le_limits (Nat.zero_le 1) (Nat.le_refl 1) steps
  · intro s hs
    rcases step_of_configures hs (after steps) with
      ⟨settings, hsettings, hstep⟩ | ⟨hnone, hanswer, hkept⟩
    · simp [hsettings, hstep]
    · simp [hnone, hanswer, hkept]

/-- A session that fills the cache and switches it off, and a host that then asks for a cache that
holds nothing. -/
theorem state_after_off :
    (after [.parse "a=1", .configure ⟨false, 16⟩]).cache.entries = [] ∧
      (after [.parse "a=1", .configure ⟨false, 16⟩]).cache.capacity =
        (after [.parse "a=1", .configure ⟨false, 16⟩]).settings.cacheCapacity ∧
      (step (after [.parse "a=1", .configure ⟨false, 16⟩])
        (.hostConfigure (.dict [(.text "cache_capacity", .int 0)]))).2 =
          after [.parse "a=1", .configure ⟨false, 16⟩] := by
  obtain ⟨-, hoff, -, hlimit, -, hfail⟩ := state_after [.parse "a=1", .configure ⟨false, 16⟩]
  refine ⟨hoff rfl, hlimit (by simp), ?_⟩
  exact (hfail (.hostConfigure (.dict [(.text "cache_capacity", .int 0)])) trivial).2
    (hostRefused_ne_done _)

end Session

end Verdict
