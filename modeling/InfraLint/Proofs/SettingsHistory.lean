import InfraLint.Proofs.AnalysisHistory
import Mathlib.Data.List.Induction

/-!
Where the settings of a session come from. A step that needs them reads the environment only if
none are kept, and keeps what it could read; a step that fails keeps nothing. So the settings are
those that the environment gave at the first successful reading since they were last forgotten.
Main statement: this, for any sequence of steps, and that a rule keeps the level and the place of
its documentation with which it was made.
-/
namespace InfraLint

/-- A title under which no rule can be made. -/
theorem RuleTitle.exists_validate_error_iff {t : RuleTitle} :
    (∃ e, t.validate = .error e) ↔ t.code = "" ∨ t.template = "" := by
  unfold validate
  by_cases hcode : t.code = ""
  · simp [hcode]
  · by_cases htemplate : t.template = "" <;> simp [hcode, htemplate]

namespace Session

/-- The step needs the settings of the session. A rule that is made with its own ones does not. -/
inductive Step.Reads : Step → Prop
  | loadSettings : Reads .loadSettings
  | configureLog (level format : Option String) (timestamp : Bool) :
      Reads (.configureLog level format timestamp)
  | addRedundancyRule (provider : Provider) : Reads (.addRedundancyRule provider none)
  | addResourceRule (title : RuleTitle) (h : title.validate = .ok ()) :
      Reads (.addResourceRule title none)

/-- In the session the step fails as settings cannot be read. -/
inductive Step.Fails (s : Session) (e : LoadError) : Step → Prop
  | loadSettings (h : s.loadSettings.2 = .error e) : Fails s e .loadSettings
  | configureLog (level format : Option String) (timestamp : Bool)
      (h : (s.configureLog level format timestamp).2 = .error (.load e)) :
      Fails s e (.configureLog level format timestamp)
  | addRedundancyRule (provider : Provider) (own : Option RuleSettings)
      (h : (s.addRule Rule.redundancyTitle (.redundantEntries provider) own).2 =
        .error (.load e)) :
      Fails s e (.addRedundancyRule provider own)
  | addResourceRule (title : RuleTitle) (own : Option RuleSettings)
      (h : (s.addRule title .everyResource own).2 = .error (.load e)) :
      Fails s e (.addResourceRule title own)

/-- After the steps, the settings are known from the step of index `k`: it needed them and did not
fail, they have not been forgotten since, and after each such step before it they had been. -/
structure FirstRead (steps : List Step) (k : Nat) : Prop where
  reads : ∃ step, steps[k]? = some step ∧ step.Reads
  succeeds : ∀ step e, steps[k]? = some step → ¬ step.Fails (after (steps.take k)) e
  remembered : ∀ i, k < i → steps[i]? ≠ some .forgetSettings
  first : ∀ j < k, ∀ step, steps[j]? = some step → step.Reads →
    (∀ e, ¬ step.Fails (after (steps.take j)) e) →
    ∃ i, j < i ∧ i < k ∧ steps[i]? = some .forgetSettings

variable {s : Session}

theorem addRule_of_incomplete {title : RuleTitle} {e : TitleError} (h : title.validate = .error e)
    (s : Session) (check : Check) (own : Option RuleSettings) :
    s.addRule title check own = (s, .error (.incomplete e)) := by
  unfold addRule
  rw [h]

theorem addRule_of_own {title : RuleTitle} (h : title.validate = .ok ()) (s : Session)
    (check : Check) (settings : RuleSettings) :
    s.addRule title check (some settings) =
      ({ s with rules := s.rules ++ [⟨title, check, settings, []⟩] }, .ok s.rules.length) := by
  unfold addRule
  rw [h]
  rfl

theorem addRule_of_settings {title : RuleTitle} (h : title.validate = .ok ()) {c : Settings}
    (hc : s.settings = .ok c) (check : Check) :
    s.addRule title check none =
      ({ s with kept := some c, rules := s.rules ++ [⟨title, check, c.rule, []⟩] },
        .ok s.rules.length) := by
  unfold addRule loadSettings
  rw [h, hc]
  rfl

theorem addRule_of_no_settings {title : RuleTitle} (h : title.validate = .ok ()) {e : LoadError}
    (he : s.settings = .error e) (check : Check) :
    s.addRule title check none = (s, .error (.load e)) := by
  unfold addRule loadSettings
  rw [h, he]
  rfl

theorem addRule_fails_iff {title : RuleTitle} {check : Check} {own : Option RuleSettings}
    {e : LoadError} : (s.addRule title check own).2 = .error (.load e) ↔
      title.validate = .ok () ∧ own = none ∧ s.settings = .error e := by
  cases hvalid : title.validate with
  | error e' => simp [addRule_of_incomplete hvalid]
  | ok u =>
    cases own with
    | some settings => simp [addRule_of_own hvalid]
    | none =>
      cases hs : s.settings with
      | ok c => simp [addRule_of_settings hvalid hs]
      | error e' => simp [addRule_of_no_settings hvalid hs]

theorem configureLog_of_settings {c : Settings} (hc : s.settings = .ok c)
    (level format : Option String) (timestamp : Bool) :
    (s.configureLog level format timestamp).1.kept = some c ∧
      ∀ e, (s.configureLog level format timestamp).2 ≠ .error (.load e) := by
  unfold configureLog loadSettings
  simp only [hc, keep]
  split <;> simp

theorem configureLog_of_no_settings {e : LoadError} (he : s.settings = .error e)
    (level format : Option String) (timestamp : Bool) :
    s.configureLog level format timestamp = (s, .error (.load e)) := by
  unfold configureLog loadSettings
  simp only [he, keep]

theorem kept_of_settings_error {e : LoadError} (he : s.settings = .error e) :
    s.kept = none ∧ Settings.load s.environment = .error e := by
  unfold settings at he
  cases hkept : s.kept with
  | none => exact ⟨rfl, by simpa [hkept] using he⟩
  | some c => simp [hkept] at he

/-- What can be read is kept, and nothing else. -/
theorem kept_of_reads {step : Step} (h : step.Reads) :
    (s.perform step).kept = s.settings.toOption := by
  cases hs : s.settings with
  | ok c =>
    cases h with
    | loadSettings => exact congrArg Session.kept (congrArg s.keep hs)
    | configureLog level format timestamp => exact (configureLog_of_settings hs _ _ _).1
    | addRedundancyRule provider =>
      exact congrArg (kept ∘ Prod.fst) (addRule_of_settings (by decide) hs _)
    | addResourceRule title hvalid =>
      exact congrArg (kept ∘ Prod.fst) (addRule_of_settings hvalid hs _)
  | error e =>
    -- A step that fails leaves the session as it was.
    have hstay : s.perform step = s := by
      cases h with
      | loadSettings => exact congrArg s.keep hs
      | configureLog level format timestamp =>
        exact congrArg Prod.fst (configureLog_of_no_settings hs _ _ _)
      | addRedundancyRule provider =>
        exact congrArg Prod.fst (addRule_of_no_settings (by decide) hs _)
      | addResourceRule title hvalid =>
        exact congrArg Prod.fst (addRule_of_no_settings hvalid hs _)
    rw [hstay]
    exact (kept_of_settings_error hs).1

theorem fails_iff {step : Step} {e : LoadError} :
    step.Fails s e ↔ step.Reads ∧ s.settings = .error e := by
  constructor
  · intro h
    cases h with
    | loadSettings h => exact ⟨.loadSettings, h⟩
    | configureLog level format timestamp h =>
      refine ⟨.configureLog level format timestamp, ?_⟩
      cases hs : s.settings with
      | ok c => exact absurd h ((configureLog_of_settings hs _ _ _).2 e)
      | error e' =>
        rw [configureLog_of_no_settings hs] at h
        obtain rfl := SetupError.load.inj (Except.error.inj h)
        rfl
    | addRedundancyRule provider own h =>
      obtain ⟨_, rfl, hs⟩ := addRule_fails_iff.mp h
      exact ⟨.addRedundancyRule provider, hs⟩
    | addResourceRule title own h =>
      obtain ⟨hvalid, rfl, hs⟩ := addRule_fails_iff.mp h
      exact ⟨.addResourceRule title hvalid, hs⟩
  · rintro ⟨h, hs⟩
    cases h with
    | loadSettings => exact .loadSettings hs
    | configureLog level format timestamp =>
      exact .configureLog level format timestamp
        (congrArg Prod.snd (configureLog_of_no_settings hs level format timestamp))
    | addRedundancyRule provider =>
      exact .addRedundancyRule provider none (addRule_fails_iff.mpr ⟨by decide, rfl, hs⟩)
    | addResourceRule title hvalid =>
      exact .addResourceRule title none (addRule_fails_iff.mpr ⟨hvalid, rfl, hs⟩)

/-- Where no settings are read and none are forgotten, the same are kept. -/
theorem kept_of_not_reads {step : Step} (hreads : ¬ step.Reads) (hforget : step ≠ .forgetSettings) :
    (s.perform step).kept = s.kept := by
  have hrule : ∀ (title : RuleTitle) (check : Check) (own : Option RuleSettings),
      (own = none → title.validate ≠ .ok ()) → (s.addRule title check own).1.kept = s.kept := by
    intro title check own hno
    cases hvalid : title.validate with
    | error e => rw [addRule_of_incomplete hvalid]
    | ok u =>
      cases own with
      | none => exact absurd hvalid (hno rfl)
      | some settings => rw [addRule_of_own hvalid]
  cases step with
  | assignAll | setVariable | clearVariables | openLogger | write => rfl
  | loadSettings => exact absurd .loadSettings hreads
  | forgetSettings => exact absurd rfl hforget
  | configureLog level format timestamp =>
    exact absurd (.configureLog level format timestamp) hreads
  | addModel program =>
    obtain ⟨made, heq⟩ := s.addModel_eq program
    exact (congrArg Session.kept heq).trans rfl
  | addDraft d =>
    obtain ⟨made, heq⟩ := s.addDraft_eq d
    exact (congrArg Session.kept heq).trans rfl
  | bind model node symbol =>
    obtain ⟨models, heq, _⟩ := s.bind_eq model node symbol
    exact (congrArg Session.kept heq).trans rfl
  | declare model node =>
    obtain ⟨models, heq, _⟩ := s.declare_eq model node
    exact (congrArg Session.kept heq).trans rfl
  | addRedundancyRule provider own =>
    refine hrule _ _ own fun hown _ => hreads ?_
    rw [hown]
    exact .addRedundancyRule provider
  | addResourceRule title own =>
    refine hrule title _ own fun hown hvalid => hreads ?_
    rw [hown]
    exact .addResourceRule title hvalid
  | analyze rule model =>
    show ((s.analyze rule model).elim s Prod.fst).kept = s.kept
    unfold analyze
    cases s.rules[rule]? with
    | none => rfl
    | some r => cases s.models[model]? <;> rfl
  | audit model inferred =>
    show ((s.audit model inferred).elim s Prod.fst).kept = s.kept
    unfold audit
    cases s.models[model]? <;> rfl

theorem after_concat (steps : List Step) (step : Step) :
    after (steps ++ [step]) = (after steps).perform step :=
  performAll_append start steps [step]

section History

variable {steps : List Step} {step : Step} {k : Nat}

private theorem concat_cases {j : Nat} {x : Step} (h : (steps ++ [step])[j]? = some x) :
    (j < steps.length ∧ steps[j]? = some x) ∨ (j = steps.length ∧ x = step) := by
  rw [List.getElem?_append] at h
  split at h
  · rename_i hlt
    exact Or.inl ⟨hlt, h⟩
  · obtain ⟨hlt, heq⟩ := List.getElem?_eq_some_iff.mp h
    rw [List.length_singleton] at hlt
    exact Or.inr ⟨by omega, by simpa using heq.symm⟩

private theorem take_concat (hk : k ≤ steps.length) : (steps ++ [step]).take k = steps.take k :=
  List.take_append_of_le_length hk

theorem FirstRead.lt (h : FirstRead steps k) : k < steps.length := by
  obtain ⟨step, hstep, _⟩ := h.reads
  exact (List.getElem?_eq_some_iff.mp hstep).1

/-- The settings stay known from the same step until they are forgotten. -/
theorem FirstRead.concat (h : FirstRead steps k) (hforget : step ≠ .forgetSettings) :
    FirstRead (steps ++ [step]) k where
  reads := by
    obtain ⟨x, hx, hreads⟩ := h.reads
    exact ⟨x, (List.getElem?_append_left h.lt).trans hx, hreads⟩
  succeeds x e hx := by
    rw [take_concat h.lt.le]
    rw [List.getElem?_append_left h.lt] at hx
    exact h.succeeds x e hx
  remembered i hi hlast := by
    rcases concat_cases hlast with ⟨_, hlast⟩ | ⟨_, hlast⟩
    · exact h.remembered i hi hlast
    · exact hforget hlast.symm
  first j hj x hx hreads hok := by
    have hlt : j < steps.length := hj.trans h.lt
    rw [take_concat hlt.le] at hok
    rw [List.getElem?_append_left hlt] at hx
    obtain ⟨i, hji, hik, hi⟩ := h.first j hj x hx hreads hok
    exact ⟨i, hji, hik, (List.getElem?_append_left (hik.trans h.lt)).trans hi⟩

/-- There is at most one such step. -/
theorem FirstRead.eq {l : Nat} (hk : FirstRead steps k) (hl : FirstRead steps l) : k = l := by
  have hle : ∀ {k l : Nat}, FirstRead steps k → FirstRead steps l → ¬ k < l := by
    intro k l hk hl hlt
    obtain ⟨step, hstep, hreads⟩ := hk.reads
    have hok := fun e => hk.succeeds step e hstep
    obtain ⟨i, hki, _, hi⟩ := hl.first k hlt step hstep hreads hok
    exact hk.remembered i hki hi
  exact Nat.le_antisymm (Nat.not_lt.mp (hle hl hk)) (Nat.not_lt.mp (hle hk hl))

/-- What is kept after some steps, and what it means that nothing is. -/
structure Traced (steps : List Step) : Prop where
  kept : ∀ c, (after steps).kept = some c →
    ∃ k, FirstRead steps k ∧ Settings.load (after (steps.take k)).environment = .ok c
  unkept : (after steps).kept = none → ∀ (j : Nat) (step : Step), steps[j]? = some step →
    step.Reads → (∀ e, ¬ step.Fails (after (steps.take j)) e) →
    ∃ i, j < i ∧ steps[i]? = some .forgetSettings

/-- What was known before a step is known after it from the same step. -/
private theorem Traced.known (h : Traced steps) (hforget : step ≠ .forgetSettings) {c : Settings}
    (hc : (after steps).kept = some c) :
    ∃ k, FirstRead (steps ++ [step]) k ∧
      Settings.load (after ((steps ++ [step]).take k)).environment = .ok c := by
  obtain ⟨k, hfirst, hload⟩ := h.kept c hc
  refine ⟨k, hfirst.concat hforget, ?_⟩
  rw [take_concat hfirst.lt.le]
  exact hload

/-- Where nothing was known, all successful readings before a further step have been forgotten. -/
private theorem Traced.unknown (h : Traced steps) (hnone : (after steps).kept = none) {j : Nat}
    (hj : j < steps.length) {x : Step} (hx : (steps ++ [step])[j]? = some x) (hreads : x.Reads)
    (hok : ∀ e, ¬ x.Fails (after ((steps ++ [step]).take j)) e) :
    ∃ i, j < i ∧ i < steps.length ∧ (steps ++ [step])[i]? = some .forgetSettings := by
  rw [take_concat hj.le] at hok
  rw [List.getElem?_append_left hj] at hx
  obtain ⟨i, hji, hi⟩ := h.unkept hnone j x hx hreads hok
  have hlt : i < steps.length := (List.getElem?_eq_some_iff.mp hi).1
  exact ⟨i, hji, hlt, (List.getElem?_append_left hlt).trans hi⟩

/-- The first reading after everything has been forgotten. -/
private theorem Traced.firstRead (h : Traced steps) (hnone : (after steps).kept = none)
    (hreads : step.Reads) {c : Settings} (hc : (after steps).settings = .ok c) :
    FirstRead (steps ++ [step]) steps.length where
  reads := ⟨step, by simp, hreads⟩
  succeeds x e hx hfails := by
    obtain rfl : step = x := by simpa using hx
    rw [List.take_left, fails_iff] at hfails
    exact nomatch hc.symm.trans hfails.2
  remembered i hi hlast := by
    have hlt := (List.getElem?_eq_some_iff.mp hlast).1
    simp only [List.length_append, List.length_singleton] at hlt
    omega
  first j hj x hx hxreads hok := h.unknown hnone hj hx hxreads hok

private theorem Traced.step_forget (steps : List Step) : Traced (steps ++ [.forgetSettings]) where
  kept c hc := by
    rw [after_concat] at hc
    exact nomatch hc
  unkept _ j x hx hreads _ := by
    rcases concat_cases hx with ⟨hj, _⟩ | ⟨_, rfl⟩
    · exact ⟨steps.length, hj, by simp⟩
    · cases hreads

private theorem Traced.step_reads (h : Traced steps) (hreads : step.Reads) :
    Traced (steps ++ [step]) := by
  have hforget : step ≠ .forgetSettings := by
    rintro rfl
    cases hreads
  have hkept : (after (steps ++ [step])).kept = (after steps).settings.toOption := by
    rw [after_concat]
    exact kept_of_reads hreads
  cases hs : (after steps).settings with
  | ok c =>
    rw [hs] at hkept
    refine ⟨fun c' hc' => ?_, fun hnone => nomatch hkept.symm.trans hnone⟩
    obtain rfl : c = c' := Option.some.inj (hkept.symm.trans hc')
    cases hbefore : (after steps).kept with
    | some c' =>
      have hsame : (after steps).settings = .ok c' := by simp [settings, hbefore]
      obtain rfl : c = c' := Except.ok.inj (hs.symm.trans hsame)
      exact h.known hforget hbefore
    | none =>
      have hload : Settings.load (after steps).environment = .ok c := by
        simpa [settings, hbefore] using hs
      refine ⟨steps.length, h.firstRead hbefore hreads hs, ?_⟩
      rw [List.take_left]
      exact hload
  | error e =>
    rw [hs] at hkept
    refine ⟨fun c hc => (nomatch hkept.symm.trans hc), fun _ j x hx hxreads hok => ?_⟩
    rcases concat_cases hx with ⟨hj, _⟩ | ⟨rfl, rfl⟩
    · obtain ⟨i, hji, _, hi⟩ := h.unknown (kept_of_settings_error hs).1 hj hx hxreads hok
      exact ⟨i, hji, hi⟩
    · rw [List.take_left] at hok
      exact absurd (fails_iff.mpr ⟨hreads, hs⟩) (hok e)

private theorem Traced.step_aside (h : Traced steps) (hreads : ¬ step.Reads)
    (hforget : step ≠ .forgetSettings) : Traced (steps ++ [step]) := by
  have hkept : (after (steps ++ [step])).kept = (after steps).kept := by
    rw [after_concat]
    exact kept_of_not_reads hreads hforget
  refine ⟨fun c hc => h.known hforget (hkept.symm.trans hc), fun hnone j x hx hxreads hok => ?_⟩
  rcases concat_cases hx with ⟨hj, _⟩ | ⟨_, rfl⟩
  · obtain ⟨i, hji, _, hi⟩ := h.unknown (hkept.symm.trans hnone) hj hx hxreads hok
    exact ⟨i, hji, hi⟩
  · exact absurd hxreads hreads

theorem traced (steps : List Step) : Traced steps := by
  induction steps using List.reverseRecOn with
  | nil => exact ⟨fun c hc => (nomatch hc), fun _ j x hx => (nomatch hx)⟩
  | append_singleton steps step ih =>
    by_cases hforget : step = .forgetSettings
    · rw [hforget]
      exact .step_forget steps
    · by_cases hreads : step.Reads
      · exact ih.step_reads hreads
      · exact ih.step_aside hreads hforget

/-- Settings are kept exactly if some step is the first that read them, and they are those of the
environment as it was then. -/
theorem kept_after_iff {c : Settings} : (after steps).kept = some c ↔
    ∃ k, FirstRead steps k ∧ Settings.load (after (steps.take k)).environment = .ok c := by
  refine ⟨(traced steps).kept c, ?_⟩
  rintro ⟨k, hfirst, hload⟩
  cases hkept : (after steps).kept with
  | none =>
    obtain ⟨step, hstep, hreads⟩ := hfirst.reads
    obtain ⟨i, hki, hi⟩ := (traced steps).unkept hkept k step hstep hreads
      fun e => hfirst.succeeds step e hstep
    exact absurd hi (hfirst.remembered i hki)
  | some c' =>
    obtain ⟨l, hfirst', hload'⟩ := (traced steps).kept c' hkept
    rw [hfirst'.eq hfirst, hload] at hload'
    exact congrArg some (Except.ok.inj hload').symm

theorem kept_after_eq_none_iff : (after steps).kept = none ↔ ∀ k, ¬ FirstRead steps k := by
  constructor
  · intro hnone k hfirst
    obtain ⟨step, hstep, hreads⟩ := hfirst.reads
    obtain ⟨i, hki, hi⟩ := (traced steps).unkept hnone k step hstep hreads
      fun e => hfirst.succeeds step e hstep
    exact hfirst.remembered i hki hi
  · intro hno
    cases hkept : (after steps).kept with
    | none => rfl
    | some c =>
      obtain ⟨k, hfirst, _⟩ := (traced steps).kept c hkept
      exact absurd hfirst (hno k)

end History

/-- A rule that brings its own settings, or that cannot be made, comes out the same in any
environment and with any settings kept, and leaves both as they are. -/
theorem addRule_aside {title : RuleTitle} {own : Option RuleSettings}
    (h : own.isSome ∨ title.code = "" ∨ title.template = "") (s : Session) (check : Check)
    (environment : Environment) (kept : Option Settings) :
    { s with environment, kept }.addRule title check own =
      ({ (s.addRule title check own).1 with environment, kept },
        (s.addRule title check own).2) := by
  cases hvalid : title.validate with
  | error e => simp only [addRule_of_incomplete hvalid]
  | ok u =>
    have hown : own.isSome := by
      refine h.resolve_right fun hincomplete => ?_
      obtain ⟨e, he⟩ := RuleTitle.exists_validate_error_iff.mpr hincomplete
      exact nomatch hvalid.symm.trans he
    obtain ⟨settings, rfl⟩ := Option.isSome_iff_exists.mp hown
    simp only [addRule_of_own hvalid]

/-- Where a rule's settings come from when it is made. -/
theorem addRule_eq_ok {title : RuleTitle} {check : Check} {own : Option RuleSettings}
    {s' : Session} {i : Nat} (h : s.addRule title check own = (s', .ok i)) :
    ∃ settings, s'.rules[i]? = some ⟨title, check, settings, []⟩ ∧ s'.log = s.log ∧
      (own = some settings ∨ own = none ∧ ∃ c, s.loadSettings.2 = .ok c ∧ settings = c.rule) := by
  cases hvalid : title.validate with
  | error e =>
    rw [addRule_of_incomplete hvalid] at h
    exact nomatch congrArg Prod.snd h
  | ok u =>
    cases own with
    | some settings =>
      rw [addRule_of_own hvalid] at h
      obtain ⟨rfl, hi⟩ := Prod.mk.inj h
      obtain rfl := Except.ok.inj hi
      exact ⟨settings, List.getElem?_concat_length, rfl, Or.inl rfl⟩
    | none =>
      cases hs : s.settings with
      | error e =>
        rw [addRule_of_no_settings hvalid hs] at h
        exact nomatch congrArg Prod.snd h
      | ok c =>
        rw [addRule_of_settings hvalid hs] at h
        obtain ⟨rfl, hi⟩ := Prod.mk.inj h
        obtain rfl := Except.ok.inj hi
        exact ⟨c.rule, List.getElem?_concat_length, rfl, Or.inr ⟨rfl, c, hs, rfl⟩⟩

theorem Moves.ready {step : Step} {s' : Session} (h : s.Moves step s') (hready : s.log.Ready) :
    s'.log.Ready := by
  cases h with
  | aside _ environment kept log hlog => exact hlog
  | joined | bound | ruled => exact hready
  | analyzed rule model r m log hlog => exact hlog

/-- A rule stays what it was when it was made. -/
theorem rule_performAll (hready : s.log.Ready) {i : Nat} {r : Rule} (hr : s.rules[i]? = some r)
    (steps : List Step) :
    ∃ consultations, (s.performAll steps).rules[i]? = some { r with consultations } := by
  induction steps generalizing s r with
  | nil => exact ⟨r.consultations, hr⟩
  | cons step rest ih =>
    have hmoves := moves_perform hready step
    obtain ⟨consultations, hr'⟩ := hmoves.rule_kept hr
    obtain ⟨consultations', hrest⟩ := ih (hmoves.ready hready) hr'
    exact ⟨consultations', hrest⟩

/-- Where nothing is kept, nothing is until a step needs it. -/
theorem kept_performAll_eq_none {steps : List Step} (h : ∀ step ∈ steps, ¬ step.Reads)
    (hnone : s.kept = none) : (s.performAll steps).kept = none := by
  induction steps generalizing s with
  | nil => exact hnone
  | cons step rest ih =>
    refine ih (fun later hlater => h later (List.mem_cons_of_mem _ hlater)) ?_
    by_cases hforget : step = .forgetSettings
    · rw [hforget]
      rfl
    · exact (kept_of_not_reads (h step List.mem_cons_self) hforget).trans hnone

theorem loadSettings_eq_ok_iff {steps : List Step} {c : Settings} :
    (after steps).loadSettings.2 = .ok c ↔ ∃ k, FirstRead (steps ++ [Step.loadSettings]) k ∧
      Settings.load (after ((steps ++ [Step.loadSettings]).take k)).environment = .ok c := by
  rw [← kept_after_iff, after_concat, kept_of_reads Step.Reads.loadSettings]
  show (after steps).settings = .ok c ↔ _
  cases (after steps).settings <;> simp [Except.toOption]

theorem loadSettings_eq_error_iff {steps : List Step} {e : LoadError} :
    (after steps).loadSettings.2 = .error e ↔
      (∀ k, ¬ FirstRead (steps ++ [Step.loadSettings]) k) ∧
        Settings.load (after steps).environment = .error e := by
  rw [← kept_after_eq_none_iff, after_concat, kept_of_reads Step.Reads.loadSettings]
  show (after steps).settings = .error e ↔ _
  constructor
  · intro he
    rw [he]
    exact ⟨rfl, (kept_of_settings_error he).2⟩
  · rintro ⟨hnone, hload⟩
    cases hs : (after steps).settings with
    | ok c =>
      rw [hs] at hnone
      exact nomatch hnone
    | error e' => exact (kept_of_settings_error hs).2.symm.trans hload

/-- The settings of a session after some steps, and those of the rules made in it. -/
structure SettingsKnown (steps : List Step) : Prop where
  /-- Settings are those of the environment as it was at the first successful reading since they
  were last forgotten; this may be the present one. -/
  loaded : ∀ c, (after steps).loadSettings.2 = .ok c ↔
    ∃ k, FirstRead (steps ++ [Step.loadSettings]) k ∧
      Settings.load (after ((steps ++ [Step.loadSettings]).take k)).environment = .ok c
  refused : ∀ e, (after steps).loadSettings.2 = .error e ↔
    (∀ k, ¬ FirstRead (steps ++ [Step.loadSettings]) k) ∧
      Settings.load (after steps).environment = .error e
  /-- After a step that fails nothing is kept, and what is read next is the environment as it has
  become, with or without settings being forgotten in between. -/
  failed : ∀ (step : Step) e, step.Fails (after steps) e →
    (after (steps ++ [step])).kept = none ∧
      ∀ more : List Step, (∀ later ∈ more, ¬ later.Reads) →
        (after (steps ++ step :: more)).loadSettings.2 =
          Settings.load (after (steps ++ step :: more)).environment
  /-- A rule with its own settings, or without a code or a template, has nothing to do with the
  environment and with what is kept. -/
  aside : ∀ (title : RuleTitle) check (own : Option RuleSettings),
    own.isSome ∨ title.code = "" ∨ title.template = "" → ∀ environment kept,
      { after steps with environment, kept }.addRule title check own =
        ({ ((after steps).addRule title check own).1 with environment, kept },
          ((after steps).addRule title check own).2)
  /-- The level of a rule and the place of its documentation are those of the settings with which
  it is made, whatever happens later. -/
  fixed : ∀ title check own s i, (after steps).addRule title check own = (s, .ok i) →
    ∃ settings,
      (own = some settings ∨
        own = none ∧ ∃ c, (after steps).loadSettings.2 = .ok c ∧ settings = c.rule) ∧
      ∀ more, ∃ r, (s.performAll more).rules[i]? = some r ∧ r.level = settings.level ∧
        r.docUri = (Rule.mk title check settings []).docUri

/-- What is known of the settings in a session after any steps. -/
theorem settings_after (steps : List Step) : SettingsKnown steps where
  loaded _ := loadSettings_eq_ok_iff
  refused _ := loadSettings_eq_error_iff
  failed step e h := by
    obtain ⟨hreads, hs⟩ := fails_iff.mp h
    have hnone : ((after steps).perform step).kept = none := by
      rw [kept_of_reads hreads, hs]
      rfl
    refine ⟨(congrArg Session.kept (after_concat steps step)).trans hnone, fun more hmore => ?_⟩
    have hlater := kept_performAll_eq_none hmore hnone
    have hsplit : after (steps ++ step :: more) =
        ((after steps).perform step).performAll more := performAll_append start steps (step :: more)
    rw [hsplit]
    show settings _ = _
    unfold settings
    rw [hlater]
  aside title check own h := addRule_aside h (after steps) check
  fixed title check own s i h := by
    obtain ⟨settings, hr, hlog, hfrom⟩ := addRule_eq_ok h
    have hready : s.log.Ready := by
      rw [hlog]
      exact (sound_after steps).ready
    refine ⟨settings, hfrom, fun more => ?_⟩
    obtain ⟨consultations, hlater⟩ := rule_performAll hready hr more
    exact ⟨_, hlater, rfl, rfl⟩

end Session

end InfraLint
