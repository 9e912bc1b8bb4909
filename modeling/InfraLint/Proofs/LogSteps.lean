import InfraLint.Proofs.SettingsHistory

/-!
What the steps of a session do to its log. A set-up that does not fail chooses the style and, if
it is the first, the threshold. Any other step leaves both alone; it opens a logger, or it calls
some, which come into use, or it does nothing to them.
-/
namespace InfraLint

/-- A name stands for a level, or it is found out that it does not. -/
theorem LevelMeaning.number_or_error (meaning : LevelMeaning) :
    (∃ n, meaning = .number n) ∨ ∃ e, meaning.level = .error e := by
  cases meaning with
  | number n => exact Or.inl ⟨n, rfl⟩
  | text s => exact Or.inr ⟨_, rfl⟩
  | other shown => exact Or.inr ⟨_, rfl⟩

theorem Logger.kept_ofName (name : Option String) : (Logger.ofName name).kept = none := by
  unfold ofName
  split <;> rfl

namespace Session

/-- The step sets the log up. -/
inductive Step.SetsUp : Step → Prop
  | configureLog (level format : Option String) (timestamp : Bool) :
      SetsUp (.configureLog level format timestamp)

/-- In the session the step calls the logger of index `i`: it passes an event to it, even if the
event cannot be made or is below the threshold. -/
inductive Step.Calls (s : Session) (i : Nat) : Step → Prop
  | write (event : Except NameClash Event) (hi : i < s.log.loggers.length) :
      Calls s i (.write i event)
  | analyze {rule model : Nat} {r : Rule} {m : Model} {e : Event} (hr : s.rules[rule]? = some r)
      (hm : s.models[model]? = some m) (he : (i, e) ∈ (r.analyze m).notes.filterMap RuleNote.event?)
      (hi : i < s.log.loggers.length) : Calls s i (.analyze rule model)
  | audit {model : Nat} {m : Model} {inferred : DependencyMap} {e : Event}
      (hm : s.models[model]? = some m)
      (he : (i, e) ∈ (Redundancy.audit m inferred).notes.filterMap Note.event?)
      (hi : i < s.log.loggers.length) : Calls s i (.audit model inferred)

variable {s : Session}

theorem Step.Calls.lt {i : Nat} {step : Step} (h : step.Calls s i) :
    i < s.log.loggers.length := by
  cases h with
  | write event hi => exact hi
  | analyze hr hm he hi => exact hi
  | audit hm he hi => exact hi

/-- All that a step that is no set-up can do to the log. -/
inductive LogMoves (s : Session) (step : Step) : EventLog → Prop
  | aside (context : Entries Datum) (hno : ∀ i, ¬ step.Calls s i) :
      LogMoves s step { s.log with context }
  | opened (name : Option String) (hno : ∀ i, ¬ step.Calls s i) :
      LogMoves s step (s.log.openLogger name).2
  | used (indices : List Nat) (hused : s.log.Ready → ∀ i, i < s.log.loggers.length →
      (i ∈ indices ↔ step.Calls s i)) : LogMoves s step (s.log.touchAll indices)

theorem LogMoves.stay {step : Step} (hno : ∀ i, ¬ step.Calls s i) : s.LogMoves step s.log :=
  .aside s.log.context hno

private theorem logMoves_write (logger : Nat) (event : Except NameClash Event) :
    s.LogMoves (.write logger event) (s.log.touch logger) := by
  refine .used [logger] fun _ i hi => ?_
  rw [List.mem_singleton]
  constructor
  · rintro rfl
    exact .write event hi
  · intro h
    cases h
    rfl

/-- The indices of the loggers that some events go to. -/
private theorem mem_map_fst {events : List (Nat × Event)} {i : Nat} :
    i ∈ events.map Prod.fst ↔ ∃ e, (i, e) ∈ events := by
  simp

/-- Passing events to the log is calling the loggers that they go to. -/
private theorem logMoves_play {ν : Type} {event? : ν → Option (Nat × Event)}
    (hevents : ∀ n i e, event? n = some (i, e) → ∀ style : Style, style.TakesAll e.fields)
    {step : Step} {notes : List ν}
    (hcalls : ∀ i, i < s.log.loggers.length →
      ((∃ e, (i, e) ∈ notes.filterMap event?) ↔ step.Calls s i)) :
    s.LogMoves step (s.log.play event? notes).log := by
  by_cases hready : s.log.Ready
  · rw [hready.play_log hevents]
    exact .used _ fun _ i hi => mem_map_fst.trans (hcalls i hi)
  · obtain ⟨touched, htouched⟩ := EventLog.exists_touchAll_of_play notes
    rw [htouched]
    exact .used touched fun h => absurd h hready

private theorem logMoves_analyze (rule model : Nat) :
    s.LogMoves (.analyze rule model) (s.perform (.analyze rule model)).log := by
  have hno : ¬ ((∃ r, s.rules[rule]? = some r) ∧ ∃ m, s.models[model]? = some m) →
      s.LogMoves (.analyze rule model) s.log := by
    refine fun hnone => .stay fun i h => ?_
    cases h with
    | analyze hr hm => exact hnone ⟨⟨_, hr⟩, _, hm⟩
  cases hr : s.rules[rule]? with
  | none =>
    have hstay : s.perform (.analyze rule model) = s := by simp [perform, analyze, hr]
    rw [hstay]
    exact hno (by simp [hr])
  | some r =>
    cases hm : s.models[model]? with
    | none =>
      have hstay : s.perform (.analyze rule model) = s := by simp [perform, analyze, hr, hm]
      rw [hstay]
      exact hno (by simp [hm])
    | some m =>
      have hlog : (s.perform (.analyze rule model)).log =
          (s.log.play RuleNote.event? (r.analyze m).notes).log := by
        simp [perform, analyze, hr, hm]
      rw [hlog]
      refine logMoves_play RuleNote.takesAll fun i hi => ⟨?_, ?_⟩
      · rintro ⟨e, he⟩
        exact .analyze hr hm he hi
      · intro h
        cases h with
        | analyze hr' hm' he =>
          obtain rfl := Option.some.inj (hr.symm.trans hr')
          obtain rfl := Option.some.inj (hm.symm.trans hm')
          exact ⟨_, he⟩

private theorem logMoves_audit (model : Nat) (inferred : DependencyMap) :
    s.LogMoves (.audit model inferred) (s.perform (.audit model inferred)).log := by
  cases hm : s.models[model]? with
  | none =>
    have hstay : s.perform (.audit model inferred) = s := by simp [perform, audit, hm]
    rw [hstay]
    refine .stay fun i h => ?_
    cases h with
    | audit hm' => cases hm.symm.trans hm'
  | some m =>
    have hlog : (s.perform (.audit model inferred)).log =
        (s.log.play Note.event? (Redundancy.audit m inferred).notes).log := by
      simp [perform, audit, hm]
    rw [hlog]
    refine logMoves_play Note.takesAll fun i hi => ⟨?_, ?_⟩
    · rintro ⟨e, he⟩
      exact .audit hm he hi
    · intro h
      cases h with
      | audit hm' he =>
        obtain rfl := Option.some.inj (hm.symm.trans hm')
        exact ⟨_, he⟩

theorem logMoves_perform {step : Step} (h : ¬ step.SetsUp) :
    s.LogMoves step (s.perform step).log := by
  have hstay : ∀ {step : Step}, (∀ i, ¬ step.Calls s i) → (s.perform step).log = s.log →
      s.LogMoves step (s.perform step).log := by
    intro step hno hlog
    rw [hlog]
    exact .stay hno
  cases step with
  | assignAll | forgetSettings => exact .stay nofun
  | loadSettings =>
    obtain ⟨kept, hkept⟩ := s.keep_eq s.settings
    exact hstay nofun ((congrArg Session.log hkept).trans rfl)
  | configureLog level format timestamp => exact absurd (.configureLog level format timestamp) h
  | setVariable name value _ => exact .aside _ nofun
  | clearVariables => exact .aside _ nofun
  | openLogger name => exact .opened name nofun
  | write logger event =>
    show s.LogMoves _ (s.log.write logger event).2
    rw [EventLog.write_snd]
    exact logMoves_write logger event
  | addModel program =>
    obtain ⟨made, heq⟩ := s.addModel_eq program
    exact hstay nofun ((congrArg Session.log heq).trans rfl)
  | addDraft d =>
    obtain ⟨made, heq⟩ := s.addDraft_eq d
    exact hstay nofun ((congrArg Session.log heq).trans rfl)
  | bind model node symbol =>
    obtain ⟨models, heq, _⟩ := s.bind_eq model node symbol
    exact hstay nofun ((congrArg Session.log heq).trans rfl)
  | declare model node =>
    obtain ⟨models, heq, _⟩ := s.declare_eq model node
    exact hstay nofun ((congrArg Session.log heq).trans rfl)
  | addRedundancyRule provider own =>
    obtain ⟨kept, made, heq, _⟩ :=
      s.addRule_eq Rule.redundancyTitle (.redundantEntries provider) own
    exact hstay nofun ((congrArg Session.log heq).trans rfl)
  | addResourceRule title own =>
    obtain ⟨kept, made, heq, _⟩ := s.addRule_eq title .everyResource own
    exact hstay nofun ((congrArg Session.log heq).trans rfl)
  | analyze rule model => exact logMoves_analyze rule model
  | audit model inferred => exact logMoves_audit model inferred

namespace LogMoves

variable {step : Step} {log : EventLog}

theorem installed (h : s.LogMoves step log) : log.installed = s.log.installed := by
  cases h with
  | aside | opened => rfl
  | used indices => exact s.log.touchAll_installed indices

theorem threshold (h : s.LogMoves step log) : log.threshold = s.log.threshold := by
  cases h with
  | aside | opened => rfl
  | used indices => exact s.log.touchAll_threshold indices

theorem style (h : s.LogMoves step log) : log.style = s.log.style := by
  cases h with
  | aside | opened => rfl
  | used indices => exact s.log.touchAll_style indices

/-- A logger that is called comes into use. -/
theorem called (h : s.LogMoves step log) (hready : s.log.Ready) {i : Nat} {logger : Logger}
    (hlogger : s.log.loggers[i]? = some logger) (hcalls : step.Calls s i) :
    log.loggers[i]? = some (s.log.settle logger) := by
  cases h with
  | aside context hno => exact absurd hcalls (hno i)
  | opened name hno => exact absurd hcalls (hno i)
  | used indices hused =>
    rw [s.log.getElem?_touchAll, hlogger, Option.map_some,
      if_pos ((hused hready i hcalls.lt).mpr hcalls)]

theorem uncalled (h : s.LogMoves step log) (hready : s.log.Ready) {i : Nat} {logger : Logger}
    (hlogger : s.log.loggers[i]? = some logger) (hno : ¬ step.Calls s i) :
    log.loggers[i]? = some logger := by
  have hlt := (List.getElem?_eq_some_iff.mp hlogger).1
  cases h with
  | aside => exact hlogger
  | opened name => exact (List.getElem?_append_left hlt).trans hlogger
  | used indices hused =>
    rw [s.log.getElem?_touchAll, hlogger, Option.map_some,
      if_neg fun hmem => hno ((hused hready i hlt).mp hmem)]

/-- A logger that was not there before has just been opened. -/
theorem exists_name (h : s.LogMoves step log) {i : Nat} {logger : Logger}
    (hnone : s.log.loggers[i]? = none) (hlogger : log.loggers[i]? = some logger) :
    ∃ name, logger = .ofName name := by
  cases h with
  | aside => exact nomatch hnone.symm.trans hlogger
  | opened name =>
    have hlogger : (s.log.loggers ++ [.ofName name])[i]? = some logger := hlogger
    rw [List.getElem?_append_right (List.getElem?_eq_none_iff.mp hnone)] at hlogger
    exact ⟨name, List.mem_singleton.mp (List.mem_of_getElem? hlogger)⟩
  | used indices =>
    rw [s.log.getElem?_touchAll, hnone] at hlogger
    exact nomatch hlogger

/-- A logger stays what it is, apart from the style that it keeps. -/
theorem logger_kept (h : s.LogMoves step log) {i : Nat} {logger : Logger}
    (hlogger : s.log.loggers[i]? = some logger) :
    ∃ kept, log.loggers[i]? = some { logger with kept } := by
  have hlt := (List.getElem?_eq_some_iff.mp hlogger).1
  cases h with
  | aside => exact ⟨logger.kept, hlogger⟩
  | opened => exact ⟨logger.kept, (List.getElem?_append_left hlt).trans hlogger⟩
  | used indices =>
    rw [s.log.getElem?_touchAll, hlogger, Option.map_some]
    split
    · obtain ⟨kept, hkept⟩ := s.log.settle_eq logger
      exact ⟨kept, congrArg some hkept⟩
    · exact ⟨logger.kept, rfl⟩

end LogMoves

/-- The style that a set-up chooses with some settings. -/
def chosenStyle (c : Settings) (format : Option String) (timestamp : Bool) : Style :=
  .chosen (if given format c.logging.format.word = LogFormat.json.word then .json else .console)
    timestamp

variable {c : Settings}

theorem configureLog_of_installed (hc : s.settings = .ok c) (h : s.log.installed = true)
    (level format : Option String) (timestamp : Bool) :
    s.configureLog level format timestamp =
      ({ s with kept := some c, log := { s.log with style := chosenStyle c format timestamp } },
        .ok s.log.threshold) := by
  unfold configureLog loadSettings
  simp only [hc, keep, EventLog.configure_of_installed h]
  rfl

theorem configureLog_of_number (hc : s.settings = .ok c) (h : s.log.installed = false)
    {level : Option String} {n : Int}
    (hn : levelMeaning (given level c.logging.level) = .number n) (format : Option String)
    (timestamp : Bool) :
    s.configureLog level format timestamp =
      ({ s with
        kept := some c
        log := { s.log with
          installed := true, threshold := n, style := chosenStyle c format timestamp } },
        .ok n) := by
  unfold configureLog loadSettings
  simp only [hc, keep, EventLog.configure, EventLog.install, h, hn, LevelMeaning.level]
  rfl

/-- A level that is none is found out only after the set-up has come to decide on the threshold. -/
theorem configureLog_of_no_number (hc : s.settings = .ok c) (h : s.log.installed = false)
    {level : Option String} {e : LevelError}
    (he : (levelMeaning (given level c.logging.level)).level = .error e)
    (format : Option String) (timestamp : Bool) :
    s.configureLog level format timestamp =
      ({ s with kept := some c, log := { s.log with installed := true } }, .error (.level e)) := by
  unfold configureLog loadSettings
  simp only [hc, keep, EventLog.configure, EventLog.install, h, he]
  rfl

/-- All that can come of a set-up: the settings cannot be read, or it is not the first one, or it
is the first one with a level or with something that is none. -/
inductive SetUpMoves (s : Session) (level format : Option String) (timestamp : Bool) :
    Session × Except SetupError Int → Prop
  | unread {e : LoadError} (hs : s.settings = .error e) :
      SetUpMoves s level format timestamp (s, .error (.load e))
  | restyled {c : Settings} (hc : s.settings = .ok c) (h : s.log.installed = true) :
      SetUpMoves s level format timestamp
        ({ s with kept := some c, log := { s.log with style := chosenStyle c format timestamp } },
          .ok s.log.threshold)
  | first {c : Settings} {n : Int} (hc : s.settings = .ok c) (h : s.log.installed = false)
      (hn : levelMeaning (given level c.logging.level) = .number n) :
      SetUpMoves s level format timestamp
        ({ s with
          kept := some c
          log := { s.log with
            installed := true, threshold := n, style := chosenStyle c format timestamp } },
          .ok n)
  | refused {c : Settings} {e : LevelError} (hc : s.settings = .ok c) (h : s.log.installed = false)
      (he : (levelMeaning (given level c.logging.level)).level = .error e) :
      SetUpMoves s level format timestamp
        ({ s with kept := some c, log := { s.log with installed := true } }, .error (.level e))

theorem setUpMoves_configureLog (s : Session) (level format : Option String) (timestamp : Bool) :
    s.SetUpMoves level format timestamp (s.configureLog level format timestamp) := by
  cases hs : s.settings with
  | error e =>
    rw [configureLog_of_no_settings hs]
    exact .unread hs
  | ok c =>
    cases h : s.log.installed with
    | true =>
      rw [configureLog_of_installed hs h]
      exact .restyled hs h
    | false =>
      rcases (levelMeaning (given level c.logging.level)).number_or_error with ⟨n, hn⟩ | ⟨e, he⟩
      · rw [configureLog_of_number hs h hn]
        exact .first hs h hn
      · rw [configureLog_of_no_number hs h he]
        exact .refused hs h he

theorem SetUpMoves.loggers {level format : Option String} {timestamp : Bool}
    {made : Session × Except SetupError Int} (h : s.SetUpMoves level format timestamp made) :
    made.1.log.loggers = s.log.loggers := by
  cases h <;> rfl

theorem logger_perform {i : Nat} {logger : Logger} (hlogger : s.log.loggers[i]? = some logger)
    (step : Step) : ∃ kept, (s.perform step).log.loggers[i]? = some { logger with kept } := by
  by_cases hsets : step.SetsUp
  · obtain ⟨level, format, timestamp⟩ := hsets
    have hsame := (s.setUpMoves_configureLog level format timestamp).loggers
    exact ⟨logger.kept, (congrArg (·[i]?) hsame).trans hlogger⟩
  · exact (logMoves_perform hsets).logger_kept hlogger

theorem logger_performAll {i : Nat} {logger : Logger} (hlogger : s.log.loggers[i]? = some logger)
    (steps : List Step) :
    ∃ kept, (s.performAll steps).log.loggers[i]? = some { logger with kept } := by
  induction steps generalizing s logger with
  | nil => exact ⟨logger.kept, hlogger⟩
  | cons step rest ih =>
    obtain ⟨kept, hstep⟩ := logger_perform hlogger step
    obtain ⟨kept', hrest⟩ := ih hstep
    exact ⟨kept', hrest⟩

end Session

end InfraLint
