import InfraLint.Proofs.LogSteps

/-!
The level of a set-up, and set-ups that fail. Eight names stand for a level and two for something
that is none; all others are taken for the level of information. A set-up that fails for want of
settings leaves the session as it was. One that fails for its level does so after it has come to
decide on the threshold, and from then on no set-up decides on it.
-/
namespace InfraLint

/-- The levels by their names in capitals. -/
inductive NamesLevel : String → Int → Prop
  | critical : NamesLevel "CRITICAL" 50
  | fatal : NamesLevel "FATAL" 50
  | error : NamesLevel "ERROR" 40
  | warning : NamesLevel "WARNING" 30
  | warn : NamesLevel "WARN" 30
  | info : NamesLevel "INFO" 20
  | debug : NamesLevel "DEBUG" 10
  | notset : NamesLevel "NOTSET" 0

/-- The names in capitals that stand for layouts of lines, where a level should be. -/
inductive NamesLayout : String → Prop
  | standard : NamesLayout "BASIC_FORMAT"
  | byMark : NamesLayout "_STYLES"

section Names

variable {key name : String} {n : Int}

theorem get?_levelNames_of_namesLevel (h : NamesLevel key n) :
    levelNames.get? key = some (.number n) := by
  cases h <;> rfl

/-- What a name stands for is a level exactly if it is the name of one. -/
theorem mem_levelNames {meaning : LevelMeaning} (h : (key, meaning) ∈ levelNames) :
    (∃ n, meaning = .number n ∧ NamesLevel key n) ∨
      (∃ e, meaning.level = .error e) ∧ NamesLayout key := by
  simp only [levelNames, List.mem_cons, Prod.mk.injEq, List.not_mem_nil, or_false] at h
  rcases h with ⟨rfl, rfl⟩ | ⟨rfl, rfl⟩ | ⟨rfl, rfl⟩ | ⟨rfl, rfl⟩ | ⟨rfl, rfl⟩ | ⟨rfl, rfl⟩ |
    ⟨rfl, rfl⟩ | ⟨rfl, rfl⟩ | ⟨rfl, rfl⟩ | ⟨rfl, rfl⟩
  · exact Or.inl ⟨_, rfl, .debug⟩
  · exact Or.inl ⟨_, rfl, .info⟩
  · exact Or.inl ⟨_, rfl, .warning⟩
  · exact Or.inl ⟨_, rfl, .warn⟩
  · exact Or.inl ⟨_, rfl, .error⟩
  · exact Or.inl ⟨_, rfl, .critical⟩
  · exact Or.inl ⟨_, rfl, .fatal⟩
  · exact Or.inl ⟨_, rfl, .notset⟩
  · exact Or.inr ⟨⟨_, rfl⟩, .standard⟩
  · exact Or.inr ⟨⟨_, rfl⟩, .byMark⟩

theorem exists_level_error_iff :
    (∃ e, (levelMeaning name).level = .error e) ↔ NamesLayout (Text.capitals name) := by
  unfold levelMeaning
  constructor
  · rintro ⟨e, he⟩
    cases hfound : levelNames.get? (Text.capitals name) with
    | none =>
      rw [hfound] at he
      exact nomatch he
    | some meaning =>
      rw [hfound] at he
      rcases mem_levelNames (Entries.mem_of_get? hfound) with ⟨n, rfl, _⟩ | ⟨_, hlayout⟩
      · exact nomatch he
      · exact hlayout
  · intro h
    generalize Text.capitals name = key at h
    cases h <;> exact ⟨_, rfl⟩

theorem levelMeaning_eq_number_iff : levelMeaning name = .number n ↔
    NamesLevel (Text.capitals name) n ∨
      n = 20 ∧ (∀ k, ¬ NamesLevel (Text.capitals name) k) ∧ ¬ NamesLayout (Text.capitals name) := by
  unfold levelMeaning
  generalize Text.capitals name = key
  constructor
  · intro hn
    cases hfound : levelNames.get? key with
    | none =>
      rw [hfound] at hn
      obtain rfl := LevelMeaning.number.inj hn
      refine Or.inr ⟨rfl, fun k hk => ?_, fun hlayout => ?_⟩
      · exact nomatch hfound.symm.trans (get?_levelNames_of_namesLevel hk)
      · cases hlayout <;> exact nomatch hfound
    | some meaning =>
      obtain rfl : meaning = .number n := by simpa [hfound] using hn
      rcases mem_levelNames (Entries.mem_of_get? hfound) with ⟨k, hk, hlevel⟩ | ⟨⟨e, he⟩, _⟩
      · obtain rfl := LevelMeaning.number.inj hk
        exact Or.inl hlevel
      · exact nomatch he
  · rintro (hlevel | ⟨rfl, hno, hlayout⟩)
    · rw [get?_levelNames_of_namesLevel hlevel]
      rfl
    · cases hfound : levelNames.get? key with
      | none => rfl
      | some meaning =>
        rcases mem_levelNames (Entries.mem_of_get? hfound) with ⟨k, _, hlevel⟩ | ⟨_, hlayout'⟩
        · exact absurd hlevel (hno k)
        · exact absurd hlayout' hlayout

end Names

namespace Session

variable {s : Session} {level format : Option String} {timestamp : Bool}

/-- Once it has been decided on, the threshold stays. -/
theorem threshold_perform (h : s.log.installed = true) (step : Step) :
    (s.perform step).log.installed = true ∧
      (s.perform step).log.threshold = s.log.threshold := by
  by_cases hsets : step.SetsUp
  · obtain ⟨level, format, timestamp⟩ := hsets
    have hmoves := s.setUpMoves_configureLog level format timestamp
    show (s.configureLog level format timestamp).1.log.installed = true ∧
      (s.configureLog level format timestamp).1.log.threshold = s.log.threshold
    generalize s.configureLog level format timestamp = made at hmoves ⊢
    cases hmoves with
    | unread | restyled => exact ⟨h, rfl⟩
    | first _ hnew | refused _ hnew => exact nomatch h.symm.trans hnew
  · have hmoves := @logMoves_perform s step hsets
    exact ⟨hmoves.installed.trans h, hmoves.threshold⟩

theorem threshold_performAll (h : s.log.installed = true) (steps : List Step) :
    (s.performAll steps).log.installed = true ∧
      (s.performAll steps).log.threshold = s.log.threshold := by
  induction steps generalizing s with
  | nil => exact ⟨h, rfl⟩
  | cons step rest ih =>
    have hstep := threshold_perform h step
    obtain ⟨hinstalled, hthreshold⟩ := ih hstep.1
    exact ⟨hinstalled, hthreshold.trans hstep.2⟩

section Failure

variable {e : SetupError}

/-- How a set-up fails: for want of settings, or with a level that is none on a log that has not
been set up. -/
theorem configureLog_error_cases (h : (s.configureLog level format timestamp).2 = .error e) :
    (∃ l, e = .load l) ∧ (s.configureLog level format timestamp).1 = s ∨
      ∃ c l, e = .level l ∧ s.settings = .ok c ∧ s.log.installed = false ∧
        (levelMeaning (given level c.logging.level)).level = .error l ∧
        (s.configureLog level format timestamp).1 =
          { s with kept := some c, log := { s.log with installed := true } } := by
  have hmoves := s.setUpMoves_configureLog level format timestamp
  generalize s.configureLog level format timestamp = made at hmoves h ⊢
  cases hmoves with
  | unread hs => exact Or.inl ⟨⟨_, (Except.error.inj h).symm⟩, rfl⟩
  | restyled | first => exact nomatch h
  | refused hc hnew he => exact Or.inr ⟨_, _, (Except.error.inj h).symm, hc, hnew, he, rfl⟩

/-- After a failure for the level a set-up has the effect that it would have had without that
failure, except on the threshold. -/
theorem configureLog_after_failure {c : Settings} (hc : s.settings = .ok c)
    (hnew : s.log.installed = false) {s' : Session} {n : Int}
    (h : s.configureLog level format timestamp = (s', .ok n)) :
    { s with kept := some c, log := { s.log with installed := true } }.configureLog
        level format timestamp =
      ({ s' with log := { s'.log with threshold := s.log.threshold } },
        .ok s.log.threshold) := by
  have hkept : { s with kept := some c, log := { s.log with installed := true } }.settings =
      .ok c := rfl
  rw [configureLog_of_installed hkept rfl]
  rcases (levelMeaning (given level c.logging.level)).number_or_error with ⟨k, hk⟩ | ⟨l, hl⟩
  · rw [configureLog_of_number hc hnew hk] at h
    obtain ⟨rfl, _⟩ := Prod.mk.inj h
    rfl
  · rw [configureLog_of_no_number hc hnew hl] at h
    exact nomatch congrArg Prod.snd h

/-- What a set-up that fails does. If it fails as settings cannot be read, it does nothing. It
fails otherwise only with the name of a layout on a log that has not been set up; then it leaves
threshold and style alone, but no step that comes later decides on the threshold, and the set-ups
that come later do everything else that they would have done. -/
theorem configureLog_fails (h : (s.configureLog level format timestamp).2 = .error e) :
    (∃ l, e = .load l) ∧ (s.configureLog level format timestamp).1 = s ∨
      ∃ c l, e = .level l ∧ s.settings = .ok c ∧ s.log.installed = false ∧
        NamesLayout (Text.capitals (given level c.logging.level)) ∧
        (s.configureLog level format timestamp).1 =
          { s with kept := some c, log := { s.log with installed := true } } ∧
        (∀ steps, ((s.configureLog level format timestamp).1.performAll steps).log.threshold =
          s.log.threshold) ∧
        ∀ level' format' timestamp' s' n,
          s.configureLog level' format' timestamp' = (s', .ok n) →
          (s.configureLog level format timestamp).1.configureLog level' format' timestamp' =
            ({ s' with log := { s'.log with threshold := s.log.threshold } },
              .ok s.log.threshold) := by
  rcases configureLog_error_cases h with hload | ⟨c, l, he, hc, hnew, hlevel, heq⟩
  · exact Or.inl hload
  · refine Or.inr ⟨c, l, he, hc, hnew, exists_level_error_iff.mp ⟨l, hlevel⟩, heq, ?_, ?_⟩
    · intro steps
      rw [heq]
      exact (threshold_performAll (by rfl) steps).2
    · intro level' format' timestamp' s' n hok
      rw [heq]
      exact configureLog_after_failure hc hnew hok

theorem configureLog_fails_for_a_layout :
    (start.configureLog (some "basic_format") none false).2 =
        .error (.level (.unknown percentLayout)) ∧
      ((start.configureLog (some "basic_format") none false).1.performAll
        [.configureLog (some "DEBUG") none false]).log.threshold = 30 := by
  have hfails : (start.configureLog (some "basic_format") none false).2 =
      .error (.level (.unknown percentLayout)) := by
    with_unfolding_all rfl
  rcases configureLog_fails hfails with ⟨⟨l, hl⟩, _⟩ | ⟨_, _, _, _, _, _, _, hthreshold, _⟩
  · exact nomatch hl
  · exact ⟨hfails, hthreshold _⟩

end Failure

/-- On a log that has not been set up the outcome of a set-up is what the level stands for. -/
theorem configureLog_of_new {c : Settings} (hc : s.settings = .ok c)
    (hnew : s.log.installed = false) :
    ((∃ e, (s.configureLog level format timestamp).2 = .error e) ↔
        ∃ e, (levelMeaning (given level c.logging.level)).level = .error e) ∧
      (∀ n, (s.configureLog level format timestamp).2 = .ok n ↔
        levelMeaning (given level c.logging.level) = .number n) ∧
      ∀ n, (s.configureLog level format timestamp).2 = .ok n →
        (s.configureLog level format timestamp).1.log.threshold = n := by
  rcases (levelMeaning (given level c.logging.level)).number_or_error with ⟨k, hk⟩ | ⟨l, hl⟩
  · rw [configureLog_of_number hc hnew hk, hk]
    refine ⟨⟨nofun, nofun⟩, fun n => ⟨?_, ?_⟩, fun n h => Except.ok.inj h⟩
    · intro h
      exact congrArg _ (Except.ok.inj h)
    · intro h
      exact congrArg _ (LevelMeaning.number.inj h)
  · rw [configureLog_of_no_number hc hnew hl]
    refine ⟨⟨fun _ => ⟨l, hl⟩, fun _ => ⟨_, rfl⟩⟩, fun n => ⟨nofun, fun hn => ?_⟩, nofun⟩
    rw [hn] at hl
    exact nomatch hl

/-- With settings, and on a log that has not been set up, a name that is given as the level or in
the settings fails exactly if it stands for a layout. Otherwise the threshold becomes the level
that the name stands for, and that of information if it stands for none. -/
theorem configureLog_of_name {c : Settings} (hc : s.settings = .ok c)
    (hnew : s.log.installed = false) {name : String} (hname : name ≠ "")
    (hlevel : level = some name ∨ (level = none ∨ level = some "") ∧ c.logging.level = name) :
    ((∃ e, (s.configureLog level format timestamp).2 = .error e) ↔
        NamesLayout (Text.capitals name)) ∧
      (∀ n, (s.configureLog level format timestamp).2 = .ok n ↔
        NamesLevel (Text.capitals name) n ∨ n = 20 ∧
          (∀ k, ¬ NamesLevel (Text.capitals name) k) ∧ ¬ NamesLayout (Text.capitals name)) ∧
      ∀ n, (s.configureLog level format timestamp).2 = .ok n →
        (s.configureLog level format timestamp).1.log.threshold = n := by
  have hgiven : given level c.logging.level = name := by
    rcases hlevel with rfl | ⟨rfl | rfl, hsettings⟩
    · unfold given
      split <;> simp_all
    · exact hsettings
    · exact hsettings
  obtain ⟨hfails, hsucceeds, hsets⟩ :=
    @configureLog_of_new s level format timestamp c hc hnew
  rw [hgiven] at hfails
  refine ⟨hfails.trans exists_level_error_iff, fun n => ?_, hsets⟩
  rw [hsucceeds n, hgiven]
  exact levelMeaning_eq_number_iff

theorem configureLog_of_name_sample :
    start.settings = .ok ⟨.standard, .standard⟩ ∧ start.log.installed = false ∧
      (start.configureLog (some "warn") none false).1.log.threshold = 30 ∧
      ∃ e, (start.configureLog (some "_styles") none false).2 = .error e := by
  have hc : start.settings = .ok ⟨.standard, .standard⟩ := by with_unfolding_all rfl
  have hwarn : NamesLevel (Text.capitals "warn") 30 := by
    rw [show Text.capitals "warn" = "WARN" by decide +kernel]
    exact .warn
  have hstyles : NamesLayout (Text.capitals "_styles") := by
    rw [show Text.capitals "_styles" = "_STYLES" by decide +kernel]
    exact .byMark
  obtain ⟨_, hok, hthreshold⟩ := @configureLog_of_name _ (some "warn") none false _ hc rfl "warn"
    (by decide) (Or.inl rfl)
  obtain ⟨hfails, _⟩ := @configureLog_of_name _ (some "_styles") none false _ hc rfl "_styles"
    (by decide) (Or.inl rfl)
  exact ⟨hc, rfl, hthreshold 30 ((hok 30).mpr (Or.inl hwarn)), hfails.mpr hstyles⟩

end Session

end InfraLint
