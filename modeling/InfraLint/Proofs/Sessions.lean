import InfraLint.Proofs.Consultations

/-!
Sessions step by step. What a step can do is said once for the models, once for the rules and
once for the log: models are bound or joined by another, rules only remember consultations or are
joined by another, and the log stays ready. All that holds of a session after any number of steps
follows from these.
-/
namespace InfraLint.Session

/-- What can happen in a session. The variables of the context are set to what can be written in
any style. -/
inductive Step where
  | assignAll (assignments : List (String × Option String))
  | loadSettings
  | forgetSettings
  | configureLog (level format : Option String) (timestamp : Bool)
  | setVariable (name : String) (value : Datum) (h : ∀ style : Style, style.Takes (name, value))
  | clearVariables
  | openLogger (name : Option String)
  | write (logger : Nat) (event : Except NameClash Event)
  | addModel (program : Option Node)
  | addDraft (d : Draft)
  | bind (model : Nat) (node : Option Node) (symbol : Symbol)
  | declare (model : Nat) (node : Option Node)
  | addRedundancyRule (provider : Provider) (own : Option RuleSettings)
  | addResourceRule (title : RuleTitle) (own : Option RuleSettings)
  | analyze (rule model : Nat)
  | audit (model : Nat) (inferred : DependencyMap)

/-- The step settles what a node of the model stands for. -/
inductive Step.Binds : Step → Nat → Prop
  | bind (model : Nat) (node : Option Node) (symbol : Symbol) :
    Binds (.bind model node symbol) model
  | declare (model : Nat) (node : Option Node) : Binds (.declare model node) model

/-- The session after a step, whatever came of it. Models and rules that do not exist cannot be
used. -/
def perform (s : Session) : Step → Session
  | .assignAll assignments => (s.assignAll assignments).1
  | .loadSettings => s.loadSettings.1
  | .forgetSettings => s.forgetSettings
  | .configureLog level format timestamp => (s.configureLog level format timestamp).1
  | .setVariable name value _ => { s with log := s.log.setVariable name value }
  | .clearVariables => { s with log := s.log.clearVariables }
  | .openLogger name => (s.openLogger name).1
  | .write logger event => (s.write logger event).1
  | .addModel program => (s.addModel program).1
  | .addDraft d => (s.addDraft d).1
  | .bind model node symbol => (s.bind model node symbol).elim s Prod.fst
  | .declare model node => (s.declare model node).elim s Prod.fst
  | .addRedundancyRule provider own =>
    (s.addRule Rule.redundancyTitle (.redundantEntries provider) own).1
  | .addResourceRule title own => (s.addRule title .everyResource own).1
  | .analyze rule model => (s.analyze rule model).elim s Prod.fst
  | .audit model inferred => (s.audit model inferred).elim s Prod.fst

/-- The session after some steps. -/
def performAll (s : Session) (steps : List Step) : Session := steps.foldl perform s

/-- A new session after some steps. -/
def after (steps : List Step) : Session := start.performAll steps

theorem performAll_append (s : Session) (first last : List Step) :
    s.performAll (first ++ last) = (s.performAll first).performAll last :=
  List.foldl_append

variable {s : Session}

theorem keep_eq (s : Session) (outcome : Except LoadError Settings) :
    ∃ kept, s.keep outcome = { s with kept } := by
  cases outcome with
  | error e => exact ⟨s.kept, rfl⟩
  | ok settings => exact ⟨some settings, rfl⟩

/-- Setting the log up touches the log and the settings that are kept, and nothing else. -/
theorem configureLog_eq (s : Session) (level format : Option String) (timestamp : Bool) :
    ∃ kept log, (s.configureLog level format timestamp).1 = { s with kept, log } ∧
      (s.log.Ready → log.Ready) := by
  obtain ⟨kept, hkept⟩ := s.keep_eq s.settings
  unfold configureLog loadSettings
  cases hsettings : s.settings with
  | error e =>
    rw [hsettings] at hkept
    exact ⟨kept, s.log, hkept, id⟩
  | ok settings =>
    rw [hsettings] at hkept
    have hready : ∀ {configured : EventLog × Except LevelError Unit} {level format},
        s.log.configure level format timestamp = configured → s.log.Ready →
          configured.1.Ready := by
      rintro _ level format rfl h
      exact h.configure level format timestamp
    simp only [hkept]
    split
    · rename_i log heq
      exact ⟨kept, log, rfl, hready heq⟩
    · rename_i log e heq
      exact ⟨kept, log, rfl, hready heq⟩

/-- Making a rule adds one that has not consulted anybody yet, or none. -/
theorem addRule_eq (s : Session) (title : RuleTitle) (check : Check) (own : Option RuleSettings) :
    ∃ kept made, (s.addRule title check own).1 = { s with kept, rules := s.rules ++ made } ∧
      (made = [] ∨ ∃ settings, made = [⟨title, check, settings, []⟩]) := by
  have hnone : ∀ kept, { s with kept } = { s with kept, rules := s.rules ++ [] } := by
    intro kept
    rw [List.append_nil]
  unfold addRule
  cases title.validate with
  | error e => exact ⟨s.kept, [], hnone s.kept, Or.inl rfl⟩
  | ok _ =>
    cases own with
    | some settings => exact ⟨s.kept, _, rfl, Or.inr ⟨settings, rfl⟩⟩
    | none =>
      obtain ⟨kept, hkept⟩ := s.keep_eq s.settings
      unfold loadSettings
      cases hsettings : s.settings with
      | error e =>
        rw [hsettings] at hkept
        exact ⟨kept, [], hkept.trans (hnone kept), Or.inl rfl⟩
      | ok settings =>
        rw [hsettings] at hkept
        simp only [hkept]
        exact ⟨kept, _, rfl, Or.inr ⟨settings.rule, rfl⟩⟩

/-- A model is added, or none, and a number for it is used up. -/
theorem addModel_eq (s : Session) (program : Option Node) :
    ∃ made, (s.addModel program).1 =
      { s with makers := s.makers + 1, models := s.models ++ made } := by
  unfold addModel nextMaker
  cases program with
  | none => exact ⟨[], by simp [Model.ofRoot]⟩
  | some program => exact ⟨_, rfl⟩

theorem addDraft_eq (s : Session) (d : Draft) :
    ∃ made, (s.addDraft d).1 =
      { s with makers := s.makers + 1, models := s.models ++ made } := by
  unfold addDraft nextMaker
  rcases hbuild : d.build (s.makers + 1) with ⟨d', e | m⟩
  · exact ⟨[], by simp [hbuild]⟩
  · exact ⟨[m], by simp [hbuild, adopt]⟩

theorem bind_eq (s : Session) (model : Nat) (node : Option Node) (symbol : Symbol) :
    ∃ models, (s.bind model node symbol).elim s Prod.fst = { s with models } ∧
      (models = s.models ∨ ∃ m, models = s.models.set model m) := by
  unfold bind
  cases s.models[model]? with
  | none => exact ⟨s.models, rfl, Or.inl rfl⟩
  | some m =>
    cases hbind : m.bind node symbol with
    | error e => exact ⟨s.models, by simp [hbind], Or.inl rfl⟩
    | ok m' => exact ⟨_, by simp [hbind, replaceModel], Or.inr ⟨m', rfl⟩⟩

theorem declare_eq (s : Session) (model : Nat) (node : Option Node) :
    ∃ models, (s.declare model node).elim s Prod.fst = { s with models } ∧
      (models = s.models ∨ ∃ m, models = s.models.set model m) := by
  unfold declare
  cases s.models[model]? with
  | none => exact ⟨s.models, rfl, Or.inl rfl⟩
  | some m =>
    cases hdeclare : m.declare node with
    | error e => exact ⟨s.models, by simp [hdeclare], Or.inl rfl⟩
    | ok made => exact ⟨_, by simp [hdeclare, replaceModel], Or.inr ⟨made.2, rfl⟩⟩

/-- With a log that is ready nothing interrupts an analysis. -/
theorem analyze_eq (hready : s.log.Ready) {rule model : Nat} {r : Rule} {m : Model}
    (hr : s.rules[rule]? = some r) (hm : s.models[model]? = some m) :
    ∃ log lines, log.Ready ∧ s.analyze rule model = some
      ({ s with log, rules := s.rules.set rule { r with
        consultations := r.consultations ++ RuleNote.consultations (r.analyze m).notes } },
      ⟨lines, RuleNote.queries (r.analyze m).notes, (r.analyze m).outcome.mapError .failed⟩) := by
  obtain ⟨hflaw, hreached, hlog⟩ :=
    hready.play RuleNote.takesAll (r.analyze m).notes
  refine ⟨_, (s.log.play RuleNote.event? (r.analyze m).notes).lines, hlog, ?_⟩
  simp [analyze, hr, hm, hreached, hflaw, interrupted]

theorem audit_eq (hready : s.log.Ready) (model : Nat) (inferred : DependencyMap) :
    ∃ log, log.Ready ∧ (s.audit model inferred).elim s Prod.fst = { s with log } := by
  unfold audit
  cases s.models[model]? with
  | none => exact ⟨s.log, hready, rfl⟩
  | some m =>
    obtain ⟨_, _, hlog⟩ :=
      hready.play Note.takesAll (Redundancy.audit m inferred).notes
    exact ⟨_, hlog, rfl⟩

/-- The step is an analysis, by the rule of index `i`, that takes place: the rule and the model are
there, and the rule is on. -/
def Step.consults (s : Session) (i : Nat) : Step → Bool
  | .analyze rule model =>
    rule == i && s.models[model]?.isSome && s.rules[rule]?.any fun r => r.level ≠ .off
  | _ => false

/-- All that a step can do to models, rules and log. -/
inductive Moves (s : Session) : Step → Session → Prop
  | aside (step : Step) (environment : Environment) (kept : Option Settings) (log : EventLog)
      (hlog : log.Ready) (hno : ∀ i, step.consults s i = false) :
      Moves s step { s with environment, kept, log }
  | joined (step : Step) (makers : Nat) (made : List Model)
      (hno : ∀ i, step.consults s i = false) :
      Moves s step { s with makers, models := s.models ++ made }
  | bound (step : Step) (model : Nat) (m : Model) (hbinds : step.Binds model)
      (hno : ∀ i, step.consults s i = false) :
      Moves s step { s with models := s.models.set model m }
  | ruled (step : Step) (kept : Option Settings) (title : RuleTitle) (check : Check)
      (settings : RuleSettings)
      (htitle : ∀ provider, check = .redundantEntries provider → title = Rule.redundancyTitle)
      (hno : ∀ i, step.consults s i = false) :
      Moves s step { s with kept, rules := s.rules ++ [⟨title, check, settings, []⟩] }
  | analyzed (rule model : Nat) (r : Rule) (m : Model) (log : EventLog) (hlog : log.Ready)
      (hr : s.rules[rule]? = some r) (hm : s.models[model]? = some m) :
      Moves s (.analyze rule model) { s with
        log
        rules := s.rules.set rule { r with
          consultations := r.consultations ++ RuleNote.consultations (r.analyze m).notes } }

theorem Moves.stay (hready : s.log.Ready) {step : Step} (hno : ∀ i, step.consults s i = false) :
    s.Moves step s :=
  .aside step s.environment s.kept s.log hready hno

private theorem moves_bound (hready : s.log.Ready) {step : Step} {model : Nat}
    (hbinds : step.Binds model) (hno : ∀ i, step.consults s i = false) {s' : Session}
    (h : ∃ models, s' = { s with models } ∧
      (models = s.models ∨ ∃ m, models = s.models.set model m)) : s.Moves step s' := by
  obtain ⟨models, rfl, rfl | ⟨m, rfl⟩⟩ := h
  · exact .stay hready hno
  · exact .bound step model m hbinds hno

private theorem moves_ruled (hready : s.log.Ready) {step : Step} {title : RuleTitle}
    {check : Check}
    (htitle : ∀ provider, check = .redundantEntries provider → title = Rule.redundancyTitle)
    (hno : ∀ i, step.consults s i = false) (own : Option RuleSettings) :
    s.Moves step (s.addRule title check own).1 := by
  obtain ⟨kept, made, heq, rfl | ⟨settings, rfl⟩⟩ := s.addRule_eq title check own
  · rw [heq, List.append_nil]
    exact .aside step s.environment kept s.log hready hno
  · rw [heq]
    exact .ruled step kept title check settings htitle hno

private theorem moves_analyzed (hready : s.log.Ready) (rule model : Nat) :
    s.Moves (.analyze rule model) (s.perform (.analyze rule model)) := by
  cases hr : s.rules[rule]? with
  | none =>
    have hstay : s.perform (.analyze rule model) = s := by simp [perform, analyze, hr]
    rw [hstay]
    exact .stay hready fun i => by simp [Step.consults, hr]
  | some r =>
    cases hm : s.models[model]? with
    | none =>
      have hstay : s.perform (.analyze rule model) = s := by simp [perform, analyze, hr, hm]
      rw [hstay]
      exact .stay hready fun i => by simp [Step.consults, hm]
    | some m =>
      obtain ⟨log, lines, hlog, heq⟩ := analyze_eq hready hr hm
      have hperform := congrArg (Option.elim · s Prod.fst) heq
      rw [show s.perform (.analyze rule model) = _ from hperform]
      exact .analyzed rule model r m log hlog hr hm

theorem moves_perform (hready : s.log.Ready) (step : Step) : s.Moves step (s.perform step) := by
  cases step with
  | assignAll assignments =>
    exact .aside _ (s.environment.assignAll assignments).1 s.kept s.log hready fun _ => rfl
  | loadSettings =>
    obtain ⟨kept, hkept⟩ := s.keep_eq s.settings
    show s.Moves _ (s.keep s.settings)
    rw [hkept]
    exact .aside _ s.environment kept s.log hready fun _ => rfl
  | forgetSettings => exact .aside _ s.environment none s.log hready fun _ => rfl
  | configureLog level format timestamp =>
    obtain ⟨kept, log, heq, hlog⟩ := s.configureLog_eq level format timestamp
    rw [show s.perform (.configureLog level format timestamp) = _ from heq]
    exact .aside _ s.environment kept log (hlog hready) fun _ => rfl
  | setVariable name value hvalue =>
    exact .aside _ s.environment s.kept _ (hready.setVariable hvalue) fun _ => rfl
  | clearVariables => exact .aside _ s.environment s.kept _ hready.clearVariables fun _ => rfl
  | openLogger name =>
    exact .aside _ s.environment s.kept _ (hready.openLogger name) fun _ => rfl
  | write logger event =>
    exact .aside _ s.environment s.kept _ (hready.write logger event) fun _ => rfl
  | addModel program =>
    obtain ⟨made, heq⟩ := s.addModel_eq program
    rw [show s.perform (.addModel program) = _ from heq]
    exact .joined _ _ made fun _ => rfl
  | addDraft d =>
    obtain ⟨made, heq⟩ := s.addDraft_eq d
    rw [show s.perform (.addDraft d) = _ from heq]
    exact .joined _ _ made fun _ => rfl
  | bind model node symbol =>
    exact moves_bound hready (.bind model node symbol) (fun _ => rfl) (s.bind_eq model node symbol)
  | declare model node =>
    exact moves_bound hready (.declare model node) (fun _ => rfl) (s.declare_eq model node)
  | addRedundancyRule provider own =>
    exact moves_ruled hready (fun _ _ => rfl) (fun _ => rfl) own
  | addResourceRule title own => exact moves_ruled hready (by exact nofun) (fun _ => rfl) own
  | analyze rule model => exact moves_analyzed hready rule model
  | audit model inferred =>
    obtain ⟨log, hlog, heq⟩ := audit_eq hready model inferred
    rw [show s.perform (.audit model inferred) = _ from heq]
    exact .aside _ s.environment s.kept log hlog fun _ => rfl

namespace Moves

variable {s' : Session} {step : Step}

/-- A model that a step does not bind is the same after it. -/
theorem model_kept (h : s.Moves step s') {j : Nat} {m : Model} (hm : s.models[j]? = some m)
    (hfree : ¬ step.Binds j) : s'.models[j]? = some m := by
  cases h with
  | aside | ruled | analyzed => exact hm
  | joined _ makers made =>
    have hlt := (List.getElem?_eq_some_iff.mp hm).1
    exact (List.getElem?_append_left hlt).trans hm
  | bound _ model m' hbinds =>
    have hne : model ≠ j := by
      rintro rfl
      exact hfree hbinds
    exact (List.getElem?_set_ne hne).trans hm

/-- A rule is the same after any step, apart from its consultations. -/
theorem rule_kept (h : s.Moves step s') {i : Nat} {r : Rule} (hr : s.rules[i]? = some r) :
    ∃ consultations, s'.rules[i]? = some { r with consultations } := by
  cases h with
  | aside | joined | bound => exact ⟨r.consultations, hr⟩
  | ruled _ kept title check settings =>
    have hlt := (List.getElem?_eq_some_iff.mp hr).1
    exact ⟨r.consultations, (List.getElem?_append_left hlt).trans hr⟩
  | analyzed rule model r' m log hlog hr' =>
    by_cases hi : rule = i
    · subst hi
      obtain rfl := Option.some.inj (hr'.symm.trans hr)
      have hlt := (List.getElem?_eq_some_iff.mp hr).1
      exact ⟨_, List.getElem?_set_self hlt⟩
    · exact ⟨r.consultations, (List.getElem?_set_ne hi).trans hr⟩

end Moves

end InfraLint.Session
