import InfraLint.Proofs.IssuedEvents

/-!
The events of an analysis that are written. The library's own loggers are there whatever is done to
the log, and without a set-up the threshold is that of warnings. A variable of the context that
their style does not take can hinder an event, and then whatever issues it fails. Main statement: if
no event is hindered, an analysis with a fixed map has all of its events written if the threshold
lets details through, and none otherwise.
-/
namespace InfraLint

namespace EventLog

/-- A log to which anything has been done that can be done to one. -/
inductive Reachable : EventLog → Prop
  | unconfigured : Reachable unconfigured
  | configure {log : EventLog} (h : log.Reachable) (level : String) (format : LogFormat)
      (timestamp : Bool) : Reachable (log.configure level format timestamp).1
  | addLogger {log : EventLog} (h : log.Reachable) (logger : Logger) :
      Reachable (log.addLogger logger).2
  | write {log : EventLog} (h : log.Reachable) (index : Nat) (event : Except NameClash Event) :
      Reachable (log.write index event).2
  | play {ν : Type} {log : EventLog} (h : log.Reachable) (event? : ν → Option (Nat × Event))
      (notes : List ν) : Reachable (play event? log notes).log
  | setVariable {log : EventLog} (h : log.Reachable) (name : String) (value : Datum) :
      Reachable (log.setVariable name value)
  | clearVariables {log : EventLog} (h : log.Reachable) : Reachable log.clearVariables

/-- The library's own loggers are there, and without a set-up the threshold is that of warnings. -/
structure Sound (log : EventLog) : Prop where
  own : ∀ o : OwnLogger, ∃ kept, log.loggers[o.index]? = some (.bare o.name kept)
  fresh : log.installed = false → log.threshold = EventLevel.warning.number

variable {log : EventLog}

theorem Sound.touchAll (h : log.Sound) (indices : List Nat) : (log.touchAll indices).Sound where
  own o := by
    obtain ⟨kept, hown⟩ := h.own o
    rw [getElem?_touchAll, hown, Option.map_some]
    split
    · obtain ⟨kept', hkept'⟩ := log.settle_eq (.bare o.name kept)
      exact ⟨kept', congrArg some hkept'⟩
    · exact ⟨kept, rfl⟩
  fresh hnew := by
    rw [touchAll_installed] at hnew
    rw [touchAll_threshold]
    exact h.fresh hnew

/-- However a set-up comes out, the log counts as set up and has its loggers. -/
theorem exists_configure_eq (log : EventLog) (level : String) (format : LogFormat)
    (timestamp : Bool) : ∃ threshold style, (log.configure level format timestamp).1 =
      { log with installed := true, threshold, style } := by
  cases hinstalled : log.installed with
  | true =>
    rw [configure_of_installed hinstalled, ← hinstalled]
    exact ⟨_, _, rfl⟩
  | false =>
    unfold configure install
    simp only [hinstalled, Bool.false_eq_true, if_false]
    cases (levelMeaning level).level with
    | ok n => exact ⟨_, _, rfl⟩
    | error e => exact ⟨_, _, rfl⟩

theorem Reachable.sound (h : log.Reachable) : log.Sound := by
  induction h with
  | unconfigured =>
    refine ⟨fun o => ⟨none, ?_⟩, fun _ => rfl⟩
    cases o <;> rfl
  | @configure log _ level format timestamp ih =>
    obtain ⟨threshold, style, heq⟩ := log.exists_configure_eq level format timestamp
    rw [heq]
    exact ⟨ih.own, nofun⟩
  | addLogger _ logger ih =>
    refine ⟨fun o => ?_, ih.fresh⟩
    obtain ⟨kept, hown⟩ := ih.own o
    exact ⟨kept, (List.getElem?_append_left (List.getElem?_eq_some_iff.mp hown).1).trans hown⟩
  | write _ index event ih =>
    rw [write_snd]
    exact ih.touchAll [index]
  | play _ event? notes ih =>
    obtain ⟨touched, htouched⟩ := exists_touchAll_of_play notes
    rw [htouched]
    exact ih.touchAll touched
  | setVariable _ name value ih => exact ⟨ih.own, ih.fresh⟩
  | clearVariables _ ih => exact ⟨ih.own, ih.fresh⟩

/-- The event comes to the line in the style of its logger. -/
def Words (log : EventLog) (p : Nat × Event) (line : String) : Prop :=
  ∃ logger, log.loggers[p.1]? = some logger ∧
    logger.line p.2 log.context (log.styleOf logger) = .ok line

/-- An event that can be put into words comes to its line if the threshold lets it through, and
else to none. -/
theorem linesOf_of_line {logger : Logger} {e : Event} {line : String}
    (hline : logger.line e log.context (log.styleOf logger) = .ok line) :
    log.linesOf logger e = .ok (if log.threshold ≤ e.level.number then [line] else []) := by
  unfold linesOf
  by_cases hlevel : log.threshold ≤ e.level.number
  · rw [show log.admits e.level = true from decide_eq_true hlevel, if_pos hlevel]
    dsimp only
    rw [hline]
    rfl
  · rw [show log.admits e.level = false from decide_eq_false hlevel, if_neg hlevel]
    cases hstyle : log.styleOf logger with
    | plain =>
      rw [hstyle] at hline
      dsimp only
      rw [hline]
      rfl
    | chosen format timestamp => rfl

theorem eq_nil_of_linesOf {logger : Logger} {e : Event} {lines : List String}
    (hbelow : e.level.number < log.threshold) (h : log.linesOf logger e = .ok lines) :
    lines = [] := by
  unfold linesOf admits at h
  rw [decide_eq_false (Int.not_le.mpr hbelow)] at h
  cases hstyle : log.styleOf logger with
  | chosen format timestamp =>
    rw [hstyle] at h
    exact (Except.ok.inj h).symm
  | plain =>
    rw [hstyle] at h
    dsimp only at h
    cases hline : logger.line e log.context .plain with
    | error flaw =>
      rw [hline] at h
      cases h
    | ok line =>
      rw [hline] at h
      exact (Except.ok.inj h).symm

theorem emit_of_not_hinders {p : Nat × Event} {logger : Logger}
    (hlogger : log.loggers[p.1]? = some logger) (h : ¬ log.Hinders p) :
    ∃ lines, (log.emit p.1 p.2).1 = .ok lines ∧
      (log.threshold ≤ p.2.level.number → ∃ line, log.Words p line ∧ lines = [line]) ∧
      (p.2.level.number < log.threshold → lines = []) := by
  obtain ⟨lines, hlines⟩ := exists_emit_iff.mpr h
  have hemit := hlines
  rw [emit_fst hlogger] at hemit
  refine ⟨lines, hlines, fun hlevel => ?_, fun hlevel => eq_nil_of_linesOf hlevel hemit⟩
  obtain ⟨line, hline⟩ :=
    Logger.exists_line_iff.mpr (exists_linesOf_iff.mp ⟨lines, hemit⟩ (Or.inr hlevel))
  rw [linesOf_of_line hline, if_pos hlevel] at hemit
  exact ⟨line, ⟨logger, hlogger, hline⟩, (Except.ok.inj hemit).symm⟩

/-- The library's own events are hindered by variables of the context alone. -/
theorem Reachable.not_hinders (h : log.Reachable) (o : OwnLogger) {e : Event}
    (he : ∀ style : Style, style.TakesAll e.fields)
    (hcontext : ∀ logger, log.loggers[o.index]? = some logger →
      (log.styleOf logger).TakesAll log.context) : ¬ log.Hinders (o.index, e) := by
  rintro ⟨logger, hlogger, _, hparts⟩
  obtain ⟨kept, hown⟩ := h.sound.own o
  obtain rfl := Option.some.inj (hown.symm.trans hlogger)
  exact hparts (Logger.takesAll_partsIn (he _) .nil (hcontext _ hlogger))

end EventLog

theorem RuleNote.level_event {n : RuleNote} {p : Nat × Event} (h : n.event? = some p) :
    p.2.level = .debug := by
  cases n with
  | audit n =>
    cases n with
    | asked q => cases h
    | skipped resource =>
      obtain rfl := Option.some.inj h
      rfl
  | consulted ignoreExplicit => cases h
  | analyzed code count =>
    obtain rfl := Option.some.inj h
    rfl

private theorem forall₂_flatten_of_singletons {α β : Type} {R : α → β → Prop} {xs : List α}
    {groups : List (List β)}
    (h : List.Forall₂ (fun x group => ∃ y, R x y ∧ group = [y]) xs groups) :
    List.Forall₂ R xs groups.flatten := by
  induction h with
  | nil => exact .nil
  | cons hx _ ih =>
    obtain ⟨y, hy, rfl⟩ := hx
    exact .cons hy ih

private theorem flatten_eq_nil_of_forall₂ {α β : Type} {xs : List α} {groups : List (List β)}
    (h : List.Forall₂ (fun _ group => group = []) xs groups) : groups.flatten = [] := by
  induction h with
  | nil => rfl
  | cons hx _ ih => rw [List.flatten_cons, hx, ih, List.nil_append]

namespace Session

variable {s : Session} {settings : RuleSettings} {consultations : List Bool} {m : Model}
  {map : DependencyMap}

/-- What comes of the events of an analysis when they are written. -/
structure WritesEvents (log : EventLog) (events : List (Nat × Event)) (lines : List String) :
    Prop where
  let_through : log.threshold ≤ EventLevel.debug.number → List.Forall₂ log.Words events lines
  held_back : EventLevel.debug.number < log.threshold → lines = []
  not_set_up : log.installed = false → lines = []

variable {r : Rule}

theorem own_event (hlog : s.log.Reachable) {p : Nat × Event} (hp : p ∈ r.events m) :
    (∃ logger, s.log.loggers[p.1]? = some logger) ∧ p.2.level = .debug := by
  obtain ⟨n, _, hn⟩ := List.mem_filterMap.mp hp
  obtain ⟨o, ho⟩ := RuleNote.exists_own hn
  obtain ⟨kept, hown⟩ := hlog.sound.own o
  exact ⟨⟨_, ho ▸ hown⟩, RuleNote.level_event hn⟩

theorem writesEvents_of_not_hinders (hlog : s.log.Reachable)
    (h : ∀ p ∈ r.events m, ¬ s.log.Hinders p) :
    WritesEvents s.log (r.events m) (s.log.play RuleNote.event? (r.analyze m).notes).lines := by
  have hwritten : ∀ p ∈ r.events m, ∃ lines, (s.log.emit p.1 p.2).1 = .ok lines ∧
      (s.log.threshold ≤ EventLevel.debug.number → ∃ line, s.log.Words p line ∧ lines = [line]) ∧
      (EventLevel.debug.number < s.log.threshold → lines = []) := by
    intro p hp
    obtain ⟨⟨logger, hlogger⟩, hlevel⟩ := own_event hlog hp
    have hemit := EventLog.emit_of_not_hinders hlogger (h p hp)
    rw [hlevel] at hemit
    exact hemit
  obtain ⟨written, hall, hplay⟩ := EventLog.play_eq hwritten
  have hheld : EventLevel.debug.number < s.log.threshold → written.flatten = [] := fun hlevel =>
    flatten_eq_nil_of_forall₂ (hall.imp fun _ _ hlines => hlines.2 hlevel)
  rw [show s.log.play RuleNote.event? (r.analyze m).notes = _ from hplay]
  refine ⟨fun hlevel => ?_, hheld, fun hnew => hheld ?_⟩
  · exact forall₂_flatten_of_singletons (hall.imp fun _ _ hlines => hlines.1 hlevel)
  · rw [hlog.sound.fresh hnew]
    decide

section Interruption

variable {ε α ν : Type} {event? : ν → Option (Nat × Event)} {notes : List ν}

theorem interrupted_of_not_hinders (h : ∀ p ∈ notes.filterMap event?, ¬ s.log.Hinders p)
    (outcome : Except ε α) :
    interrupted (s.log.play event? notes).flaw outcome = outcome.mapError .failed := by
  rw [EventLog.play_flaw_eq_none_iff.mpr h]
  rfl

theorem interrupted_of_hinders (h : ∃ p ∈ notes.filterMap event?, s.log.Hinders p)
    (outcome : Except ε α) : ∃ flaw,
      interrupted (s.log.play event? notes).flaw outcome = .error (.unwritable flaw) := by
  obtain ⟨p, hp, hhinders⟩ := h
  obtain ⟨flaw, hflaw⟩ := Option.ne_none_iff_exists'.mp fun hnone =>
    EventLog.play_flaw_eq_none_iff.mp hnone p hp hhinders
  rw [hflaw]
  exact ⟨flaw, rfl⟩

end Interruption

/-- An audit in a session comes out as the search for redundant entries does, and shows all its
questions, if none of its events is hindered; else it fails because of the first that is. -/
theorem audit_comes_out {j : Nat} (hm : s.models[j]? = some m) (map : DependencyMap) :
    ∃ s' report, s.audit j map = some (s', report) ∧
      ((∀ p ∈ (Redundancy.audit m map).notes.filterMap Note.event?, ¬ s.log.Hinders p) →
        report.queries = Note.queries (Redundancy.audit m map).notes ∧
        report.outcome = (Redundancy.find m map).mapError .failed) ∧
      ((∃ p ∈ (Redundancy.audit m map).notes.filterMap Note.event?, s.log.Hinders p) →
        ∃ flaw, report.outcome = .error (.unwritable flaw)) := by
  simp only [audit, hm]
  refine ⟨_, _, rfl, fun hfree => ⟨?_, interrupted_of_not_hinders hfree _⟩,
    fun hhindered => interrupted_of_hinders hhindered _⟩
  obtain ⟨lines, hplay⟩ := EventLog.play_of_not_hinders hfree
  exact congrArg (fun played => Note.queries played.reached) hplay

/-- Whatever has been done to the log, an analysis of a complete document with a fixed map issues
an event for each resource that it skips, in document order, and then one with the number of its
diagnostics. If none of these events is hindered, each comes to its line where the threshold lets
details through, and none does otherwise; else the analysis fails. A rule that is off issues no
event. -/
theorem analyze_logs (hlog : s.log.Reachable) {i j : Nat} (hr : s.rules[i]? = some r)
    (hredundancy : r = Rule.redundancy (.fixed map) settings consultations)
    (hm : s.models[j]? = some m) (hc : m.program.Complete) :
    ∃ s' report, s.analyze i j = some (s', report) ∧
      (r.level = .off → r.events m = [] ∧ report.lines = [] ∧ report.outcome = .ok []) ∧
      (r.level ≠ .off → ∃ diagnostics logged,
        List.Forall₂ (Redundancy.Logs m map) (m.program.preorder.filterMap Node.resource?) logged ∧
        r.events m = logged.flatten ++
          [(OwnLogger.rules.index, analyzedEvent r.title.code diagnostics.length)] ∧
        ((∀ p ∈ r.events m, ¬ s.log.Hinders p) →
          report.outcome = .ok diagnostics ∧ WritesEvents s.log (r.events m) report.lines) ∧
        ((∃ p ∈ r.events m, s.log.Hinders p) →
          ∃ flaw, report.outcome = .error (.unwritable flaw))) := by
  have heq : ∃ s' queries, s.analyze i j = some (s',
      ⟨(s.log.play RuleNote.event? (r.analyze m).notes).lines, queries,
        interrupted (s.log.play RuleNote.event? (r.analyze m).notes).flaw
          (r.analyze m).outcome⟩) := by
    simp only [analyze, hr, hm]
    exact ⟨_, _, rfl⟩
  obtain ⟨s', queries, heq⟩ := heq
  refine ⟨s', _, heq, fun hoff => ?_, fun hon => ?_⟩
  · rw [hredundancy] at hoff ⊢
    have hnotes : ((Rule.redundancy (.fixed map) settings consultations).analyze m).notes = [] :=
      Rule.notes_analyze_of_off hoff m
    have houtcome : ((Rule.redundancy (.fixed map) settings consultations).analyze m).outcome =
        .ok [] := Rule.outcome_analyze_of_off hoff m
    simp only [Rule.events, hnotes, houtcome]
    exact ⟨rfl, rfl, rfl⟩
  · rw [hredundancy] at hon
    obtain ⟨diagnostics, logged, houtcome, hall, hevents⟩ :=
      @Rule.analyze_issues settings consultations m map hon hc
    rw [← hredundancy] at houtcome hevents
    refine ⟨diagnostics, logged, hall, ?_, fun hfree => ?_, fun hhindered => ?_⟩
    · rw [hevents, hredundancy]
      rfl
    · refine ⟨(interrupted_of_not_hinders hfree _).trans ?_, writesEvents_of_not_hinders hlog hfree⟩
      rw [houtcome]
      rfl
    · exact interrupted_of_hinders hhindered _

section Sample

open Redundancy.Sample

def loggingSession : Session :=
  { start with
    log := (EventLog.unconfigured.configure "DEBUG" .console false).1
    models := [model]
    rules := [Rule.redundancy (.fixed []) .standard []] }

/-- The same with a number in the context that is to stand below the line. -/
def hinderedSession : Session :=
  { loggingSession with log := loggingSession.log.setVariable "stack" (.integer 5) }

private theorem loggingSession_reachable : loggingSession.log.Reachable :=
  .configure .unconfigured "DEBUG" .console false

private theorem loggingSession_ready : loggingSession.log.Ready :=
  EventLog.ready_unconfigured.configure "DEBUG" .console false

theorem analyze_logs_sample :
    loggingSession.log.Reachable ∧ model.program.Complete ∧
      ((Rule.redundancy (.fixed []) .standard []).events model).map Prod.fst = [1, 0] ∧
      ∃ s report, loggingSession.analyze 0 0 = some (s, report) ∧ report.lines.length = 2 := by
  have hc : model.program.Complete := by decide +kernel
  have hevents : ((Rule.redundancy (.fixed []) .standard []).events model).map Prod.fst =
      [1, 0] := by
    decide +kernel
  obtain ⟨s, report, heq, _, hon⟩ := analyze_logs loggingSession_reachable
    (show loggingSession.rules[0]? = some _ from rfl) rfl
    (show loggingSession.models[0]? = some _ from rfl) hc
  obtain ⟨diagnostics, logged, _, _, hfree, _⟩ := hon nofun
  obtain ⟨_, hwrites⟩ := hfree fun p hp => by
    obtain ⟨n, _, hn⟩ := List.mem_filterMap.mp hp
    exact loggingSession_ready.not_hinders (RuleNote.takesAll n p.1 p.2 hn)
  have hwords := hwrites.let_through (by decide +kernel)
  refine ⟨loggingSession_reachable, hc, hevents, s, report, heq, ?_⟩
  rw [← hwords.length_eq, ← List.length_map Prod.fst, hevents]
  rfl

/-- An analysis whose events the threshold lets through need not write any of them. -/
theorem analysis_writes_nothing :
    hinderedSession.log.Reachable ∧ model.program.Complete ∧
      hinderedSession.log.threshold ≤ EventLevel.debug.number ∧
      ((Rule.redundancy (.fixed []) .standard []).events model).map Prod.fst = [1, 0] ∧
      (hinderedSession.analyze 0 0).map (fun made => made.2.lines) = some [] ∧
      ∃ s report, hinderedSession.analyze 0 0 = some (s, report) ∧
        report.outcome = .error (.unwritable (.notText "int")) := by
  refine ⟨.setVariable loggingSession_reachable "stack" (.integer 5), by decide +kernel,
    by decide +kernel, by decide +kernel, by decide +kernel, ?_⟩
  with_unfolding_all exact ⟨_, _, rfl, rfl⟩

end Sample

end Session

end InfraLint
