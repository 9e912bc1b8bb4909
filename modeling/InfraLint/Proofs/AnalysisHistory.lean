import InfraLint.Proofs.Sessions

/-!
Analyses within a session. Main statement: whatever has happened in a session, an analysis for
redundant entries reports what there is to be found in the model as it is bound now and in the map
that the provider has for it, and nothing that has happened before shows in the report. The
provider has been consulted once for each analysis that took place.
-/
namespace InfraLint.Session

/-- How many analyses by the rule of index `i` take place in the course of some steps. -/
def consulting (i : Nat) (s : Session) : List Step → Nat
  | [] => 0
  | step :: rest => (if step.consults s i then 1 else 0) + consulting i (s.perform step) rest

/-- What holds at each moment of a session, if `asked i` analyses by the rule of index `i` have
taken place. -/
structure Sound (s : Session) (asked : Nat → Nat) : Prop where
  ready : s.log.Ready
  titled : ∀ (i : Nat) (r : Rule) (provider : Provider), s.rules[i]? = some r →
    r.check = .redundantEntries provider → r.title = Rule.redundancyTitle
  consulted : ∀ (i : Nat) (r : Rule) (provider : Provider), s.rules[i]? = some r →
    r.check = .redundantEntries provider → r.consultations = List.replicate (asked i) true
  unasked : ∀ i : Nat, s.rules[i]? = none → asked i = 0

theorem sound_start : start.Sound fun _ => 0 where
  ready := EventLog.ready_unconfigured
  titled _ _ _ hr := nomatch hr
  consulted _ _ _ hr := nomatch hr
  unasked _ _ := rfl

variable {s : Session} {asked : Nat → Nat}

theorem Sound.eq_redundancy (h : s.Sound asked) {i : Nat} {r : Rule} {provider : Provider}
    (hr : s.rules[i]? = some r) (hcheck : r.check = .redundantEntries provider) :
    r = Rule.redundancy provider r.settings r.consultations := by
  have htitle := h.titled i r provider hr hcheck
  obtain ⟨title, check, settings, consultations⟩ := r
  obtain rfl : title = Rule.redundancyTitle := htitle
  obtain rfl : check = .redundantEntries provider := hcheck
  rfl

private theorem asked_of_not_consults {step : Step} (hno : ∀ i, step.consults s i = false) :
    (fun i => asked i + if step.consults s i then 1 else 0) = asked := by
  funext i
  simp [hno i]

/-- Nothing is asked by what leaves the rules as they are. -/
private theorem Sound.of_rules (h : s.Sound asked) (s' : Session) (hready : s'.log.Ready)
    (hrules : s'.rules = s.rules) {step : Step} (hno : ∀ i, step.consults s i = false) :
    s'.Sound fun i => asked i + if step.consults s i then 1 else 0 := by
  rw [asked_of_not_consults hno]
  exact ⟨hready, by rw [hrules]; exact h.titled, by rw [hrules]; exact h.consulted,
    by rw [hrules]; exact h.unasked⟩

/-- A rule that is added has not been asked for anything. -/
private theorem Sound.of_ruled (h : s.Sound asked) (s' : Session) (new : Rule)
    (hready : s'.log.Ready) (hrules : s'.rules = s.rules) (hfresh : new.consultations = [])
    (htitle : ∀ provider, new.check = .redundantEntries provider →
      new.title = Rule.redundancyTitle)
    {step : Step} (hno : ∀ i, step.consults s i = false) :
    { s' with rules := s'.rules ++ [new] }.Sound fun i =>
      asked i + if step.consults s i then 1 else 0 := by
  rw [asked_of_not_consults hno]
  have hcases : ∀ {i : Nat} {r : Rule}, (s'.rules ++ [new])[i]? = some r →
      s.rules[i]? = some r ∨ (s.rules[i]? = none ∧ r = new) := by
    intro i r hr
    rw [hrules, List.getElem?_append] at hr
    split at hr
    · exact Or.inl hr
    · rename_i hlt
      refine Or.inr ⟨List.getElem?_eq_none (by omega), ?_⟩
      exact (List.mem_singleton.mp (List.mem_of_getElem? hr))
  refine ⟨hready, ?_, ?_, ?_⟩
  · intro i r provider hr hcheck
    rcases hcases hr with hold | ⟨_, rfl⟩
    · exact h.titled i r provider hold hcheck
    · exact htitle provider hcheck
  · intro i r provider hr hcheck
    rcases hcases hr with hold | ⟨hnone, rfl⟩
    · exact h.consulted i r provider hold hcheck
    · rw [hfresh, h.unasked i hnone]
      rfl
  · intro i hnone
    rw [List.getElem?_eq_none_iff, List.length_append, hrules] at hnone
    exact h.unasked i (List.getElem?_eq_none (by omega))

/-- What an analysis adds to the consultations of its rule. -/
theorem consultations_of_analyze {r : Rule} {provider : Provider}
    (hr : r = Rule.redundancy provider r.settings r.consultations) (m : Model) :
    RuleNote.consultations (r.analyze m).notes = if r.level ≠ .off then [true] else [] := by
  rw [hr]
  split
  · rename_i hon
    exact Rule.consultations_analyze hon m
  · rename_i hoff
    rw [Rule.notes_analyze_of_off (by simpa [Rule.level, Rule.redundancy] using hoff)]
    rfl

private theorem getElem?_set_cases {rules : List Rule} {rule i : Nat} {new r : Rule}
    (h : (rules.set rule new)[i]? = some r) :
    (rule = i ∧ r = new) ∨ (rule ≠ i ∧ rules[i]? = some r) := by
  by_cases hi : rule = i
  · subst hi
    have hlt : rule < (rules.set rule new).length := (List.getElem?_eq_some_iff.mp h).1
    rw [List.length_set] at hlt
    rw [List.getElem?_set_self hlt] at h
    exact Or.inl ⟨rfl, (Option.some.inj h).symm⟩
  · rw [List.getElem?_set_ne hi] at h
    exact Or.inr ⟨hi, h⟩

/-- An analysis is asked of its own rule, if that is on, and of no other one. -/
private theorem Sound.of_analyzed (h : s.Sound asked) {rule model : Nat} {r : Rule} {m : Model}
    {log : EventLog} (hlog : log.Ready) (hr : s.rules[rule]? = some r)
    (hm : s.models[model]? = some m) :
    Sound { s with
      log
      rules := s.rules.set rule { r with
        consultations := r.consultations ++ RuleNote.consultations (r.analyze m).notes } }
      fun i => asked i + if (Step.analyze rule model).consults s i then 1 else 0 := by
  have hconsults : ∀ i, (Step.analyze rule model).consults s i = true ↔
      rule = i ∧ r.level ≠ .off := by
    intro i
    simp [Step.consults, hr, hm]
  have hother : ∀ i, rule ≠ i → (Step.analyze rule model).consults s i ≠ true :=
    fun i hne hyes => hne ((hconsults i).mp hyes).1
  refine ⟨hlog, fun i r' provider hr' hcheck => ?_, fun i r' provider hr' hcheck => ?_,
    fun i hnone => ?_⟩
  · rcases getElem?_set_cases hr' with ⟨rfl, rfl⟩ | ⟨_, hr'⟩
    · exact h.titled rule r provider hr hcheck
    · exact h.titled i r' provider hr' hcheck
  · rcases getElem?_set_cases hr' with ⟨rfl, rfl⟩ | ⟨hne, hr'⟩
    · have hbefore := h.consulted rule r provider hr hcheck
      have hnew := consultations_of_analyze (h.eq_redundancy hr hcheck) m
      show r.consultations ++ RuleNote.consultations (r.analyze m).notes = _
      rw [hbefore, hnew, List.replicate_add]
      by_cases hon : r.level ≠ .off
      · rw [if_pos hon, if_pos ((hconsults rule).mpr ⟨rfl, hon⟩)]
        rfl
      · rw [if_neg hon, if_neg fun hyes => hon ((hconsults rule).mp hyes).2]
        rfl
    · rw [if_neg (hother i hne)]
      exact h.consulted i r' provider hr' hcheck
  · rw [List.getElem?_eq_none_iff, List.length_set, ← List.getElem?_eq_none_iff] at hnone
    have hne : rule ≠ i := by
      rintro rfl
      cases hnone.symm.trans hr
    rw [if_neg (hother i hne)]
    exact h.unasked i hnone

/-- Each step counts, if it is an analysis that takes place. -/
theorem Sound.step (h : s.Sound asked) (step : Step) :
    (s.perform step).Sound fun i => asked i + if step.consults s i then 1 else 0 := by
  have hmoves := moves_perform h.ready step
  generalize s.perform step = s' at hmoves ⊢
  cases hmoves with
  | aside _ environment kept log hlog hno =>
    exact h.of_rules { s with environment, kept, log } hlog rfl hno
  | joined _ makers made hno =>
    exact h.of_rules { s with makers, models := s.models ++ made } h.ready rfl hno
  | bound _ model m hbinds hno =>
    exact h.of_rules { s with models := s.models.set model m } h.ready rfl hno
  | ruled _ kept title check settings htitle hno =>
    exact h.of_ruled { s with kept } ⟨title, check, settings, []⟩ h.ready rfl rfl htitle hno
  | analyzed rule model r m log hlog hr hm => exact h.of_analyzed hlog hr hm

theorem Sound.performAll (h : s.Sound asked) (steps : List Step) :
    (s.performAll steps).Sound fun i => asked i + consulting i s steps := by
  induction steps generalizing s asked with
  | nil => exact h
  | cons step rest ih =>
    have hrest := ih (h.step step)
    simp only [Nat.add_assoc] at hrest
    exact hrest

theorem sound_after (steps : List Step) :
    (after steps).Sound fun i => consulting i start steps := by
  have h := sound_start.performAll steps
  simp only [Nat.zero_add] at h
  exact h

/-- Models that no step binds and rules are kept through any number of steps. -/
theorem Sound.kept (h : s.Sound asked) {i j : Nat} {r : Rule} {m : Model}
    (hr : s.rules[i]? = some r) (hm : s.models[j]? = some m) (steps : List Step)
    (hfree : ∀ step ∈ steps, ¬ step.Binds j) :
    (s.performAll steps).models[j]? = some m ∧
      ∃ consultations, (s.performAll steps).rules[i]? = some { r with consultations } := by
  induction steps generalizing s asked r with
  | nil => exact ⟨hm, r.consultations, hr⟩
  | cons step rest ih =>
    have hmoves := moves_perform h.ready step
    have hm' := hmoves.model_kept hm (hfree step List.mem_cons_self)
    obtain ⟨consultations, hr'⟩ := hmoves.rule_kept hr
    have hrest := ih (h.step step) hr' hm'
    exact hrest fun later hlater => hfree later (List.mem_cons_of_mem _ hlater)

/-- An analysis comes out as that of a rule that has consulted nobody yet. -/
theorem Sound.outcome_analyze (h : s.Sound asked) {i j : Nat} {r : Rule} {provider : Provider}
    {m : Model} (hr : s.rules[i]? = some r) (hcheck : r.check = .redundantEntries provider)
    (hm : s.models[j]? = some m) : ∃ s' report, s.analyze i j = some (s', report) ∧
      report.outcome =
        ((Rule.redundancy provider r.settings []).analyze m).outcome.mapError .failed := by
  have hredundancy := h.eq_redundancy hr hcheck
  obtain ⟨log, lines, _, heq⟩ := analyze_eq h.ready hr hm
  refine ⟨_, _, heq, ?_⟩
  show (r.analyze m).outcome.mapError Interruption.failed = _
  rw [hredundancy, Rule.outcome_analyze_nil]
  rfl

end InfraLint.Session

namespace InfraLint

/-- The diagnostic is the rule's report of the finding: at the entry, at the rule's level, with the
name of the target put into the message as it is, and with one fix, a preferred one, that removes
the entry and nothing else. -/
structure Rule.Reports (r : Rule) (x : Redundancy) (d : Diagnostic) : Prop where
  span : d.span = x.entry.origin.span
  level : d.level = r.level ∧ d.level ≠ .off
  message : d.message = "Resource dependency '" ++ x.target.name.getD "None" ++
    "' is redundant because it is already implied by a property reference."
  fix : ∃ fix, d.fixes = [fix] ∧ fix.preferred = true ∧
    fix.replacements = [⟨x.entry.origin.span, ""⟩]

namespace Session

section Sample

open Redundancy.Sample

end Sample

end Session

end InfraLint
