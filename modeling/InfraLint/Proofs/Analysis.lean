import InfraLint.Proofs.References
import InfraLint.Rule

/-!
What an analysis for redundant entries comes to. Its template always works, so it reports what
the audit finds, one diagnostic for each finding; if something goes wrong, it goes wrong in the
audit or in the provider. Main statement: with the provider that scans references, an analysis of
a complete document fails exactly where a value to be searched is not there.
-/
namespace InfraLint.Rule

/-- The rule on redundant entries. -/
def redundancy (provider : Provider) (settings : RuleSettings) (consultations : List Bool) : Rule :=
  ⟨redundancyTitle, .redundantEntries provider, settings, consultations⟩

/-- The message about an entry that refers to something of the given name. -/
def redundancyMessage (name : String) : String :=
  "Resource dependency '" ++ name ++
    "' is redundant because it is already implied by a property reference."

theorem parse_redundancyTitle : Template.parse redundancyTitle.template =
    ⟨[.literal "Resource dependency '", .slot 0 .display,
      .literal "' is redundant because it is already implied by a property reference."], none⟩ := by
  decide +kernel

private theorem render_slot (front back : String) (name : Option String) :
    Template.render ⟨[.literal front, .slot 0 .display, .literal back], none⟩ [.ofText name] =
      .ok (front ++ name.getD Text.absent ++ back) := by
  have hjoin : Template.render ⟨[.literal front, .slot 0 .display, .literal back], none⟩
      [.ofText name] = .ok (String.join [front, name.getD Text.absent, back]) := by
    cases name <;> rfl
  rw [hjoin]
  simp [String.join]

theorem formatText_redundancyTitle (name : Option String) :
    formatText redundancyTitle.template [.ofText name] =
      .ok (redundancyMessage (name.getD Text.absent)) := by
  unfold formatText redundancyMessage
  rw [parse_redundancyTitle, render_slot]

variable {provider : Provider} {settings : RuleSettings} {consultations : List Bool}

/-- The diagnostic that reports a redundant entry. -/
def diagnosticOf (settings : RuleSettings) (x : Redundancy) : Diagnostic where
  span := x.entry.origin.span
  level := settings.level
  code := redundancyTitle.code
  message := redundancyMessage (x.target.name.getD Text.absent)
  docUri := some (redundancy (.fixed []) settings []).docUri
  fixes := [Fix.removal removalTitle x.entry.origin.span]

theorem outcome_reportRedundancy (x : Redundancy) :
    ((redundancy provider settings consultations).reportRedundancy x).outcome =
      .ok [diagnosticOf settings x] := by
  unfold reportRedundancy diagnosticAt formatMessage ofFormat
  simp only [redundancy, formatText_redundancyTitle]
  rfl

theorem outcome_ofAudit {α : Type} (a : Audit α) :
    (ofAudit a).outcome = a.outcome.mapError .fault := rfl

theorem outcome_analyze_of_off (hoff : settings.level = .off) (m : Model) :
    ((redundancy provider settings consultations).analyze m).outcome = .ok [] := by
  unfold analyze
  rw [if_pos (show (redundancy provider settings consultations).level = .off from hoff)]
  rfl

/-- An analysis reports what the audit finds in the map of the provider. -/
theorem outcome_analyze (hon : settings.level ≠ .off) (m : Model) :
    ((redundancy provider settings consultations).analyze m).outcome =
      (((provider.infer m true).outcome.bind fun map => Redundancy.find m map).mapError
        RuleError.fault).map fun found => found.map (diagnosticOf settings) := by
  have hreports : ∀ found : List Redundancy,
      (Journal.forEach (redundancy provider settings consultations).reportRedundancy
        found).outcome =
        .ok (found.map (diagnosticOf settings)) := by
    intro found
    rw [Journal.outcome_forEach_ok fun x _ => outcome_reportRedundancy x]
    exact congrArg Except.ok (List.map_eq_flatMap.symm)
  unfold analyze
  rw [if_neg (show (redundancy provider settings consultations).level ≠ .off from hon)]
  have hcheck : (redundancy provider settings consultations).check =
      .redundantEntries provider := rfl
  simp only [findAll, hcheck, Journal.outcome_bind, Journal.outcome_note, Journal.outcome_pure,
    outcome_ofAudit, hreports]
  cases hmap : (provider.infer m true).outcome with
  | error e => rfl
  | ok map =>
    simp only [Except.mapError, Except.bind, Redundancy.find]
    cases (Redundancy.audit m map).outcome with
    | error e => rfl
    | ok found => rfl

/-- What has been consulted before does not show in how an analysis comes out. -/
theorem outcome_analyze_nil (m : Model) :
    ((redundancy provider settings consultations).analyze m).outcome =
      ((redundancy provider settings []).analyze m).outcome := by
  by_cases hon : settings.level ≠ .off
  · rw [outcome_analyze hon, outcome_analyze hon]
  · have hoff : settings.level = .off := by simpa using hon
    rw [outcome_analyze_of_off hoff, outcome_analyze_of_off hoff]

/-- An analysis with references scanned, of a complete document that can be searched. -/
theorem outcome_analyze_scan_ok (hon : settings.level ≠ .off) {m : Model}
    (hc : m.program.Complete) (hgap : ∀ x ∈ m.resources, ¬ ReferenceScan.Unsearchable m true x) :
    ∃ found, Redundancy.find m (ReferenceScan.mapOf m true) = .ok found ∧
      ((redundancy .scan settings consultations).analyze m).outcome =
        .ok (found.map (diagnosticOf settings)) := by
  have hmap : (Provider.scan.infer m true).outcome = .ok (ReferenceScan.mapOf m true) :=
    ReferenceScan.outcome_scan_ok hc hgap
  refine ⟨_, Redundancy.find_eq hc, ?_⟩
  rw [outcome_analyze hon, hmap]
  simp only [Except.bind, Redundancy.find_eq hc]
  rfl

theorem outcome_analyze_scan_error (hon : settings.level ≠ .off) {m : Model}
    (hc : m.program.Complete) (hgap : ∃ x ∈ m.resources, ReferenceScan.Unsearchable m true x) :
    ((redundancy .scan settings consultations).analyze m).outcome =
      .error (.fault .absentTree) := by
  have hmap : (Provider.scan.infer m true).outcome = .error .absentTree :=
    ReferenceScan.outcome_scan_error hc hgap
  rw [outcome_analyze hon, hmap]
  rfl

private theorem exists_unsearchable_iff {m : Model} :
    (∃ x ∈ m.resources, ReferenceScan.Unsearchable m true x) ↔
      ∃ x s body p, .resourceDecl x ∈ m.program.preorder ∧
        m.symbolOf (some (.resourceDecl x)) = some s ∧ HasBody x.value body ∧
        some p ∈ body.properties ∧ ¬ p.Named dependsOnKey ∧ p.value = none := by
  constructor
  · intro h'
    obtain ⟨x, hx, hsome, body, hbody, p, hp, hv⟩ := h'
    obtain ⟨s, hs⟩ := Option.isSome_iff_exists.mp hsome
    obtain ⟨hmem, hsearched⟩ := Object.mem_searched_iff.mp hp
    exact ⟨x, s, body, p, Model.mem_resources_iff.mp hx, hs, hbody, hmem,
      fun hname => hsearched ⟨rfl, hname⟩, hv⟩
  · intro h'
    obtain ⟨x, s, body, p, hx, hs, hbody, hmem, hname, hv⟩ := h'
    refine ⟨x, Model.mem_resources_iff.mpr hx, by rw [hs]; rfl, body, hbody, p, ?_, hv⟩
    exact Object.mem_searched_iff.mpr ⟨hmem, fun h => hname h.2⟩

/-- On a complete document an analysis with references scanned returns diagnostics, unless the
rule is on and some resource with a symbol has in its body a property, other than explicit
dependencies, without a value: then, and only then, the analysis fails, since it would have to
go through what is not there. -/
theorem analyze_fails_iff_searched_value_absent (settings : RuleSettings)
    (consultations : List Bool) (m : Model) (hc : m.program.Complete) :
    ((∃ diagnostics, ((redundancy .scan settings consultations).analyze m).outcome =
        .ok diagnostics) ↔
      settings.level = .off ∨ ¬ ∃ x s body p, .resourceDecl x ∈ m.program.preorder ∧
        m.symbolOf (some (.resourceDecl x)) = some s ∧ HasBody x.value body ∧
        some p ∈ body.properties ∧ ¬ p.Named dependsOnKey ∧ p.value = none) ∧
    ∀ e, ((redundancy .scan settings consultations).analyze m).outcome = .error e →
      e = .fault .absentTree := by
  rw [← exists_unsearchable_iff]
  by_cases hoff : settings.level = .off
  · rw [outcome_analyze_of_off hoff]
    refine ⟨⟨fun _ => Or.inl hoff, fun _ => ⟨[], rfl⟩⟩, ?_⟩
    intro e he
    exact nomatch he
  · by_cases hgap : ∃ x ∈ m.resources, ReferenceScan.Unsearchable m true x
    · rw [outcome_analyze_scan_error hoff hc hgap]
      refine ⟨⟨?_, ?_⟩, fun e he => (Except.error.inj he).symm⟩
      · intro h'
        obtain ⟨_, h⟩ := h'
        exact nomatch h
      · intro h'
        rcases h' with h | h
        · exact absurd h hoff
        · exact absurd hgap h
    · obtain ⟨found, _, hok⟩ := @outcome_analyze_scan_ok settings consultations hoff m hc
        fun x hx h => hgap ⟨x, hx, h⟩
      rw [hok]
      refine ⟨⟨fun _ => Or.inr hgap, fun _ => ⟨_, rfl⟩⟩, ?_⟩
      intro e he
      exact nomatch he

open Redundancy in
/-- A property of the second resource has lost its value. -/
def withoutValue : Model :=
  let body : Object := ⟨Sample.originAt 20, [some (Sample.property 21 "site" none)], []⟩
  let web := Sample.resource 40 "web" (.object body)
  { Sample.model with
    program := .program ⟨Sample.originAt 0, [some (.resourceDecl Sample.store),
      some (.resourceDecl web)]⟩ }

theorem analyze_fails_without_value :
    withoutValue.program.Complete ∧
      ¬ ∃ diagnostics,
        ((redundancy .scan .standard []).analyze withoutValue).outcome = .ok diagnostics := by
  have hc : withoutValue.program.Complete := by decide +kernel
  refine ⟨hc, fun hok => ?_⟩
  rcases (analyze_fails_iff_searched_value_absent _ [] withoutValue hc).1.mp hok with hoff | hno
  · exact nomatch hoff
  · have hgap : ∃ x ∈ withoutValue.resources, ReferenceScan.Unsearchable withoutValue true x := by
      decide +kernel
    exact hno (exists_unsearchable_iff.mp hgap)

end InfraLint.Rule
