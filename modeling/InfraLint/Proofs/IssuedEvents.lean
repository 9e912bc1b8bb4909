import InfraLint.Proofs.Questions

/-!
The events of an analysis. An audit logs that it skips a resource where the resource has a list of
dependencies and its symbol is no key of the map; an analysis that comes to its end logs that it
has done so. Main statement: in a complete document, and with a provider of a fixed map, these are
all events, in document order.
-/
namespace InfraLint

namespace Redundancy

variable {m : Model} {map : DependencyMap}

/-- An audit skips the resource: it has a list of dependencies, and what it stands for is no key of
the map. -/
structure Skips (m : Model) (map : DependencyMap) (x : Resource) (source : Symbol) : Prop where
  listed : ∃ a, x.HasList a
  resolved : m.symbolOf (some (.resourceDecl x)) = some source
  unmapped : ∀ e ∈ map, e.1.id ≠ source.id

/-- The events that the audit of a resource comes to. -/
inductive Logs (m : Model) (map : DependencyMap) (x : Resource) : List (Nat × Event) → Prop
  | skipped {source : Symbol} (h : Skips m map x source) :
      Logs m map x [(OwnLogger.redundancy.index, skipEvent source)]
  | checked (h : ∀ source, ¬ Skips m map x source) : Logs m map x []

theorem events_ofItem (source : Symbol) (records : List Dependency) (item : Item) :
    (ofItem m source records item).notes.filterMap Note.event? = [] := by
  unfold ofItem
  rw [Audit.notes_ask_bind]
  cases m.symbolOf item.value with
  | none => rfl
  | some target =>
    cases hentity : target.isEntity with
    | false =>
      simp only [hentity, Bool.not_false, if_true]
      rfl
    | true =>
      simp only [hentity, Bool.not_true, Bool.false_eq_true, if_false]
      rw [Audit.notes_ask_bind]
      cases target.isCollection <;> cases implied records target <;> rfl

theorem events_entries (source : Symbol) (records : List Dependency) (items : List Item) :
    (Journal.forEach (ofPlace m source records) (items.map some)).notes.filterMap Note.event? =
      [] := by
  induction items with
  | nil => rfl
  | cons item rest ih =>
    have hitem : (ofPlace m source records (some item)).outcome = _ :=
      outcome_ofItem source records item
    rw [List.map_cons, Journal.notes_forEach_cons hitem, List.filterMap_append, ih,
      List.append_nil]
    exact events_ofItem source records item

theorem logs_ofResource (hc : m.program.Complete) {x : Resource}
    (hx : .resourceDecl x ∈ m.program.preorder) :
    Logs m map x ((ofResource m map x).notes.filterMap Note.event?) := by
  have hr := Resource.readable_of_complete hc hx
  unfold ofResource
  by_cases hlist : ∃ a, x.HasList a
  · obtain ⟨a, ha⟩ := hlist
    rw [Resource.explicitEntries_of_hasList hr ha, Journal.notes_lift_bind]
    show Logs m map x (List.filterMap _ (Audit.ask _ _ >>= _).notes)
    rw [Audit.notes_ask_bind, List.filterMap_cons_none rfl]
    cases hsource : m.symbolOf (some (.resourceDecl x)) with
    | none => exact .checked fun source h => nomatch hsource.symm.trans h.resolved
    | some source =>
      cases hmap : map.get? source with
      | none =>
        simp only [hmap]
        exact .skipped ⟨⟨a, ha⟩, hsource, DependencyMap.get?_eq_none_iff.mp hmap⟩
      | some records =>
        simp only [hmap]
        rw [← Resource.listed_of_hasList hc hx ha, events_entries source records x.listed]
        obtain ⟨e, he, hid⟩ := DependencyMap.exists_get?_eq_some_iff.mp ⟨records, hmap⟩
        refine .checked fun source' h => h.unmapped e he ?_
        rw [hid, Option.some.inj (hsource.symm.trans h.resolved)]
  · have hno : ∀ a, ¬ x.HasList a := fun a ha => hlist ⟨a, ha⟩
    rw [Resource.explicitEntries_of_not_hasList hr hno, Journal.notes_lift_bind]
    exact .checked fun source h => hlist h.listed

theorem audit_logs_in_order (m : Model) (map : DependencyMap) (hc : m.program.Complete) :
    ∃ logged, (audit m map).notes.filterMap Note.event? = logged.flatten ∧
      List.Forall₂ (Logs m map) (m.program.preorder.filterMap Node.resource?) logged := by
  rw [← m.resources_eq]
  obtain ⟨written, hnotes, hall⟩ := Journal.exists_notes_forEach (ofResource m map)
    (fun x notes => Logs m map x (notes.filterMap Note.event?)) m.resources
    (fun x hx => ⟨_, outcome_ofResource
      (Resource.legible_of_complete hc (Model.mem_resources_iff.mp hx))⟩)
    (fun x hx => logs_ofResource hc (Model.mem_resources_iff.mp hx))
  refine ⟨written.map (List.filterMap Note.event?), ?_, ?_⟩
  · unfold audit
    rw [Audit.notes_ask_bind, List.filterMap_cons_none rfl, hnotes, List.filterMap_flatten]
  · rw [List.forall₂_map_right_iff]
    exact hall

end Redundancy

/-- All events go to the library's own loggers. -/
theorem RuleNote.exists_own {n : RuleNote} {p : Nat × Event} (h : n.event? = some p) :
    ∃ o : OwnLogger, p.1 = o.index := by
  cases n with
  | audit n =>
    cases n with
    | asked q => exact nomatch h
    | skipped resource =>
      obtain rfl := Option.some.inj h
      exact ⟨.redundancy, rfl⟩
  | consulted ignoreExplicit => exact nomatch h
  | analyzed code count =>
    obtain rfl := Option.some.inj h
    exact ⟨.rules, rfl⟩

def Rule.events (r : Rule) (m : Model) : List (Nat × Event) :=
  (r.analyze m).notes.filterMap RuleNote.event?

namespace Rule

variable {settings : RuleSettings} {consultations : List Bool} {m : Model} {map : DependencyMap}

/-- What an analysis with a fixed map writes down if it comes to its end. -/
theorem notes_analyze_fixed (hon : settings.level ≠ .off) {found : List Redundancy}
    (hfound : Redundancy.find m map = .ok found) :
    ((redundancy (.fixed map) settings consultations).analyze m).notes =
      .consulted true :: ((Redundancy.audit m map).notes.map .audit ++
        [.analyzed redundancyTitle.code found.length]) := by
  have hreports : (Journal.forEach
      (redundancy (.fixed map) settings consultations).reportRedundancy found).outcome =
        .ok (found.map (diagnosticOf settings)) := by
    rw [Journal.outcome_forEach_ok fun x _ => outcome_reportRedundancy x]
    exact congrArg Except.ok List.map_eq_flatMap.symm
  have haudit : (ofAudit (Redundancy.audit m map)).outcome = .ok found := by
    rw [outcome_ofAudit]
    exact congrArg (Except.mapError RuleError.fault) hfound
  have hcheck : (redundancy (.fixed map) settings consultations).check =
      .redundantEntries (.fixed map) := rfl
  have hmap : (ofAudit ((Provider.fixed map).infer m true)).outcome = .ok map := rfl
  have hfind : ((redundancy (.fixed map) settings consultations).findAll m).outcome =
      .ok (found.map (diagnosticOf settings)) := by
    simp only [findAll, hcheck, Journal.outcome_bind, Journal.outcome_note, hmap, haudit, hreports,
      Except.bind]
  have hnotes : ((redundancy (.fixed map) settings consultations).findAll m).notes =
      .consulted true :: (Redundancy.audit m map).notes.map .audit := by
    simp only [findAll, hcheck, Journal.notes_bind, Journal.outcome_note, hmap, haudit,
      Except.toOption, Option.elim_some, Journal.notes_forEach (notes_reportRedundancy _),
      List.append_nil]
    rfl
  unfold analyze
  rw [if_neg (show (redundancy (.fixed map) settings consultations).level ≠ .off from hon)]
  simp only [Journal.notes_bind, hfind, hnotes, Except.toOption, Option.elim_some,
    List.length_map]
  rfl

theorem analyze_issues (hon : settings.level ≠ .off) (hc : m.program.Complete) :
    ∃ diagnostics logged,
      ((redundancy (.fixed map) settings consultations).analyze m).outcome = .ok diagnostics ∧
      List.Forall₂ (Redundancy.Logs m map) (m.program.preorder.filterMap Node.resource?) logged ∧
      (redundancy (.fixed map) settings consultations).events m = logged.flatten ++
        [(OwnLogger.rules.index, analyzedEvent redundancyTitle.code diagnostics.length)] := by
  obtain ⟨logged, hlogged, hall⟩ := Redundancy.audit_logs_in_order m map hc
  obtain ⟨found, hfound⟩ : ∃ found, Redundancy.find m map = .ok found := ⟨_, Redundancy.find_eq hc⟩
  refine ⟨found.map (diagnosticOf settings), logged, ?_, hall, ?_⟩
  · rw [outcome_analyze hon]
    show ((Redundancy.find m map).mapError RuleError.fault).map _ = _
    rw [hfound]
    rfl
  · unfold events
    rw [notes_analyze_fixed hon hfound, List.filterMap_cons_none rfl, List.filterMap_append,
      List.filterMap_map, List.length_map, ← hlogged]
    rfl

end Rule

end InfraLint
