import InfraLint.Proofs.Analysis
import InfraLint.Proofs.Writing
import InfraLint.Session

/-!
What an analysis for redundant entries writes down, and what it reports. It consults its provider
once, explicit entries to be ignored, before anything can fail; off, it writes down nothing. All
events that an analysis or an audit is to log can be written.
-/
namespace InfraLint

namespace Journal

variable {ν ε α β : Type}

theorem notes_bind (first : Journal ν ε α) (next : α → Journal ν ε β) :
    (first >>= next).notes =
      first.notes ++ (first.outcome.toOption.elim [] fun a => (next a).notes) := by
  rw [bind_eq]
  unfold andThen
  cases first.outcome with
  | error e => exact (List.append_nil _).symm
  | ok a => rfl

theorem notes_forEach {f : α → Journal ν ε (List β)} (h : ∀ x, (f x).notes = []) (xs : List α) :
    (forEach f xs).notes = [] := by
  induction xs with
  | nil => rfl
  | cons x rest ih =>
    rw [forEach_cons, ← bind_eq, notes_bind, h x]
    cases (f x).outcome with
    | error e => rfl
    | ok here =>
      show ((forEach f rest) >>= fun more => ok (here ++ more)).notes = []
      rw [notes_bind, ih]
      cases (forEach f rest).outcome <;> rfl

end Journal

theorem Note.takesAll (n : Note) (index : Nat) (e : Event) (h : n.event? = some (index, e))
    (style : Style) : style.TakesAll e.fields := by
  cases n with
  | asked q => exact nomatch h
  | skipped resource =>
    obtain ⟨_, rfl⟩ := Prod.mk.inj (Option.some.inj h)
    intro p hp
    simp only [skipEvent, List.mem_cons, List.not_mem_nil, or_false] at hp
    rcases hp with rfl | rfl
    · exact style.takes_of_spellable (by decide) (Datum.spellable_ofText resource.name)
    · exact style.takes_text (by decide) _

theorem RuleNote.takesAll (n : RuleNote) (index : Nat) (e : Event)
    (h : n.event? = some (index, e)) (style : Style) : style.TakesAll e.fields := by
  cases n with
  | audit n => exact Note.takesAll n index e h style
  | consulted ignoreExplicit => exact nomatch h
  | analyzed code count =>
    obtain ⟨_, rfl⟩ := Prod.mk.inj (Option.some.inj h)
    intro p hp
    simp only [analyzedEvent, List.mem_cons, List.not_mem_nil, or_false] at hp
    rcases hp with rfl | rfl
    · exact style.takes_text (by decide) _
    · exact style.takes_of_spellable (by decide) trivial

namespace Rule

theorem consultations_ofAudit {α : Type} (a : Audit α) :
    RuleNote.consultations (ofAudit a).notes = [] := by
  refine List.filterMap_eq_nil_iff.mpr fun n hn => ?_
  obtain ⟨k, _, rfl⟩ := List.mem_map.mp hn
  rfl

theorem notes_reportRedundancy (r : Rule) (x : Redundancy) : (r.reportRedundancy x).notes = [] := by
  unfold reportRedundancy
  rw [Journal.notes_bind]
  cases (ofFormat (r.diagnosticAt x.entry.origin.span [.ofText x.target.name]
    [Fix.removal removalTitle x.entry.origin.span])).outcome <;> rfl

variable {provider : Provider} {settings : RuleSettings} {consultations : List Bool}

theorem notes_analyze_of_off (hoff : settings.level = .off) (m : Model) :
    ((redundancy provider settings consultations).analyze m).notes = [] := by
  unfold analyze
  rw [if_pos (show (redundancy provider settings consultations).level = .off from hoff)]
  rfl

/-- What consults nobody adds no consultation. -/
private theorem consultations_bind {α β : Type} (first : Analysis α) {next : α → Analysis β}
    (h : ∀ a, RuleNote.consultations (next a).notes = []) :
    RuleNote.consultations (first >>= next).notes = RuleNote.consultations first.notes := by
  unfold RuleNote.consultations at h ⊢
  rw [Journal.notes_bind, List.filterMap_append]
  cases first.outcome with
  | error e => exact List.append_nil _
  | ok a =>
    simp only [Except.toOption, Option.elim_some]
    rw [h a, List.append_nil]

/-- An analysis that is on consults its provider once, however it comes out. -/
theorem consultations_analyze (hon : settings.level ≠ .off) (m : Model) :
    RuleNote.consultations ((redundancy provider settings consultations).analyze m).notes =
      [true] := by
  have hreports : ∀ found : List Redundancy, RuleNote.consultations (Journal.forEach
      (redundancy provider settings consultations).reportRedundancy found).notes = [] := by
    intro found
    rw [Journal.notes_forEach (notes_reportRedundancy _)]
    rfl
  have hfind : RuleNote.consultations
      ((redundancy provider settings consultations).findAll m).notes = [true] := by
    refine (consultations_bind _ fun _ => ?_).trans rfl
    refine (consultations_bind _ fun map => ?_).trans (consultations_ofAudit _)
    exact (consultations_bind _ hreports).trans (consultations_ofAudit _)
  unfold analyze
  rw [if_neg (show (redundancy provider settings consultations).level ≠ .off from hon)]
  exact (consultations_bind _ fun diagnostics => rfl).trans hfind

end Rule

end InfraLint
