import InfraLint.Proofs.Analysis

/-!
Templates of messages, and the rules that report every resource. A template can be filled with
some values that can be put into words or not, and which of the two, and why not, depends on how
many values there are. Main statement: for a rule that reports every resource, it makes no
difference to the failure of an analysis which documents are analyzed, as long as they have a
resource; where the analysis succeeds, its diagnostics are those of the resources in document
order.

The fields covered are those for a value by number or for the next value, those with a name, and
those of the first two kinds with a mark for the spelling. A template with a field that goes into
its value (`0[1]`) or lays it out (`0:>9`) counts as failing with `TemplateError.uncovered`, and
what is stated here says nothing about such templates: whether they work may well depend on the
document.
-/
namespace InfraLint

/-- If each member that succeeds comes to one result, a list that succeeds comes to the results of
its members in order. -/
theorem Journal.forall₂_of_outcome_forEach_ok {ν ε α β : Type}
    {f : α → Journal ν ε (List β)} {R : α → β → Prop} {xs : List α}
    (h : ∀ x ∈ xs, ∀ bs, (f x).outcome = .ok bs → ∃ b, R x b ∧ bs = [b])
    {ys : List β} (hok : (forEach f xs).outcome = .ok ys) : List.Forall₂ R xs ys := by
  induction xs generalizing ys with
  | nil =>
    cases hok
    exact .nil
  | cons x rest ih =>
    obtain ⟨here, more, hx, hrest, rfl⟩ := outcome_forEach_cons_eq_ok hok
    obtain ⟨b, hb, rfl⟩ := h x List.mem_cons_self here hx
    exact .cons hb (ih (fun y hy => h y (List.mem_cons_of_mem x hy)) hrest)

namespace Template

/-- The first of the numbers in the fields that is out of range for so many values. -/
def excess? (count : Nat) : List Piece → Option Nat
  | [] => none
  | .literal _ :: rest => excess? count rest
  | .slot index _ :: rest => if index < count then excess? count rest else some index

/-- What keeps a template from being filled with so many values. A field without a value comes
before the flaw, since the pieces end where the flaw is. -/
def obstacle? (t : Template) (count : Nat) : Option TemplateError :=
  match excess? count t.pieces with
  | some index => some (.outOfRange index)
  | none => t.flaw

section Values

variable {values : List Datum} (hwords : ∀ d ∈ values, d.Spellable)

theorem fillAll_cons (piece : Piece) (rest : List Piece) :
    fillAll values (piece :: rest) =
      (fill values piece).bind fun text => (fillAll values rest).bind fun more =>
        .ok (text :: more) := rfl

include hwords in
theorem exists_fill_slot_of_lt {index : Nat} (h : index < values.length)
    (conversion : Conversion) : ∃ text, fill values (.slot index conversion) = .ok text := by
  obtain ⟨text, htext⟩ :=
    (conversion.exists_apply_iff values[index]).mpr (hwords _ (List.getElem_mem h))
  refine ⟨text, ?_⟩
  simp only [fill, List.getElem?_eq_getElem h, htext]
  rfl

theorem fill_slot_of_le {index : Nat} (h : values.length ≤ index) (conversion : Conversion) :
    fill values (.slot index conversion) = .error (.outOfRange index) := by
  simp only [fill, List.getElem?_eq_none h]

/-- The pieces behind one that can be filled decide on what comes of them. -/
theorem fillAll_cons_error_iff {piece : Piece} {text : String} {rest : List Piece}
    {e : TemplateError} (h : fill values piece = .ok text) :
    fillAll values (piece :: rest) = .error e ↔ fillAll values rest = .error e := by
  rw [fillAll_cons, h]
  cases fillAll values rest <;> simp [Except.bind]

include hwords in
theorem fillAll_error_iff {pieces : List Piece} {e : TemplateError} :
    fillAll values pieces = .error e ↔
      ∃ index, excess? values.length pieces = some index ∧ e = .outOfRange index := by
  induction pieces with
  | nil => simp [fillAll, excess?]
  | cons piece rest ih =>
    cases piece with
    | literal s =>
      rw [fillAll_cons_error_iff (show fill values (.literal s) = .ok s from rfl)]
      exact ih
    | slot index conversion =>
      unfold excess?
      by_cases hindex : index < values.length
      · obtain ⟨text, htext⟩ := exists_fill_slot_of_lt hwords hindex conversion
        rw [fillAll_cons_error_iff htext, if_pos hindex]
        exact ih
      · rw [fillAll_cons, fill_slot_of_le (Nat.not_lt.mp hindex), if_neg hindex]
        simp [Except.bind, eq_comm]

include hwords in
/-- Whether a template can be filled depends on the number of the values, and so does the reason
why it cannot. -/
theorem render_error_iff {t : Template} {e : TemplateError} :
    t.render values = .error e ↔ t.obstacle? values.length = some e := by
  unfold render obstacle?
  cases hfill : fillAll values t.pieces with
  | error e' =>
    obtain ⟨index, hindex, rfl⟩ := (fillAll_error_iff hwords).mp hfill
    rw [hindex]
    simp [bind, Except.bind]
  | ok texts =>
    have hnone : excess? values.length t.pieces = none := by
      refine Option.eq_none_iff_forall_ne_some.mpr fun index hindex => ?_
      cases hfill.symm.trans ((fillAll_error_iff hwords).mpr ⟨index, hindex, rfl⟩)
    rw [hnone]
    cases t.flaw <;> simp [bind, Except.bind]

end Values

end Template

namespace Rule

variable {r : Rule} {m : Model} {x : Resource} {name : Identifier}

/-- What keeps a rule from reporting the resources of any document. -/
def obstacle? (r : Rule) : Option RuleError :=
  ((Template.parse r.title.template).obstacle? 1).map RuleError.template

theorem outcome_reportResource (hcheck : r.check = .everyResource) (hname : x.name = some name) :
    (r.reportResource x).outcome =
      ((formatText r.title.template [.ofText name.name]).mapError RuleError.template).map
        fun message => [⟨name.origin.span, r.level, r.title.code, message, some r.docUri, []⟩] := by
  unfold reportResource diagnosticAt formatMessage ofFormat
  rw [hname, hcheck]
  simp only [Journal.outcome_bind, Journal.outcome_lift]
  cases formatText r.title.template [.ofText name.name] <;> rfl

theorem reportResource_error_iff (hcheck : r.check = .everyResource)
    (hname : x.name = some name) {e : RuleError} :
    (r.reportResource x).outcome = .error e ↔ r.obstacle? = some e := by
  have hwords : ∀ d ∈ [Datum.ofText name.name], d.Spellable :=
    List.forall_mem_singleton.mpr (Datum.spellable_ofText name.name)
  have hrender : ∀ f, (Template.parse r.title.template).obstacle? 1 = some f ↔
      formatText r.title.template [.ofText name.name] = .error f :=
    fun f => (Template.render_error_iff hwords).symm
  rw [outcome_reportResource hcheck hname]
  unfold obstacle?
  simp only [Option.map_eq_some_iff, hrender]
  cases formatText r.title.template [.ofText name.name] <;> simp [Except.mapError, Except.map]

theorem exists_of_outcome_reportResource_ok (hcheck : r.check = .everyResource)
    (hname : x.name = some name) {diagnostics : List Diagnostic}
    (h : (r.reportResource x).outcome = .ok diagnostics) :
    ∃ d, d.span = name.origin.span ∧ diagnostics = [d] := by
  rw [outcome_reportResource hcheck hname] at h
  cases hformat : formatText r.title.template [.ofText name.name] with
  | error f =>
    rw [hformat] at h
    cases h
  | ok message =>
    rw [hformat] at h
    exact ⟨_, rfl, (Except.ok.inj h).symm⟩

/-- An analysis comes to what the resources come to one after the other. -/
theorem outcome_analyze_resources (hcheck : r.check = .everyResource) (hon : r.level ≠ .off)
    (m : Model) :
    (r.analyze m).outcome = (Journal.forEach r.reportResource m.resources).outcome := by
  have hask : (ofAudit (Audit.ask .resources m.resources)).outcome = .ok m.resources := rfl
  unfold analyze findAll
  rw [if_neg hon, hcheck]
  simp only [Journal.outcome_bind, hask, Journal.outcome_note, Journal.outcome_pure, Except.bind]
  cases (Journal.forEach r.reportResource m.resources).outcome <;> rfl

/-- An analysis fails as the rule does on any resource. -/
theorem analyze_error_iff (hcheck : r.check = .everyResource) (hon : r.level ≠ .off)
    (hnamed : ∀ x ∈ m.resources, ∃ name, x.name = some name) (hsome : m.resources ≠ [])
    (e : RuleError) : (r.analyze m).outcome = .error e ↔ r.obstacle? = some e := by
  rw [outcome_analyze_resources hcheck hon]
  constructor
  · intro herror
    obtain ⟨x, hx, hxe⟩ := Journal.exists_of_outcome_forEach_error herror
    obtain ⟨name, hname⟩ := hnamed x hx
    exact (reportResource_error_iff hcheck hname).mp hxe
  · intro hobstacle
    have hfails : ∀ x ∈ m.resources, (r.reportResource x).outcome = .error e := by
      intro x hx
      obtain ⟨name, hname⟩ := hnamed x hx
      exact (reportResource_error_iff hcheck hname).mpr hobstacle
    obtain ⟨x, hx⟩ := List.exists_mem_of_ne_nil _ hsome
    exact Journal.outcome_forEach_error (fun y hy => Or.inl (hfails y hy)) ⟨x, hx, hfails x hx⟩

/-- The diagnostics of an analysis stand at the names of the resources. -/
theorem spans_of_outcome_analyze_ok (hcheck : r.check = .everyResource) (hon : r.level ≠ .off)
    (hnamed : ∀ x ∈ m.resources, ∃ name, x.name = some name) {diagnostics : List Diagnostic}
    (h : (r.analyze m).outcome = .ok diagnostics) :
    List.Forall₂ (fun x d => ∃ name, x.name = some name ∧ d.span = name.origin.span)
      m.resources diagnostics := by
  rw [outcome_analyze_resources hcheck hon] at h
  refine Journal.forall₂_of_outcome_forEach_ok (fun x hx ds hds => ?_) h
  obtain ⟨name, hname⟩ := hnamed x hx
  obtain ⟨d, hspan, rfl⟩ := exists_of_outcome_reportResource_ok hcheck hname hds
  exact ⟨d, ⟨name, hname, hspan⟩, rfl⟩

/-- A rule that reports every resource fails on all documents with a resource in the same way, or
on none, whatever covered fields its template has and whether or not it is well formed. If it does
not fail, it reports each resource once, in document order and at its name. Where there is no
resource, it reports nothing. -/
theorem everyResource_fails_alike (hcheck : r.check = .everyResource) (hon : r.level ≠ .off) :
    (∀ m m' : Model, (∃ x, .resourceDecl x ∈ m.program.preorder) →
      (∃ x, .resourceDecl x ∈ m'.program.preorder) →
      (∀ x, .resourceDecl x ∈ m.program.preorder → x.name ≠ none) →
      (∀ x, .resourceDecl x ∈ m'.program.preorder → x.name ≠ none) →
      ∀ e, (r.analyze m).outcome = .error e ↔ (r.analyze m').outcome = .error e) ∧
    (∀ m : Model, (∀ x, .resourceDecl x ∈ m.program.preorder → x.name ≠ none) →
      ∀ diagnostics, (r.analyze m).outcome = .ok diagnostics →
        List.Forall₂ (fun x d => ∃ name, x.name = some name ∧ d.span = name.origin.span)
          (m.program.preorder.filterMap Node.resource?) diagnostics) ∧
    ∀ m : Model, (∀ x, .resourceDecl x ∉ m.program.preorder) → (r.analyze m).outcome = .ok [] := by
  have hnamed : ∀ {m : Model}, (∀ x, .resourceDecl x ∈ m.program.preorder → x.name ≠ none) →
      ∀ x ∈ m.resources, ∃ name, x.name = some name :=
    fun h x hx => Option.ne_none_iff_exists'.mp (h x (Model.mem_resources_iff.mp hx))
  have hsome : ∀ {m : Model}, (∃ x, .resourceDecl x ∈ m.program.preorder) → m.resources ≠ [] :=
    fun ⟨x, hx⟩ => List.ne_nil_of_mem (Model.mem_resources_iff.mpr hx)
  refine ⟨fun m m' hx hx' hm hm' e => ?_, fun m hm diagnostics h => ?_, fun m hm => ?_⟩
  · rw [analyze_error_iff hcheck hon (hnamed hm) (hsome hx),
      analyze_error_iff hcheck hon (hnamed hm') (hsome hx')]
  · rw [← m.resources_eq]
    exact spans_of_outcome_analyze_ok hcheck hon (hnamed hm) h
  · have hnone : m.resources = [] := List.eq_nil_iff_forall_not_mem.mpr fun x hx =>
      hm x (Model.mem_resources_iff.mp hx)
    rw [outcome_analyze_resources hcheck hon, hnone]
    rfl

section Sample

open Redundancy.Sample

/-- A rule that reports every resource in the words of a template. -/
def listing (template : String) : Rule :=
  ⟨⟨"ListingRule", "listing", "Lists resources.", template⟩, .everyResource, .standard, []⟩

def emptyModel : Model := ⟨1, .program ⟨originAt 0, []⟩, [], 0⟩

private theorem exists_resource {m : Model} (h : m.resources ≠ []) :
    ∃ x, .resourceDecl x ∈ m.program.preorder :=
  (List.exists_mem_of_ne_nil _ h).imp fun _ => Model.mem_resources_iff.mp

private theorem named_of_resources {m : Model} (h : ∀ x ∈ m.resources, x.name ≠ none) :
    ∀ x, .resourceDecl x ∈ m.program.preorder → x.name ≠ none :=
  fun x hx => h x (Model.mem_resources_iff.mpr hx)

theorem everyResource_fails_alike_sample :
    (∃ e, ((listing "\x7b0!r\x7d or \x7b1\x7d").analyze model).outcome = .error e ∧
      ((listing "\x7b0!r\x7d or \x7b1\x7d").analyze withoutValue).outcome = .error e) ∧
    (∃ diagnostics, ((listing "\x7b\x7d").analyze model).outcome = .ok diagnostics ∧
      diagnostics.length = 2) ∧
    ((listing "\x7b").analyze emptyModel).outcome = .ok [] := by
  have hnamed := @named_of_resources model (by decide +kernel)
  refine ⟨⟨.template (.outOfRange 1), ?_⟩, ?_, ?_⟩
  · have herror : ((listing "\x7b0!r\x7d or \x7b1\x7d").analyze model).outcome =
        .error (.template (.outOfRange 1)) := by decide +kernel
    exact ⟨herror, ((@everyResource_fails_alike (listing _) rfl nofun).1 model withoutValue
      (exists_resource (by decide +kernel)) (exists_resource (by decide +kernel)) hnamed
      (named_of_resources (by decide +kernel)) _).mp herror⟩
  · have hworks : ((listing "\x7b\x7d").analyze model).outcome.toOption.isSome = true := by
      decide +kernel
    obtain ⟨diagnostics, hsome⟩ := Option.isSome_iff_exists.mp hworks
    have hok := Journal.eq_ok_of_toOption hsome
    have hspans := (@everyResource_fails_alike (listing _) rfl nofun).2.1 model hnamed _ hok
    refine ⟨diagnostics, hok, ?_⟩
    rw [← hspans.length_eq, ← Model.resources_eq]
    decide +kernel
  · refine (@everyResource_fails_alike (listing _) rfl nofun).2.2 emptyModel fun x hx => ?_
    have hnone : emptyModel.resources = [] := by decide +kernel
    rw [← Model.mem_resources_iff, hnone] at hx
    exact absurd hx List.not_mem_nil

end Sample

end Rule

end InfraLint
