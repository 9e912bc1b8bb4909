import InfraLint.Proofs.Hiding

/-!
Explicit dependencies do not get into inferred ones. A scan that ignores explicit dependencies
comes, on a document with its lists hidden, to what it comes to on the document. Main statement:
on two documents that are the same but for the values of their lists, such a scan fails in the
same way, or it infers the same sets for the same sources.
-/
namespace InfraLint

theorem Property.hide_of_not_named {p : Property} (h : ¬ p.Named dependsOnKey) : p.hide = p :=
  if_neg h

theorem Property.key_hide (p : Property) : p.hide.key = p.key := by
  unfold hide
  split <;> rfl

theorem Object.properties_edit_hide {root : Node} (hf : root.FlatProperties) {x : Object}
    (hx : .object x ∈ root.preorder) :
    (Object.edit .hiding x).hide.properties = x.properties.map (Option.map Property.hide) :=
  congrArg (List.map (Option.map Property.hide)) (Object.edit_hiding_properties hf hx)

namespace Model.EditedTo

variable {m m' : Model}

theorem resources_hiding (h : m.EditedTo .hiding m') (hf : m.program.FlatProperties) :
    m'.resources = m.resources.map (Resource.edit .hiding) := by
  rw [m'.resources_eq, m.resources_eq, h.program]
  exact Node.resourcesIn_edit_hiding hf

theorem resource_mem_hiding (h : m.EditedTo .hiding m') (hf : m.program.FlatProperties)
    {x : Resource} (hx : x ∈ m.resources) :
    .resourceDecl (Resource.edit .hiding x) ∈ m'.program.preorder := by
  rw [← Model.mem_resources_iff, h.resources_hiding hf]
  exact List.mem_map.mpr ⟨x, hx, rfl⟩

theorem symbolOf_resource_hiding (h : m.EditedTo .hiding m') (hf : m.program.FlatProperties)
    {x : Resource} (hx : x ∈ m.resources) :
    m'.symbolOf (some (.resourceDecl (Resource.edit .hiding x))) =
      (m.symbolOf (some (.resourceDecl x))).map (Symbol.edit .hiding) := by
  have hid : (Node.resourceDecl (Resource.edit .hiding x)).id = (Node.resourceDecl x).id :=
    congrArg Origin.id x.origin_edit_hiding
  rw [h.symbolOf _ (h.resource_mem_hiding hf hx)]
  simp only [Model.symbolOf, hid]

end Model.EditedTo

namespace ReferenceScan

variable {m m' : Model}

/-- A property whose value is hidden is passed over, and any other is as it was. -/
theorem outcome_ofProperty_hide (h : m.EditedTo .hiding m') (source : Symbol)
    {place : Option Property}
    (hplace : ∀ p n, place.map Property.hide = some p → p.value = some n →
      n ∈ m'.program.preorder) :
    (ofProperty m' true (source.edit .hiding) (place.map Property.hide)).outcome =
      (ofProperty m true source place).outcome.map (List.map (Dependency.edit .hiding)) := by
  cases place with
  | none => rfl
  | some p =>
    by_cases hname : p.Named dependsOnKey
    · obtain ⟨k, hk, htext⟩ := hname
      have hk' : p.hide.key = some k := p.key_hide.trans hk
      have hnot : ¬ p.Searched true := fun hs => hs ⟨rfl, k, hk, htext⟩
      have hnot' : ¬ p.hide.Searched true := fun hs => hs ⟨rfl, k, hk', htext⟩
      rw [Option.map_some, outcome_ofProperty _ hk, outcome_ofProperty _ hk', if_neg hnot,
        if_neg hnot']
      rfl
    · rw [Option.map_some, Property.hide_of_not_named hname] at hplace ⊢
      have hvalue := outcome_ofValue_edit h source fun n hn => hplace p n rfl hn
      unfold ofProperty
      simp only [Journal.outcome_bind, Journal.outcome_lift]
      cases passesOver true (some p) with
      | error f => rfl
      | ok passed =>
        cases passed with
        | true => rfl
        | false => exact hvalue

/-- A resource with its list hidden has the set that it had. -/
theorem outcome_ofResource_hiding (h : m.EditedTo .hiding m') (hf : m.program.FlatProperties)
    {x : Resource} (hx : x ∈ m.resources) :
    (ofResource m' true (Resource.edit .hiding x)).outcome =
      (ofResource m true x).outcome.map (List.map fun entry =>
        (entry.1.edit .hiding, entry.2.map (Dependency.edit .hiding))) := by
  unfold ofResource Audit.ask
  simp only [Journal.outcome_bind, Journal.outcome_note, Journal.outcome_pure, Except.bind,
    h.symbolOf_resource_hiding hf hx, Resource.body_edit_hiding]
  cases m.symbolOf (some (.resourceDecl x)) with
  | none => rfl
  | some source =>
    cases hbody : x.body with
    | none => rfl
    | some body =>
      have hmem := Resource.body_mem_preorder (Model.mem_resources_iff.mp hx)
        (body_eq_some_iff.mp hbody)
      have hedited : (Resource.edit .hiding x).body = some (Object.edit .hiding body).hide := by
        rw [Resource.body_edit_hiding, hbody]
        rfl
      have hmem' := Resource.body_mem_preorder (h.resource_mem_hiding hf hx)
        (body_eq_some_iff.mp hedited)
      have hproperties := Object.properties_edit_hide hf hmem
      have hplaces : ∀ place ∈ body.properties, ∀ p n, place.map Property.hide = some p →
          p.value = some n → n ∈ m'.program.preorder := by
        intro place hplace p n hp hn
        have hchild : some p ∈ (Object.edit .hiding body).hide.properties := by
          rw [hproperties]
          exact List.mem_map.mpr ⟨place, hplace, hp⟩
        have hproperty := Node.mem_preorder_of_child hmem' (Node.property_mem_children hchild)
        exact Node.mem_preorder_of_child hproperty (Node.mem_children_property hn)
      have hreferences := Journal.outcome_forEach_map fun place hplace =>
        outcome_ofProperty_hide h source (hplaces place hplace)
      simp only [Option.map_some, Journal.outcome_bind, hproperties, hreferences]
      cases (Journal.forEach (ofProperty m true source) body.properties).outcome with
      | error f => rfl
      | ok references =>
        refine congrArg (fun set => Except.ok [(source.edit .hiding, set)]) ?_
        exact Dependency.ofList_edit .hiding references

/-- A scan that ignores explicit dependencies does so: hiding them changes nothing for it. -/
theorem outcome_scan_hiding (h : m.EditedTo .hiding m') (hf : m.program.FlatProperties) :
    (scan m' true).outcome = (scan m true).outcome.map (DependencyMap.edit .hiding) := by
  have hsets := Journal.outcome_forEach_map fun x hx => outcome_ofResource_hiding h hf hx
  unfold scan Audit.ask
  simp only [Journal.outcome_bind, Journal.outcome_note, Journal.outcome_pure, Except.bind,
    h.resources_hiding hf, hsets]
  cases (Journal.forEach (ofResource m true) m.resources).outcome with
  | error f => rfl
  | ok sets => exact congrArg Except.ok (DependencyMap.collect_edit .hiding sets)

end ReferenceScan

/-- The documents are the same but for their lists of explicit dependencies, and what is outside
of these lists stands for the same symbols. -/
structure Model.SameButLists (m m' : Model) : Prop where
  program : m.program.edit .hiding = m'.program.edit .hiding
  symbolOf : ∀ k ∈ (m.program.edit .hiding).preorder,
    (m.symbolOf (some k)).map (Symbol.edit .hiding) =
      (m'.symbolOf (some k)).map (Symbol.edit .hiding)

theorem Model.sameButLists_of_edit {m m' : Model} (h : m.edit .hiding = m'.edit .hiding) :
    m.SameButLists m' where
  program := congrArg Model.program h
  symbolOf k hk := by
    have hk' : k ∈ (m'.edit .hiding).program.preorder := h ▸ hk
    rw [← (m.editedTo_edit .hiding).symbolOf k hk, ← (m'.editedTo_edit .hiding).symbolOf k hk', h]

theorem Model.SameButLists.editedTo {m m' : Model} (h : m.SameButLists m') :
    m'.EditedTo .hiding (m.edit .hiding) where
  program := h.program
  symbolOf k hk := ((m.editedTo_edit .hiding).symbolOf k hk).trans (h.symbolOf k hk)

namespace ReferenceScan

/-- Lists of explicit dependencies do not leak into inferred ones: if two documents without
resources below properties are the same but for such lists, a scan that ignores them fails on
both in the same way, or it gives the same targets and indices to the same sources. -/
theorem scan_ignores_explicit_lists (m m' : Model) (hf : m.program.FlatProperties)
    (hf' : m'.program.FlatProperties) (h : m.SameButLists m') :
    (scan m true).outcome.map (DependencyMap.edit .hiding) =
      (scan m' true).outcome.map (DependencyMap.edit .hiding) := by
  rw [← outcome_scan_hiding (m.editedTo_edit .hiding) hf, ← outcome_scan_hiding h.editedTo hf']

section Sample

open Redundancy.Sample

/-- A document with two resources, the second of them with a reference to the first one in a
property and with any value in the place of its list. -/
def relisted (value : Option Node) : Model :=
  let body : Object := ⟨originAt 20, [some (property 21 "site" (some (reference 23 "store"))),
    some (property 25 dependsOnKey value)], []⟩
  let web := resource 40 "web" (.object body)
  let webSymbol : Symbol := ⟨⟨1, 1⟩, .resource, some "web", some (.resourceDecl web)⟩
  { maker := 1
    program := .program ⟨originAt 0, [some (.resourceDecl store), some (.resourceDecl web)]⟩
    bindings := [⟨⟨0, 34⟩, storeSymbol⟩, ⟨⟨0, 31⟩, storeSymbol⟩, ⟨⟨0, 23⟩, storeSymbol⟩,
      ⟨⟨0, 40⟩, webSymbol⟩, ⟨⟨0, 10⟩, storeSymbol⟩]
    issued := 2 }

theorem edit_relisted (value value' : Option Node) :
    (relisted value).edit .hiding = (relisted value').edit .hiding := rfl

/-- The list with two entries, and no value at all in its place. -/
theorem scan_ignores_explicit_lists_sample :
    (relisted (some (.array list))).program.FlatProperties ∧
      (relisted none).program.FlatProperties ∧
      (relisted (some (.array list))).SameButLists (relisted none) ∧
      (scan (relisted none) false).outcome.toOption.isNone ∧
      (scan (relisted none) true).outcome.map (List.map fun entry => entry.1.id) =
        .ok [⟨1, 1⟩] ∧
      (scan (relisted (some (.array list))) true).outcome.map (DependencyMap.edit .hiding) =
        (scan (relisted none) true).outcome.map (DependencyMap.edit .hiding) := by
  have hf : (relisted (some (.array list))).program.FlatProperties := by decide +kernel
  have hf' : (relisted none).program.FlatProperties := by decide +kernel
  have hsame := Model.sameButLists_of_edit (edit_relisted (some (.array list)) none)
  exact ⟨hf, hf', hsame, by decide +kernel, by decide +kernel,
    scan_ignores_explicit_lists _ _ hf hf' hsame⟩

end Sample

end ReferenceScan

end InfraLint
