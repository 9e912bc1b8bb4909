import InfraLint.Proofs.Ownership
import InfraLint.Proofs.Transfer
import InfraLint.Proofs.TreeResources

/-!
Dropping entries from lists of explicit dependencies. In a tree without resources below
properties this changes neither the properties that a scan searches nor the entries that stay, so
that a scan of the edited document infers the same map.
-/
namespace InfraLint

/-- No resource is declared below a property. -/
def Node.FlatProperties (n : Node) : Prop :=
  ∀ p, .property p ∈ n.preorder → ∀ x, .resourceDecl x ∉ (Node.property p).preorder

/-- The node is no property, or no resource is below it. -/
def Node.isFlat : Node → Bool
  | .property p => ((Node.property p).preorder.filterMap Node.resource?).isEmpty
  | _ => true

theorem Node.flatProperties_iff {n : Node} :
    n.FlatProperties ↔ ∀ k ∈ n.preorder, k.isFlat = true := by
  have hflat : ∀ p, (Node.property p).isFlat = true ↔
      ∀ x, .resourceDecl x ∉ (Node.property p).preorder := by
    intro p
    rw [← resourcesIn_eq_nil_iff]
    exact List.isEmpty_iff
  constructor
  · intro h k hk
    cases k with
    | property p => exact (hflat p).mpr (h p hk)
    | _ => rfl
  · exact fun h p hp => (hflat p).mp (h _ hp)

instance (n : Node) : Decidable n.FlatProperties :=
  decidable_of_iff _ Node.flatProperties_iff.symm

/-- Items of these identities are entries of resources. -/
def Node.AreEntries (n : Node) (gone : List Identity) : Prop :=
  ∀ i, .item i ∈ n.preorder → i.origin.id ∈ gone →
    ∃ x k, .resourceDecl x ∈ n.preorder ∧ x.Lists k i

section Document

variable {root : Node} {gone : List Identity}

theorem Node.AreEntries.resources_below (hg : root.AreEntries gone) (hf : root.FlatProperties)
    {i : Item} (hi : .item i ∈ root.preorder) (hgone : i.origin.id ∈ gone) :
    (Node.item i).preorder.filterMap Node.resource? = [] := by
  obtain ⟨x, k, hx, hlists⟩ := hg i hi hgone
  obtain ⟨p, hp, hbelow⟩ := Resource.exists_property_of_entry hx hlists
  rw [List.filterMap_eq_nil_iff]
  intro n hn
  cases hr : n.resource? with
  | none => rfl
  | some y =>
    rw [Node.resource?_eq_some_iff] at hr
    subst hr
    exact absurd (Node.mem_preorder_trans _ hbelow hn) (hf p hp y)

/-- A property that is no list of explicit dependencies stays as it is. -/
theorem Node.AreEntries.property_edit (hg : root.AreEntries gone) (hd : root.Distinct)
    (hf : root.FlatProperties) {p : Property} (hp : .property p ∈ root.preorder)
    (hname : ¬ p.Named dependsOnKey) : Property.edit (.dropping gone) p = p := by
  have hsame : (Node.property p).edit (.dropping gone) = .property p := by
    refine Node.edit_eq_self _ fun i hi hgone => ?_
    obtain ⟨x, k, hx, hlists⟩ := hg i (Node.mem_preorder_trans root hp hi) hgone
    have hmem := Resource.mem_of_entry hd hx hlists hp (.property p hname) hi (by exact nofun)
    exact hf p hp x hmem
  exact Node.property.inj hsame

/-- An entry that is not dropped stays as it is. -/
theorem Node.AreEntries.entry_edit (hg : root.AreEntries gone) (hd : root.Distinct)
    (hf : root.FlatProperties) {x : Resource} (hx : .resourceDecl x ∈ root.preorder) {k : Nat}
    {i : Item} (hi : x.Lists k i) (hstay : i.origin.id ∉ gone) :
    Item.edit (.dropping gone) i = i := by
  have hmem := Resource.entry_mem_preorder hx hi
  obtain ⟨p, hp, hbelow⟩ := Resource.exists_property_of_entry hx hi
  have hsame : (Node.item i).edit (.dropping gone) = .item i := by
    refine Node.edit_eq_self _ fun j hj hgone => ?_
    obtain ⟨y, l, hy, hlists⟩ := hg j (Node.mem_preorder_trans root hmem hj) hgone
    have hne : Node.item j ≠ .item i := by
      intro heq
      rw [Node.item.inj heq] at hgone
      exact hstay hgone
    have hyi := Resource.mem_of_entry hd hy hlists hmem (.item i) hj hne
    exact hf p hp y (Node.mem_preorder_trans _ hbelow hyi)
  exact Node.item.inj hsame

theorem Node.AreEntries.listed_edit (hg : root.AreEntries gone) (hd : root.Distinct)
    (hc : root.Complete) (hf : root.FlatProperties) {x : Resource}
    (hx : .resourceDecl x ∈ root.preorder) :
    (Resource.edit (.dropping gone) x).listed = x.listed.filter fun i => i.origin.id ∉ gone := by
  rw [Resource.listed_edit]
  refine (List.map_congr_left fun i hi => ?_).trans (List.map_id _)
  obtain ⟨hmem, hstay⟩ := List.mem_filter.mp hi
  obtain ⟨k, hlists⟩ := Resource.exists_lists hc hx hmem
  rw [hg.entry_edit hd hf hx hlists (by simpa using hstay), id_eq]

/-- A scan searches the same properties in an edited body. -/
theorem Node.AreEntries.searched_edit (hg : root.AreEntries gone) (hd : root.Distinct)
    (hf : root.FlatProperties) {body : Object} (hbody : .object body ∈ root.preorder) :
    (Object.edit (.dropping gone) body).searched true = body.searched true := by
  unfold Object.searched
  rw [Object.edit_properties, List.reduceOption_map, List.filter_map]
  have hfilter : ((fun p : Property => decide (p.Searched true)) ∘
      Property.edit (.dropping gone)) = fun p => decide (p.Searched true) := by
    funext p
    refine decide_eq_decide.mpr ?_
    unfold Property.Searched
    rw [Property.named_edit]
  rw [hfilter]
  refine (List.map_congr_left fun p hp => ?_).trans (List.map_id _)
  obtain ⟨hmem, hs⟩ := Object.mem_searched_iff.mp hp
  have hp' : .property p ∈ root.preorder :=
    Node.mem_preorder_of_child hbody (Node.property_mem_children hmem)
  rw [hg.property_edit hd hf hp' fun hname => hs ⟨rfl, hname⟩, id_eq]

end Document

section Models

variable {m m' : Model} {gone : List Identity}

theorem Model.EditedTo.resources_eq (h : m.EditedTo (.dropping gone) m')
    (hf : m.program.FlatProperties) (hg : m.program.AreEntries gone) :
    m'.resources = m.resources.map (Resource.edit (.dropping gone)) := by
  rw [m'.resources_eq, m.resources_eq, h.program]
  exact Node.resources_edit m.program fun i hi hgone => hg.resources_below hf hi hgone

theorem Model.EditedTo.resource_mem (h : m.EditedTo (.dropping gone) m')
    (hf : m.program.FlatProperties) (hg : m.program.AreEntries gone) {x : Resource}
    (hx : x ∈ m.resources) :
    .resourceDecl (Resource.edit (.dropping gone) x) ∈ m'.program.preorder := by
  rw [← Model.mem_resources_iff, h.resources_eq hf hg]
  exact List.mem_map.mpr ⟨x, hx, rfl⟩

theorem Model.EditedTo.symbolOf_resource (h : m.EditedTo (.dropping gone) m')
    (hf : m.program.FlatProperties) (hg : m.program.AreEntries gone) {x : Resource}
    (hx : x ∈ m.resources) :
    m'.symbolOf (some (.resourceDecl (Resource.edit (.dropping gone) x))) =
      (m.symbolOf (some (.resourceDecl x))).map (Symbol.edit (.dropping gone)) := by
  have hmem := h.resource_mem hf hg hx
  rw [← Node.edit_resourceDecl] at hmem ⊢
  exact h.symbolOf_node hmem

theorem Model.EditedTo.complete (h : m.EditedTo (.dropping gone) m') (hc : m.program.Complete) :
    m'.program.Complete := by
  rw [h.program]
  exact hc.edit

namespace ReferenceScan

theorem records_edit (h : m.EditedTo (.dropping gone) m') (hd : m.program.Distinct)
    (hf : m.program.FlatProperties) (hg : m.program.AreEntries gone) {x : Resource}
    (hx : x ∈ m.resources) {body : Object} (hbody : HasBody x.value body) (source : Symbol) :
    records m' true (source.edit (.dropping gone)) (Object.edit (.dropping gone) body) =
      (records m true source body).map (Dependency.edit (.dropping gone)) := by
  have hobject := Resource.body_mem_preorder (Model.mem_resources_iff.mp hx) hbody
  have hedited : HasBody (Resource.edit (.dropping gone) x).value
      (Object.edit (.dropping gone) body) := by
    rw [← body_eq_some_iff, Resource.edit_value, Node.body_edit, hbody.body_eq]
    rfl
  have hobject' := Resource.body_mem_preorder (h.resource_mem hf hg hx) hedited
  have hsearched := hg.searched_edit hd hf hobject
  unfold records
  rw [hsearched, List.map_flatMap]
  refine List.flatMap_congr fun p hp => ?_
  rw [List.map_filterMap]
  refine List.filterMap_congr fun n hn => record_edit h source ?_
  rw [← hsearched] at hp
  have hp' := Node.property_mem_children (Object.mem_searched_iff.mp hp).1
  cases hv : p.value with
  | none =>
    rw [hv] at hn
    exact absurd hn List.not_mem_nil
  | some v =>
    rw [hv] at hn
    have hv' := Node.mem_children_property hv
    have hbelow := Node.mem_preorder_of_child (Node.mem_preorder_of_child hobject' hp') hv'
    exact Node.mem_preorder_trans _ hbelow hn

theorem setOf_edit (h : m.EditedTo (.dropping gone) m') (hd : m.program.Distinct)
    (hf : m.program.FlatProperties) (hg : m.program.AreEntries gone) {x : Resource}
    (hx : x ∈ m.resources) :
    setOf m' true (Resource.edit (.dropping gone) x) =
      (setOf m true x).map fun entry =>
        (entry.1.edit (.dropping gone), entry.2.map (Dependency.edit (.dropping gone))) := by
  unfold setOf
  rw [h.symbolOf_resource hf hg hx, Resource.body_edit]
  cases m.symbolOf (some (.resourceDecl x)) with
  | none => rfl
  | some source =>
    cases hbody : x.body with
    | none => rfl
    | some body =>
      have hhas : HasBody x.value body := body_eq_some_iff.mp hbody
      have hrecords := records_edit h hd hf hg hx hhas source
      simp only [Option.map_some, Option.bind_some, hrecords, Dependency.ofList_edit]

/-- A scan of the edited document infers what it inferred. -/
theorem mapOf_edit (h : m.EditedTo (.dropping gone) m') (hd : m.program.Distinct)
    (hf : m.program.FlatProperties) (hg : m.program.AreEntries gone) :
    mapOf m' true = (mapOf m true).edit (.dropping gone) := by
  have hsets : m'.resources.filterMap (setOf m' true) =
      (m.resources.filterMap (setOf m true)).map fun entry =>
        (entry.1.edit (.dropping gone), entry.2.map (Dependency.edit (.dropping gone))) := by
    rw [h.resources_eq hf hg, List.filterMap_map, List.map_filterMap]
    exact List.filterMap_congr fun x hx => setOf_edit h hd hf hg hx
  unfold mapOf
  rw [hsets]
  exact DependencyMap.collect_edit _ _

theorem unsearchable_edit (h : m.EditedTo (.dropping gone) m') (hd : m.program.Distinct)
    (hf : m.program.FlatProperties) (hg : m.program.AreEntries gone) {x : Resource}
    (hx : x ∈ m.resources)
    (hgap : Unsearchable m' true (Resource.edit (.dropping gone) x)) : Unsearchable m true x := by
  obtain ⟨hsome, body', hbody', p, hp, hv⟩ := hgap
  rw [h.symbolOf_resource hf hg hx, Option.isSome_map] at hsome
  rw [← body_eq_some_iff, Resource.edit_value, Node.body_edit, Option.map_eq_some_iff] at hbody'
  obtain ⟨body, hbody, rfl⟩ := hbody'
  have hhas : HasBody x.value body := body_eq_some_iff.mp hbody
  have hobject := Resource.body_mem_preorder (Model.mem_resources_iff.mp hx) hhas
  rw [hg.searched_edit hd hf hobject] at hp
  exact ⟨hsome, body, hhas, p, hp, hv⟩

end ReferenceScan

end Models

end InfraLint
