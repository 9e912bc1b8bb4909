import InfraLint.Proofs.DroppedEntries
import InfraLint.Proofs.TreeResources

/-!
Documents with their lists of explicit dependencies hidden. Hiding takes away the values of all
properties with the key of explicit dependencies that stand directly in bodies of resources, and
nothing else. So two documents are the same up to such lists just if hiding makes them equal.
In a document without resources below properties hiding leaves all resources and every property
that a scan searches.
-/
namespace InfraLint

namespace Node

/-- The object at a place changed, if one is there. -/
def mapObject (f : Object → Object) : Option Node → Option Node
  | some (.object x) => some (.object (f x))
  | value => value

/-- The object at a place or under a condition changed, if there is one. -/
def mapGuarded (f : Object → Object) : Option Node → Option Node
  | some (.conditional c) => some (.conditional { c with body := mapObject f c.body })
  | value => mapObject f value

/-- A value with its body changed, if it has one. -/
def mapBody (f : Object → Object) : Option Node → Option Node
  | some (.loop l) => some (.loop { l with body := mapGuarded f l.body })
  | value => mapGuarded f value

end Node

/-- A property of explicit dependencies without its value; any other property as it is. -/
def Property.hide (p : Property) : Property :=
  if p.Named dependsOnKey then { p with value := none } else p

def Object.hide (x : Object) : Object :=
  { x with properties := x.properties.map (Option.map Property.hide) }

/-- The edit that hides the lists of explicit dependencies in the bodies of all resources. -/
def Edit.hiding : Edit where
  resource x := { x with value := Node.mapBody Object.hide x.value }

namespace Node

theorem underLoop_mapBody (f : Object → Object) (value : Option Node) :
    underLoop (mapBody f value) = mapGuarded f (underLoop value) := by
  rcases value with _ | n
  · rfl
  · cases n <;> rfl

theorem underCondition_mapGuarded (f : Object → Object) (value : Option Node) :
    underCondition (mapGuarded f value) = mapObject f (underCondition value) := by
  rcases value with _ | n
  · rfl
  · cases n <;> rfl

theorem body_mapBody (f : Object → Object) (value : Option Node) :
    Node.body (mapBody f value) = (Node.body value).map f := by
  unfold Node.body
  rw [underLoop_mapBody, underCondition_mapGuarded]
  rcases underCondition (underLoop value) with _ | n
  · rfl
  · cases n <;> rfl

/-- Hiding does something of its own at resources only. -/
theorem spares_hiding {n : Node} (h : ∀ x, n ≠ .resourceDecl x) : Edit.hiding.Spares n := by
  cases n with
  | resourceDecl x => exact absurd rfl (h x)
  | array x | moduleDecl x => rfl
  | _ => trivial

theorem FlatProperties.resourcesIn {root : Node} (hf : root.FlatProperties) {p : Property}
    (hp : .property p ∈ root.preorder) : (Node.property p).resourcesIn = [] :=
  resourcesIn_eq_nil_iff.mpr (hf p hp)

theorem FlatProperties.below {root n : Node} (hf : root.FlatProperties)
    (hn : n ∈ root.preorder) : n.FlatProperties :=
  fun p hp => hf p (mem_preorder_trans root hn hp)

/-- Hiding leaves what holds no resources. -/
theorem edit_hiding_eq_self {n : Node} (h : n.resourcesIn = []) : n.edit .hiding = n := by
  induction n using children_induction with
  | step n ih =>
    rw [resourcesIn_eq_nil_iff] at h
    refine edit_of_children (spares_hiding ?_) fun c hc => ih c hc ?_
    · rintro x rfl
      exact h x (mem_preorder_self _)
    · exact resourcesIn_eq_nil_iff.mpr fun x hx =>
        h x (mem_preorder_trans n (child_mem_preorder hc) hx)

end Node

/-- No resource stands below a property of the object. -/
def Object.Flat (x : Object) : Prop :=
  ∀ p, some p ∈ x.properties → (Node.property p).resourcesIn = []

namespace Node

private theorem flatMap_properties_of_flat {x : Object} (h : x.Flat) :
    (x.properties.flatMap fun place => resourcesAt (place.map .property)) = [] := by
  refine List.flatMap_eq_nil_iff.mpr fun place hplace => ?_
  cases place with
  | none => rfl
  | some p => exact h p hplace

theorem Flat.hide {x : Object} (h : x.Flat) : x.hide.Flat := by
  intro p hp
  obtain ⟨place, hplace, hhide⟩ := List.mem_map.mp hp
  obtain ⟨q, rfl, rfl⟩ := Option.map_eq_some_iff.mp hhide
  have hq := h q hplace
  unfold Property.hide
  split
  · exact resourcesIn_property _
  · exact hq

/-- Hiding takes no resource away from an object whose properties hold none. -/
theorem resourcesIn_hide {x : Object} (h : x.Flat) :
    (Node.object x.hide).resourcesIn = (Node.object x).resourcesIn := by
  rw [resourcesIn_object, resourcesIn_object, flatMap_properties_of_flat h,
    flatMap_properties_of_flat (Flat.hide h)]
  rfl

variable {f : Object → Object}

theorem resourcesAt_mapObject {value : Option Node}
    (h : ∀ x, value = some (.object x) →
      (Node.object (f x)).resourcesIn = (Node.object x).resourcesIn) :
    resourcesAt (mapObject f value) = resourcesAt value := by
  rcases value with _ | n
  · rfl
  · cases n with
    | object x => exact h x rfl
    | _ => rfl

theorem resourcesAt_mapGuarded {value : Option Node}
    (h : ∀ x, underCondition value = some (.object x) →
      (Node.object (f x)).resourcesIn = (Node.object x).resourcesIn) :
    resourcesAt (mapGuarded f value) = resourcesAt value := by
  rcases value with _ | n
  · rfl
  · cases n with
    | conditional c =>
      have hbody : resourcesAt (mapObject f c.body) = resourcesAt c.body := resourcesAt_mapObject h
      show resourcesIn _ = resourcesIn _
      rw [resourcesIn_conditional, resourcesIn_conditional, hbody]
    | object x => exact h x rfl
    | _ => rfl

/-- A value keeps its resources if its body does. -/
theorem resourcesAt_mapBody {value : Option Node}
    (h : ∀ x, Node.body value = some x →
      (Node.object (f x)).resourcesIn = (Node.object x).resourcesIn) :
    resourcesAt (mapBody f value) = resourcesAt value := by
  have hbody : ∀ x, underCondition (underLoop value) = some (.object x) →
      (Node.object (f x)).resourcesIn = (Node.object x).resourcesIn := by
    intro x hx
    refine h x ?_
    unfold Node.body
    rw [hx]
  rcases value with _ | n
  · rfl
  · cases n with
    | loop l =>
      have hguarded : resourcesAt (mapGuarded f l.body) = resourcesAt l.body :=
        resourcesAt_mapGuarded hbody
      show resourcesIn _ = resourcesIn _
      rw [resourcesIn_loop, resourcesIn_loop, hguarded]
    | _ => exact resourcesAt_mapGuarded hbody

end Node

section Document

variable {root : Node}

theorem Node.FlatProperties.edit_property (hf : root.FlatProperties) {p : Property}
    (hp : .property p ∈ root.preorder) : Property.edit .hiding p = p :=
  Node.property.inj (Node.edit_hiding_eq_self (hf.resourcesIn hp))

/-- Above its lists of explicit dependencies an edited body is as it was. -/
theorem Object.edit_hiding_properties (hf : root.FlatProperties) {x : Object}
    (hx : .object x ∈ root.preorder) : (Object.edit .hiding x).properties = x.properties := by
  rw [Object.edit_properties]
  refine (List.map_congr_left fun place hplace => ?_).trans (List.map_id x.properties)
  cases place with
  | none => rfl
  | some p =>
    have hp := Node.mem_preorder_of_child hx (Node.property_mem_children hplace)
    rw [Option.map_some, hf.edit_property hp, id_eq]

theorem Resource.value_edit_hiding (x : Resource) :
    (Resource.edit .hiding x).value =
      Node.mapBody Object.hide (x.value.map (Node.edit .hiding)) := by
  obtain ⟨o, name, typeString, value⟩ := x
  rw [Resource.edit_mk]
  rfl

theorem Resource.body_edit_hiding (x : Resource) :
    (Resource.edit .hiding x).body = x.body.map fun b => (Object.edit .hiding b).hide := by
  unfold Resource.body
  rw [Resource.value_edit_hiding, Node.body_mapBody, Node.body_edit, Option.map_map]
  rfl

theorem Resource.origin_edit_hiding (x : Resource) :
    (Resource.edit .hiding x).origin = x.origin := by
  obtain ⟨o, name, typeString, value⟩ := x
  rw [Resource.edit_mk]
  rfl

/-- Hiding leaves all resources of a document, in their order. -/
theorem Node.resourcesIn_edit_hiding {n : Node} (hf : n.FlatProperties) :
    (n.edit .hiding).resourcesIn = n.resourcesIn.map (Resource.edit .hiding) := by
  induction n using children_induction with
  | step n ih =>
    have hat : ∀ place ∈ n.places, resourcesAt (place.map (Node.edit .hiding)) =
        (resourcesAt place).map (Resource.edit .hiding) := by
      intro place hplace
      cases place with
      | none => rfl
      | some c =>
        have hc := mem_children_iff.mpr hplace
        exact ih c hc (hf.below (child_mem_preorder hc))
    by_cases hresource : ∃ x, n = .resourceDecl x
    · obtain ⟨x, rfl⟩ := hresource
      rw [edit_resourceDecl, resourcesIn_resourceDecl, resourcesIn_resourceDecl, List.map_cons,
        ← hat x.value (by simp [places_resourceDecl]), Resource.value_edit_hiding]
      refine congrArg _ (resourcesAt_mapBody fun b hb => resourcesIn_hide ?_)
      rw [Node.body_edit] at hb
      obtain ⟨b, hbody, rfl⟩ := Option.map_eq_some_iff.mp hb
      have hmem := Resource.body_mem_preorder (mem_preorder_self _) (body_eq_some_iff.mp hbody)
      intro p hp
      rw [Object.edit_hiding_properties hf hmem] at hp
      exact hf.resourcesIn (mem_preorder_of_child hmem (property_mem_children hp))
    · have hno : ∀ x, n ≠ .resourceDecl x := fun x hx => hresource ⟨x, hx⟩
      have hself : n.resource? = none := by
        cases hr : n.resource? with
        | none => rfl
        | some x => exact absurd (resource?_eq_some_iff.mp hr) (hno x)
      have hedited : (n.edit .hiding).resource? = none := by rw [resource?_edit, hself]; rfl
      rw [resourcesIn_eq, resourcesIn_eq n, hself, hedited, places_edit (spares_hiding hno),
        List.flatMap_map, Option.toList_none, List.nil_append, List.nil_append, List.map_flatMap]
      exact List.flatMap_congr hat

end Document

end InfraLint
