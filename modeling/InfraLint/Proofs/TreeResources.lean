import InfraLint.Proofs.Findings

/-!
The resources of a tree, in document order: the one that the root declares, if it declares one,
and after it those of the places of the root from left to right.
-/
namespace InfraLint.Node

/-- The resources of a tree, in document order. -/
def resourcesIn (n : Node) : List Resource := n.preorder.filterMap resource?

def resourcesAt (place : Option Node) : List Resource := place.elim [] resourcesIn

theorem resourcesIn_eq_children (n : Node) :
    n.resourcesIn = n.resource?.toList ++ n.children.flatMap resourcesIn := by
  unfold resourcesIn
  rw [preorder_eq, List.filterMap_cons, List.filterMap_flatMap]
  cases n.resource? <;> rfl

theorem resourcesIn_eq (n : Node) :
    n.resourcesIn = n.resource?.toList ++ n.places.flatMap resourcesAt := by
  have hplaces : n.places.flatMap resourcesAt = n.children.flatMap resourcesIn := by
    unfold children
    induction n.places with
    | nil => rfl
    | cons place rest ih =>
      rw [List.flatMap_cons, ih]
      cases place <;> rfl
  rw [hplaces, resourcesIn_eq_children]

theorem mem_resourcesIn_iff {n : Node} {x : Resource} :
    x ∈ n.resourcesIn ↔ .resourceDecl x ∈ n.preorder := by
  unfold resourcesIn
  rw [List.mem_filterMap]
  simp [resource?_eq_some_iff]

theorem resourcesIn_eq_nil_iff {n : Node} :
    n.resourcesIn = [] ↔ ∀ x, .resourceDecl x ∉ n.preorder := by
  simp only [List.eq_nil_iff_forall_not_mem, mem_resourcesIn_iff]

/-- In a tree in which no node has two places no resource is there twice. -/
theorem Distinct.nodup_resourcesIn {n : Node} (hd : n.Distinct) : n.resourcesIn.Nodup := by
  refine List.Nodup.filterMap ?_ (List.Nodup.of_map Node.id hd)
  intro k k' x hk hk'
  rw [resource?_eq_some_iff.mp hk, resource?_eq_some_iff.mp hk']

theorem resourcesIn_identifier (x : Identifier) : (Node.identifier x).resourcesIn = [] := by
  rw [resourcesIn_eq]
  rfl

theorem resourcesIn_string (x : StringLiteral) : (Node.string x).resourcesIn = [] := by
  rw [resourcesIn_eq]
  rfl

theorem resourcesAt_identifier (x : Option Identifier) :
    resourcesAt (x.map .identifier) = [] := by
  cases x with
  | none => rfl
  | some x => exact resourcesIn_identifier x

theorem resourcesAt_string (x : Option StringLiteral) : resourcesAt (x.map .string) = [] := by
  cases x with
  | none => rfl
  | some x => exact resourcesIn_string x

theorem resourcesAt_key (k : Option Key) : resourcesAt (k.map Key.node) = [] := by
  rcases k with _ | x | x
  · rfl
  · exact resourcesIn_identifier x
  · exact resourcesIn_string x

theorem resourcesIn_property (p : Property) :
    (Node.property p).resourcesIn = resourcesAt p.value := by
  rw [resourcesIn_eq, places_property, List.flatMap_cons, resourcesAt_key]
  simp [resource?]

theorem resourcesIn_object (x : Object) :
    (Node.object x).resourcesIn =
      (x.properties.flatMap fun place => resourcesAt (place.map .property)) ++
        x.resources.flatMap fun place => resourcesAt (place.map .resourceDecl) := by
  rw [resourcesIn_eq, places_object, List.flatMap_append, List.flatMap_map, List.flatMap_map]
  rfl

theorem resourcesIn_conditional (x : Conditional) :
    (Node.conditional x).resourcesIn = resourcesAt x.condition ++ resourcesAt x.body := by
  rw [resourcesIn_eq, places_conditional]
  simp [resource?]

theorem resourcesIn_loop (x : Loop) :
    (Node.loop x).resourcesIn = resourcesAt x.expression ++ resourcesAt x.body := by
  rw [resourcesIn_eq, places_loop]
  simp [resource?, resourcesAt_identifier]

theorem resourcesIn_resourceDecl (x : Resource) :
    (Node.resourceDecl x).resourcesIn = x :: resourcesAt x.value := by
  rw [resourcesIn_eq, places_resourceDecl]
  simp [resourcesAt_identifier, resourcesAt_string, resource?]

end InfraLint.Node

namespace InfraLint.Model

theorem resources_eq_resourcesIn (m : Model) : m.resources = m.program.resourcesIn :=
  m.resources_eq

theorem nodup_resources {m : Model} (hd : m.program.Distinct) : m.resources.Nodup := by
  rw [m.resources_eq_resourcesIn]
  exact hd.nodup_resourcesIn

end InfraLint.Model
