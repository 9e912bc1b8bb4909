import InfraLint.Proofs.Edit
import InfraLint.Proofs.TreeResources

/-!
Values of resources and modules put behind a condition or into a loop. Where the value fits, the
body of the declaration is what it was, so that all resources are still there and list what they
listed. The value is then no loop if it was put behind a condition, and one if it was put into a
loop.
-/
namespace InfraLint

/-- What is put around a value. -/
inductive Wrapper where
  | guard (o : Origin) (condition : Option Node)
  | loop (o : Origin) (itemVariable : Option Identifier) (expression : Option Node)

namespace Wrapper

def around : Wrapper → Option Node → Option Node
  | .guard o condition, value => some (.conditional ⟨o, condition, value⟩)
  | .loop o itemVariable expression, value => some (.loop ⟨o, itemVariable, expression, value⟩)

/-- The node that comes with the wrapper, apart from names. -/
def added : Wrapper → Option Node
  | .guard _ condition => condition
  | .loop _ _ expression => expression

def repeats : Wrapper → Bool
  | .guard _ _ => false
  | .loop _ _ _ => true

/-- What can be wrapped so that it is still a body: an object, and for a loop also an object behind
a condition. -/
inductive Fits : Wrapper → Option Node → Prop
  | guard (o : Origin) (condition : Option Node) (x : Object) :
      Fits (.guard o condition) (some (.object x))
  | loop (o : Origin) (itemVariable : Option Identifier) (expression : Option Node) (x : Object) :
      Fits (.loop o itemVariable expression) (some (.object x))
  | loopGuarded (o : Origin) (itemVariable : Option Identifier) (expression : Option Node)
      (c : Conditional) (x : Object) (hc : c.body = some (.object x)) :
      Fits (.loop o itemVariable expression) (some (.conditional c))

variable {w : Wrapper} {value : Option Node}

theorem Fits.body_around (h : w.Fits value) : Node.body (w.around value) = Node.body value := by
  cases h with
  | guard | loop => rfl
  | loopGuarded o itemVariable expression c x hc =>
    simp only [around, Node.body, Node.underLoop, Node.underCondition]

theorem Fits.isLoop_eq (h : w.Fits value) : Node.isLoop value = false := by
  cases h <;> rfl

theorem isLoop_around (w : Wrapper) (value : Option Node) :
    Node.isLoop (w.around value) = w.repeats := by
  cases w <;> rfl

theorem Fits.edit (h : w.Fits value) (e : Edit) : w.Fits (value.map (Node.edit e)) := by
  cases h with
  | guard o condition x => exact .guard o condition (Object.edit e x)
  | loop o itemVariable expression x => exact .loop o itemVariable expression (Object.edit e x)
  | loopGuarded o itemVariable expression c x hc =>
    obtain ⟨origin, condition, body⟩ := c
    obtain rfl : body = some (.object x) := hc
    rw [Option.map_some, Node.edit_conditional]
    exact .loopGuarded o itemVariable expression _ (Object.edit e x) rfl

/-- A wrapper that brings no resources leaves those of the value. -/
theorem resourcesAt_around (hadded : Node.resourcesAt w.added = []) (value : Option Node) :
    Node.resourcesAt (w.around value) = Node.resourcesAt value := by
  cases w with
  | guard o condition =>
    have hcondition : Node.resourcesAt condition = [] := hadded
    show (Node.conditional _).resourcesIn = _
    rw [Node.resourcesIn_conditional, hcondition, List.nil_append]
  | loop o itemVariable expression =>
    have hexpression : Node.resourcesAt expression = [] := hadded
    show (Node.loop _).resourcesIn = _
    rw [Node.resourcesIn_loop, hexpression, List.nil_append]

end Wrapper

/-- The edit that wraps the value of the resource or module of an identity. -/
def Edit.wrapping (w : Wrapper) (id : Identity) : Edit where
  resource x := if x.origin.id = id then { x with value := w.around x.value } else x
  module x := if x.origin.id = id then { x with value := w.around x.value } else x

variable {w : Wrapper} {id : Identity}

theorem Edit.keepsOrigins_wrapping : (Edit.wrapping w id).KeepsOrigins where
  resource x := by
    show (if x.origin.id = id then _ else x).origin = x.origin
    split <;> rfl
  module x := by
    show (if x.origin.id = id then _ else x).origin = x.origin
    split <;> rfl

/-- Only at a resource or module of the identity something is wrapped. -/
theorem Node.spares_wrapping {n : Node}
    (h : n.id = id → (∀ x, n ≠ .resourceDecl x) ∧ ∀ x, n ≠ .moduleDecl x) :
    (Edit.wrapping w id).Spares n := by
  cases n with
  | array x => rfl
  | resourceDecl x => exact if_neg fun hid => (h hid).1 x rfl
  | moduleDecl x => exact if_neg fun hid => (h hid).2 x rfl
  | _ => trivial

theorem Resource.value_edit_wrapping (x : Resource) :
    (Resource.edit (.wrapping w id) x).value =
      if x.origin.id = id then w.around (x.value.map (Node.edit (.wrapping w id)))
      else x.value.map (Node.edit (.wrapping w id)) := by
  obtain ⟨o, name, typeString, value⟩ := x
  rw [Resource.edit_mk]
  show (if o.id = id then _ else _ : Resource).value = _
  split <;> rfl

namespace Node

/-- What an edit wraps keeps its resources. -/
private theorem flatMap_places_edit_wrapping (hadded : resourcesAt w.added = []) (n : Node) :
    (n.edit (.wrapping w id)).places.flatMap resourcesAt =
      n.places.flatMap fun place => resourcesAt (place.map (Node.edit (.wrapping w id))) := by
  by_cases h : n.id = id → (∀ x, n ≠ .resourceDecl x) ∧ ∀ x, n ≠ .moduleDecl x
  · rw [places_edit (spares_wrapping h), List.flatMap_map]
  · obtain ⟨hid, hn⟩ := Classical.not_imp.mp h
    have haround := w.resourcesAt_around hadded
    cases n with
    | resourceDecl x =>
      obtain ⟨o, name, typeString, value⟩ := x
      have hwrap : (Edit.wrapping w id).resource
          ⟨o, name, typeString, value.map (Node.edit (.wrapping w id))⟩ =
            ⟨o, name, typeString, w.around (value.map (Node.edit (.wrapping w id)))⟩ := if_pos hid
      rw [edit_resourceDecl, Resource.edit_mk, hwrap, places_resourceDecl, places_resourceDecl]
      simp only [List.flatMap_cons, List.flatMap_nil, haround, ← map_edit_identifier,
        ← map_edit_string]
    | moduleDecl x =>
      obtain ⟨o, name, path, value⟩ := x
      have hwrap : (Edit.wrapping w id).module
          ⟨o, name, path, value.map (Node.edit (.wrapping w id))⟩ =
            ⟨o, name, path, w.around (value.map (Node.edit (.wrapping w id)))⟩ := if_pos hid
      rw [edit_moduleDecl, hwrap, places_moduleDecl, places_moduleDecl]
      simp only [List.flatMap_cons, List.flatMap_nil, haround, ← map_edit_identifier,
        ← map_edit_string]
    | _ => exact absurd ⟨nofun, nofun⟩ hn

/-- Wrapping leaves all resources of a document, in their order. -/
theorem resourcesIn_edit_wrapping (hadded : resourcesAt w.added = []) (n : Node) :
    (n.edit (.wrapping w id)).resourcesIn =
      n.resourcesIn.map (Resource.edit (.wrapping w id)) := by
  induction n using children_induction with
  | step n ih =>
    have hat : ∀ place ∈ n.places, resourcesAt (place.map (Node.edit (.wrapping w id))) =
        (resourcesAt place).map (Resource.edit (.wrapping w id)) := by
      intro place hplace
      cases place with
      | none => rfl
      | some c => exact ih c (mem_children_iff.mpr hplace)
    have hself : (n.edit (.wrapping w id)).resource?.toList =
        n.resource?.toList.map (Resource.edit (.wrapping w id)) := by
      rw [resource?_edit]
      cases n.resource? <;> rfl
    rw [resourcesIn_eq, resourcesIn_eq n, hself, flatMap_places_edit_wrapping hadded,
      List.flatMap_congr hat, List.map_append, List.map_flatMap]

end Node

namespace Resource

variable {x : Resource}

/-- The body of a wrapped resource is what it was. -/
theorem body_edit_wrapping (hfits : x.origin.id = id → w.Fits x.value) :
    (Resource.edit (.wrapping w id) x).body = x.body.map (Object.edit (.wrapping w id)) := by
  unfold body
  rw [value_edit_wrapping, ← Node.body_edit]
  split
  · rename_i hid
    exact ((hfits hid).edit _).body_around
  · rfl

theorem explicitEntries_edit_wrapping (hfits : x.origin.id = id → w.Fits x.value) :
    explicitEntries (Resource.edit (.wrapping w id) x).body =
      (explicitEntries x.body).map (Option.map fun items =>
        items.map (Option.map (Item.edit (.wrapping w id)))) := by
  rw [body_edit_wrapping hfits, explicitEntries_edit]
  rfl

/-- A wrapped resource lists what it listed. -/
theorem listed_edit_wrapping (hfits : x.origin.id = id → w.Fits x.value) :
    (Resource.edit (.wrapping w id) x).listed =
      x.listed.map (Item.edit (.wrapping w id)) := by
  unfold listed
  rw [explicitEntries_edit_wrapping hfits]
  cases explicitEntries x.body with
  | error f => rfl
  | ok found =>
    cases found with
    | none => rfl
    | some items =>
      exact List.reduceOption_map

theorem Legible.edit_wrapping (h : x.Legible) (hfits : x.origin.id = id → w.Fits x.value) :
    (Resource.edit (.wrapping w id) x).Legible := by
  unfold Legible
  rw [explicitEntries_edit_wrapping hfits, listed_edit_wrapping hfits]
  rcases h with ⟨hnone, hlisted⟩ | hsome
  · rw [hnone, hlisted]
    exact Or.inl ⟨rfl, rfl⟩
  · rw [hsome]
    refine Or.inr (congrArg (fun l => Except.ok (some l)) ?_)
    show (x.listed.map some).map (Option.map _) = _
    rw [List.map_map, List.map_map]
    rfl

end Resource

end InfraLint
