import InfraLint.Proofs.Findings

/-!
Edits of documents. An edit goes through a whole document and changes lists of items, resources
and modules, each after what is below it has been changed; all other nodes keep what they have.
Keys stay, so looking for bodies and properties finds in an edited document what it finds in the
document, edited.
-/
namespace InfraLint

/-- What is to be done with lists of items, resources and modules. -/
structure Edit where
  items : List (Option Item) → List (Option Item) := id
  resource : Resource → Resource := id
  module : Module → Module := id

variable (e : Edit)

mutual

def Node.edit : Node → Node
  | .identifier x => .identifier x
  | .string x => .string x
  | .integer x => .integer x
  | .boolean x => .boolean x
  | .skipped x => .skipped x
  | .variableAccess x => .variableAccess x
  | .propertyAccess ⟨o, base, name⟩ => .propertyAccess ⟨o, Node.editAt base, name⟩
  | .arrayAccess ⟨o, base, index⟩ => .arrayAccess ⟨o, Node.editAt base, Node.editAt index⟩
  | .property x => .property (Property.edit x)
  | .object x => .object (Object.edit x)
  | .item x => .item (Item.edit x)
  | .array ⟨o, items⟩ => .array ⟨o, e.items (Item.editAll items)⟩
  | .conditional ⟨o, condition, body⟩ => .conditional ⟨o, Node.editAt condition, Node.editAt body⟩
  | .loop ⟨o, name, expression, body⟩ =>
    .loop ⟨o, name, Node.editAt expression, Node.editAt body⟩
  | .resourceDecl x => .resourceDecl (Resource.edit x)
  | .moduleDecl ⟨o, name, path, value⟩ => .moduleDecl (e.module ⟨o, name, path, Node.editAt value⟩)
  | .variableDecl ⟨o, name, value⟩ => .variableDecl ⟨o, name, Node.editAt value⟩
  | .parameterDecl x => .parameterDecl x
  | .outputDecl ⟨o, name, typeName, value⟩ => .outputDecl ⟨o, name, typeName, Node.editAt value⟩
  | .program ⟨o, declarations⟩ => .program ⟨o, Node.editAll declarations⟩

def Node.editAt : Option Node → Option Node
  | none => none
  | some n => some (Node.edit n)

def Node.editAll : List (Option Node) → List (Option Node)
  | [] => []
  | place :: rest => Node.editAt place :: Node.editAll rest

def Property.edit : Property → Property
  | ⟨o, key, value⟩ => ⟨o, key, Node.editAt value⟩

def Property.editAll : List (Option Property) → List (Option Property)
  | [] => []
  | none :: rest => none :: Property.editAll rest
  | some x :: rest => some (Property.edit x) :: Property.editAll rest

def Object.edit : Object → Object
  | ⟨o, properties, resources⟩ => ⟨o, Property.editAll properties, Resource.editAll resources⟩

def Item.edit : Item → Item
  | ⟨o, value⟩ => ⟨o, Node.editAt value⟩

def Item.editAll : List (Option Item) → List (Option Item)
  | [] => []
  | none :: rest => none :: Item.editAll rest
  | some x :: rest => some (Item.edit x) :: Item.editAll rest

def Resource.edit : Resource → Resource
  | ⟨o, name, typeString, value⟩ => e.resource ⟨o, name, typeString, Node.editAt value⟩

def Resource.editAll : List (Option Resource) → List (Option Resource)
  | [] => []
  | none :: rest => none :: Resource.editAll rest
  | some x :: rest => some (Resource.edit x) :: Resource.editAll rest

end

theorem Node.editAt_eq (place : Option Node) : Node.editAt e place = place.map (Node.edit e) := by
  cases place <;> rfl

theorem Node.editAll_eq (l : List (Option Node)) :
    Node.editAll e l = l.map (Option.map (Node.edit e)) := by
  induction l with
  | nil => rfl
  | cons place rest ih =>
    rw [List.map_cons, ← ih, ← Node.editAt_eq]
    rfl

theorem Property.editAll_eq (l : List (Option Property)) :
    Property.editAll e l = l.map (Option.map (Property.edit e)) := by
  induction l with
  | nil => rfl
  | cons place rest ih =>
    rw [List.map_cons, ← ih]
    cases place <;> rfl

theorem Item.editAll_eq (l : List (Option Item)) :
    Item.editAll e l = l.map (Option.map (Item.edit e)) := by
  induction l with
  | nil => rfl
  | cons place rest ih =>
    rw [List.map_cons, ← ih]
    cases place <;> rfl

theorem Resource.editAll_eq (l : List (Option Resource)) :
    Resource.editAll e l = l.map (Option.map (Resource.edit e)) := by
  induction l with
  | nil => rfl
  | cons place rest ih =>
    rw [List.map_cons, ← ih]
    cases place <;> rfl

namespace Node

variable (o : Origin)

theorem edit_property (x : Property) : edit e (.property x) = .property (Property.edit e x) := rfl

theorem edit_object (x : Object) : edit e (.object x) = .object (Object.edit e x) := rfl

theorem edit_item (x : Item) : edit e (.item x) = .item (Item.edit e x) := rfl

theorem edit_resourceDecl (x : Resource) :
    edit e (.resourceDecl x) = .resourceDecl (Resource.edit e x) := rfl

theorem edit_propertyAccess (base : Option Node) (name : Option Identifier) :
    edit e (.propertyAccess ⟨o, base, name⟩) = .propertyAccess ⟨o, base.map (edit e), name⟩ := by
  rw [← editAt_eq]
  rfl

theorem edit_arrayAccess (base index : Option Node) :
    edit e (.arrayAccess ⟨o, base, index⟩) =
      .arrayAccess ⟨o, base.map (edit e), index.map (edit e)⟩ := by
  rw [← editAt_eq, ← editAt_eq]
  rfl

theorem edit_array (items : List (Option Item)) :
    edit e (.array ⟨o, items⟩) = .array ⟨o, e.items (items.map (Option.map (Item.edit e)))⟩ := by
  rw [← Item.editAll_eq]
  rfl

theorem edit_conditional (condition body : Option Node) :
    edit e (.conditional ⟨o, condition, body⟩) =
      .conditional ⟨o, condition.map (edit e), body.map (edit e)⟩ := by
  rw [← editAt_eq, ← editAt_eq]
  rfl

theorem edit_loop (name : Option Identifier) (expression body : Option Node) :
    edit e (.loop ⟨o, name, expression, body⟩) =
      .loop ⟨o, name, expression.map (edit e), body.map (edit e)⟩ := by
  rw [← editAt_eq, ← editAt_eq]
  rfl

theorem edit_moduleDecl (name : Option Identifier) (path : Option StringLiteral)
    (value : Option Node) :
    edit e (.moduleDecl ⟨o, name, path, value⟩) =
      .moduleDecl (e.module ⟨o, name, path, value.map (edit e)⟩) := by
  rw [← editAt_eq]
  rfl

theorem edit_variableDecl (name : Option Identifier) (value : Option Node) :
    edit e (.variableDecl ⟨o, name, value⟩) = .variableDecl ⟨o, name, value.map (edit e)⟩ := by
  rw [← editAt_eq]
  rfl

theorem edit_outputDecl (name typeName : Option Identifier) (value : Option Node) :
    edit e (.outputDecl ⟨o, name, typeName, value⟩) =
      .outputDecl ⟨o, name, typeName, value.map (edit e)⟩ := by
  rw [← editAt_eq]
  rfl

theorem edit_program (declarations : List (Option Node)) :
    edit e (.program ⟨o, declarations⟩) =
      .program ⟨o, declarations.map (Option.map (edit e))⟩ := by
  rw [← editAll_eq]
  rfl

end Node

theorem Object.edit_mk (o : Origin) (properties : List (Option Property))
    (resources : List (Option Resource)) :
    Object.edit e ⟨o, properties, resources⟩ =
      ⟨o, properties.map (Option.map (Property.edit e)),
        resources.map (Option.map (Resource.edit e))⟩ := by
  rw [← Property.editAll_eq, ← Resource.editAll_eq]
  rfl

theorem Property.edit_mk (o : Origin) (key : Option Key) (value : Option Node) :
    Property.edit e ⟨o, key, value⟩ = ⟨o, key, value.map (Node.edit e)⟩ := by
  rw [← Node.editAt_eq]
  rfl

theorem Item.edit_mk (o : Origin) (value : Option Node) :
    Item.edit e ⟨o, value⟩ = ⟨o, value.map (Node.edit e)⟩ := by
  rw [← Node.editAt_eq]
  rfl

theorem Resource.edit_mk (o : Origin) (name : Option Identifier)
    (typeString : Option StringLiteral) (value : Option Node) :
    Resource.edit e ⟨o, name, typeString, value⟩ =
      e.resource ⟨o, name, typeString, value.map (Node.edit e)⟩ := by
  rw [← Node.editAt_eq]
  rfl

/-- A symbol of an edited document refers to the edited declaration. -/
def Symbol.edit (s : Symbol) : Symbol := { s with declaring := s.declaring.map (Node.edit e) }

theorem Property.edit_key (p : Property) : (Property.edit e p).key = p.key := by
  obtain ⟨o, key, value⟩ := p
  rw [Property.edit_mk]

theorem Property.edit_value (p : Property) :
    (Property.edit e p).value = p.value.map (Node.edit e) := by
  obtain ⟨o, key, value⟩ := p
  rw [Property.edit_mk]

theorem Object.edit_properties (x : Object) :
    (Object.edit e x).properties = x.properties.map (Option.map (Property.edit e)) := by
  obtain ⟨o, properties, resources⟩ := x
  rw [Object.edit_mk]

theorem Item.edit_origin (x : Item) : (Item.edit e x).origin = x.origin := by
  obtain ⟨o, value⟩ := x
  rw [Item.edit_mk]

theorem Node.underLoop_edit (value : Option Node) :
    Node.underLoop (value.map (Node.edit e)) = (Node.underLoop value).map (Node.edit e) := by
  cases value with
  | none => rfl
  | some n =>
    cases n with
    | loop x =>
      obtain ⟨o, name, expression, body⟩ := x
      rw [Option.map_some, Node.edit_loop]
      rfl
    | propertyAccess x | arrayAccess x | array x | conditional x | moduleDecl x | variableDecl x
    | outputDecl x | program x =>
      obtain ⟨⟩ := x
      rfl
    | _ => rfl

theorem Node.underCondition_edit (value : Option Node) :
    Node.underCondition (value.map (Node.edit e)) =
      (Node.underCondition value).map (Node.edit e) := by
  cases value with
  | none => rfl
  | some n =>
    cases n with
    | conditional x =>
      obtain ⟨o, condition, body⟩ := x
      rw [Option.map_some, Node.edit_conditional]
      rfl
    | propertyAccess x | arrayAccess x | array x | loop x | moduleDecl x | variableDecl x
    | outputDecl x | program x =>
      obtain ⟨⟩ := x
      rfl
    | _ => rfl

theorem Node.body_edit (value : Option Node) :
    Node.body (value.map (Node.edit e)) = (Node.body value).map (Object.edit e) := by
  unfold Node.body
  rw [Node.underLoop_edit, Node.underCondition_edit]
  cases Node.underCondition (Node.underLoop value) with
  | none => rfl
  | some n =>
    cases n with
    | object x => rfl
    | propertyAccess x | arrayAccess x | array x | conditional x | loop x | moduleDecl x
    | variableDecl x | outputDecl x | program x =>
      obtain ⟨⟩ := x
      rfl
    | _ => rfl

theorem Node.isLoop_edit (value : Option Node) :
    Node.isLoop (value.map (Node.edit e)) = Node.isLoop value := by
  cases value with
  | none => rfl
  | some n =>
    cases n with
    | propertyAccess x | arrayAccess x | array x | conditional x | loop x | moduleDecl x
    | variableDecl x | outputDecl x | program x =>
      obtain ⟨⟩ := x
      rfl
    | _ => rfl

theorem Property.named_edit {name : String} (p : Property) :
    (Property.edit e p).Named name ↔ p.Named name := by
  unfold Property.Named
  rw [Property.edit_key]

theorem Property.keyTextAt_edit (place : Option Property) :
    Property.keyTextAt (place.map (Property.edit e)) = Property.keyTextAt place := by
  cases place with
  | none => rfl
  | some p =>
    show (Property.edit e p).keyText = p.keyText
    unfold Property.keyText
    rw [Property.edit_key]

theorem Property.first_edit (name : Option String) (properties : List (Option Property)) :
    Property.first name (properties.map (Option.map (Property.edit e))) =
      (Property.first name properties).map (Option.map (Property.edit e)) := by
  induction properties with
  | nil => rfl
  | cons place rest ih =>
    rw [List.map_cons, Property.first, Property.first, Property.keyTextAt_edit, ih]
    cases Property.keyTextAt place with
    | error f => rfl
    | ok text =>
      by_cases htext : text = name
      · simp only [htext, if_pos]; rfl
      · simp only [htext, if_neg, not_false_eq_true]

private theorem entries_edit (value : Option Node) :
    (match value.map (Node.edit e) with
      | some (.array a) => (Except.ok (some a.items) : Except Fault _)
      | _ => .ok none) =
    (match value with
      | some (.array a) => (Except.ok (some a.items) : Except Fault _)
      | _ => .ok none).map (Option.map fun items : List (Option Item) =>
        e.items (items.map (Option.map (Item.edit e)))) := by
  cases value with
  | none => rfl
  | some n =>
    cases n with
    | array x =>
      obtain ⟨o, items⟩ := x
      rw [Option.map_some, Node.edit_array]
      rfl
    | propertyAccess x | arrayAccess x | conditional x | loop x | moduleDecl x | variableDecl x
    | outputDecl x | program x =>
      obtain ⟨⟩ := x
      rfl
    | _ => rfl

theorem explicitEntries_edit (body : Option Object) :
    explicitEntries (body.map (Object.edit e)) =
      (explicitEntries body).map (Option.map fun items =>
        e.items (items.map (Option.map (Item.edit e)))) := by
  cases body with
  | none => rfl
  | some body =>
    simp only [explicitEntries, Option.map_some, Object.property, Object.edit_properties,
      Property.first_edit]
    cases Property.first (some dependsOnKey) body.properties with
    | error f => rfl
    | ok found =>
      cases found with
      | none => rfl
      | some p =>
        simp only [Except.map, Option.map_some, Property.edit_value]
        exact entries_edit e p.value

/-- A symbol whose declaration is a loop just if it was one is a collection just if it was one. -/
theorem Symbol.isCollection_edit_of_isLoop {e : Edit} {s : Symbol}
    (hresource : ∀ x, s.declaring = some (.resourceDecl x) →
      Node.isLoop (Resource.edit e x).value = Node.isLoop x.value)
    (hmodule : ∀ x, s.declaring = some (.moduleDecl x) →
      Node.isLoop (e.module { x with value := x.value.map (Node.edit e) }).value =
        Node.isLoop x.value) :
    (s.edit e).isCollection = s.isCollection := by
  obtain ⟨id, kind, name, declaring⟩ := s
  cases declaring with
  | none => rfl
  | some n =>
    cases n with
    | resourceDecl x =>
      cases kind with
      | resource => exact hresource x rfl
      | _ => rfl
    | moduleDecl x =>
      obtain ⟨o, name, path, value⟩ := x
      have hloop := hmodule _ rfl
      rw [← Node.editAt_eq] at hloop
      cases kind with
      | module => exact hloop
      | _ => rfl
    | propertyAccess x | arrayAccess x | array x | conditional x | loop x
    | variableDecl x | outputDecl x | program x =>
      obtain ⟨⟩ := x
      cases kind <;> rfl
    | _ => cases kind <;> rfl

/-- Nodes keep their identities and their places in the text. -/
structure Edit.KeepsOrigins (e : Edit) : Prop where
  resource : ∀ x, (e.resource x).origin = x.origin
  module : ∀ x, (e.module x).origin = x.origin

theorem Node.id_edit {e : Edit} (h : e.KeepsOrigins) (n : Node) : (n.edit e).id = n.id := by
  cases n with
  | resourceDecl x =>
    obtain ⟨o, name, typeString, value⟩ := x
    rw [Node.edit_resourceDecl, Resource.edit_mk]
    exact congrArg Origin.id (h.resource _)
  | moduleDecl x =>
    obtain ⟨o, name, path, value⟩ := x
    rw [Node.edit_moduleDecl]
    exact congrArg Origin.id (h.module _)
  | propertyAccess x | arrayAccess x | property x | object x | item x | array x | conditional x
  | loop x | variableDecl x | outputDecl x | program x =>
    obtain ⟨⟩ := x
    rfl
  | _ => rfl

/-- At this node itself there is nothing that the edit would do otherwise than below it. -/
def Edit.Spares (e : Edit) : Node → Prop
  | .array x => e.items (x.items.map (Option.map (Item.edit e))) =
      x.items.map (Option.map (Item.edit e))
  | .resourceDecl x => e.resource { x with value := x.value.map (Node.edit e) } =
      { x with value := x.value.map (Node.edit e) }
  | .moduleDecl x => e.module { x with value := x.value.map (Node.edit e) } =
      { x with value := x.value.map (Node.edit e) }
  | _ => True

namespace Node

variable {e}

theorem resource?_edit (n : Node) :
    (n.edit e).resource? = n.resource?.map (Resource.edit e) := by
  cases n with
  | propertyAccess x | arrayAccess x | array x | conditional x | loop x | moduleDecl x
  | variableDecl x | outputDecl x | program x =>
    obtain ⟨⟩ := x
    rfl
  | _ => rfl

private theorem map_edit_key (e : Edit) (k : Option Key) :
    k.map Key.node = (k.map Key.node).map (Node.edit e) := by
  rcases k with _ | _ | _ <;> rfl

theorem map_edit_identifier (e : Edit) (x : Option Identifier) :
    x.map Node.identifier = (x.map Node.identifier).map (Node.edit e) := by
  cases x <;> rfl

theorem map_edit_string (e : Edit) (x : Option StringLiteral) :
    x.map Node.string = (x.map Node.string).map (Node.edit e) := by
  cases x <;> rfl

/-- An edited node has the edited places of the node. -/
theorem places_edit {n : Node} (h : e.Spares n) :
    (n.edit e).places = n.places.map (Option.map (Node.edit e)) := by
  have hword := map_edit_identifier e
  have hstring := map_edit_string e
  have hkey := map_edit_key e
  cases n with
  | identifier x | string x | integer x | boolean x | skipped x => rfl
  | variableAccess x =>
    show (Node.variableAccess x).places = _
    rw [places_variableAccess, List.map_singleton, ← hword]
  | parameterDecl x =>
    show (Node.parameterDecl x).places = _
    rw [places_parameterDecl, List.map_cons, List.map_singleton, ← hword, ← hword]
  | object x =>
    obtain ⟨o, properties, resources⟩ := x
    rw [edit_object, Object.edit_mk, places_object, places_object]
    simp only [List.map_append, List.map_map, Function.comp_def, Option.map_map]
    rfl
  | array x =>
    obtain ⟨o, items⟩ := x
    have hitems : e.items (items.map (Option.map (Item.edit e))) =
        items.map (Option.map (Item.edit e)) := h
    rw [edit_array, hitems, places_array, places_array]
    simp only [List.map_map, Function.comp_def, Option.map_map]
    rfl
  | program x =>
    obtain ⟨o, declarations⟩ := x
    rw [edit_program, places_program, places_program]
  | propertyAccess x =>
    obtain ⟨o, base, name⟩ := x
    rw [edit_propertyAccess, places_propertyAccess, places_propertyAccess]
    simp only [List.map_cons, List.map_nil, ← hword]
  | arrayAccess x =>
    obtain ⟨o, base, index⟩ := x
    rw [edit_arrayAccess, places_arrayAccess, places_arrayAccess]
    rfl
  | property x =>
    obtain ⟨o, key, value⟩ := x
    rw [edit_property, Property.edit_mk, places_property, places_property]
    simp only [List.map_cons, List.map_nil, ← hkey]
  | item x =>
    obtain ⟨o, value⟩ := x
    rw [edit_item, Item.edit_mk, places_item, places_item]
    rfl
  | conditional x =>
    obtain ⟨o, condition, body⟩ := x
    rw [edit_conditional, places_conditional, places_conditional]
    rfl
  | loop x =>
    obtain ⟨o, name, expression, body⟩ := x
    rw [edit_loop, places_loop, places_loop]
    simp only [List.map_cons, List.map_nil, ← hword]
  | resourceDecl x =>
    obtain ⟨o, name, typeString, value⟩ := x
    have hresource : e.resource ⟨o, name, typeString, value.map (Node.edit e)⟩ =
        ⟨o, name, typeString, value.map (Node.edit e)⟩ := h
    rw [edit_resourceDecl, Resource.edit_mk, hresource, places_resourceDecl, places_resourceDecl]
    simp only [List.map_cons, List.map_nil, ← hword, ← hstring]
  | moduleDecl x =>
    obtain ⟨o, name, path, value⟩ := x
    have hmodule : e.module ⟨o, name, path, value.map (Node.edit e)⟩ =
        ⟨o, name, path, value.map (Node.edit e)⟩ := h
    rw [edit_moduleDecl, hmodule, places_moduleDecl, places_moduleDecl]
    simp only [List.map_cons, List.map_nil, ← hword, ← hstring]
  | variableDecl x =>
    obtain ⟨o, name, value⟩ := x
    rw [edit_variableDecl, places_variableDecl, places_variableDecl]
    simp only [List.map_cons, List.map_nil, ← hword]
  | outputDecl x =>
    obtain ⟨o, name, typeName, value⟩ := x
    rw [edit_outputDecl, places_outputDecl, places_outputDecl]
    simp only [List.map_cons, List.map_nil, ← hword]

theorem children_edit_of_spares {n : Node} (h : e.Spares n) :
    (n.edit e).children = n.children.map (Node.edit e) := by
  rw [children, places_edit h, children, List.filterMap_map, List.map_filterMap]
  rfl

private theorem map_eq_self {α : Type} {f : α → α} {l : List (Option α)}
    (h : ∀ a, some a ∈ l → f a = a) : l.map (Option.map f) = l := by
  refine (List.map_congr_left fun place hplace => ?_).trans l.map_id
  cases place with
  | none => rfl
  | some a => rw [Option.map_some, h a hplace, id_eq]

private theorem edit_object_of_children {x : Object}
    (hsame : ∀ c ∈ (Node.object x).children, c.edit e = c) :
    (Node.object x).edit e = .object x := by
  obtain ⟨o, properties, resources⟩ := x
  have hproperties : properties.map (Option.map (Property.edit e)) = properties :=
    map_eq_self fun p hp => Node.property.inj (hsame _ (property_mem_children hp))
  have hresources : resources.map (Option.map (Resource.edit e)) = resources :=
    map_eq_self fun r hr => Node.resourceDecl.inj (hsame _ (resource_mem_children hr))
  rw [edit_object, Object.edit_mk, hproperties, hresources]

private theorem edit_array_of_children {x : ArrayLiteral} (h : e.Spares (.array x))
    (hsame : ∀ c ∈ (Node.array x).children, c.edit e = c) :
    (Node.array x).edit e = .array x := by
  obtain ⟨o, items⟩ := x
  have hitems : items.map (Option.map (Item.edit e)) = items :=
    map_eq_self fun i hi => Node.item.inj (hsame _ (item_mem_children hi))
  have hspared : e.items (items.map (Option.map (Item.edit e))) =
      items.map (Option.map (Item.edit e)) := h
  rw [edit_array, hspared, hitems]

/-- An edit that does nothing at a node and changes none of its children leaves the node. -/
theorem edit_of_children {n : Node} (h : e.Spares n)
    (hsame : ∀ c ∈ n.children, c.edit e = c) : n.edit e = n := by
  have hplaces : ∀ place, place ∈ n.places → place.map (Node.edit e) = place := by
    intro place hplace
    cases place with
    | none => rfl
    | some c => rw [Option.map_some, hsame c (mem_children_iff.mpr hplace)]
  cases n with
  | identifier x | string x | integer x | boolean x | skipped x | variableAccess x
  | parameterDecl x => rfl
  | object x => exact edit_object_of_children hsame
  | array x => exact edit_array_of_children h hsame
  | program x =>
    obtain ⟨o, declarations⟩ := x
    rw [edit_program, map_eq_self fun c hc => hsame c ?_]
    rw [mem_children_iff, places_program]
    exact hc
  | propertyAccess x =>
    obtain ⟨o, base, name⟩ := x
    rw [edit_propertyAccess, hplaces base (by simp [places_propertyAccess])]
  | arrayAccess x =>
    obtain ⟨o, base, index⟩ := x
    rw [edit_arrayAccess, hplaces base (by simp [places_arrayAccess]),
      hplaces index (by simp [places_arrayAccess])]
  | property x =>
    obtain ⟨o, key, value⟩ := x
    rw [edit_property, Property.edit_mk, hplaces value (by simp [places_property])]
  | item x =>
    obtain ⟨o, value⟩ := x
    rw [edit_item, Item.edit_mk, hplaces value (by simp [places_item])]
  | conditional x =>
    obtain ⟨o, condition, body⟩ := x
    rw [edit_conditional, hplaces condition (by simp [places_conditional]),
      hplaces body (by simp [places_conditional])]
  | loop x =>
    obtain ⟨o, name, expression, body⟩ := x
    rw [edit_loop, hplaces expression (by simp [places_loop]),
      hplaces body (by simp [places_loop])]
  | resourceDecl x =>
    obtain ⟨o, name, typeString, value⟩ := x
    have hvalue := hplaces value (by simp [places_resourceDecl])
    have hresource : e.resource ⟨o, name, typeString, value.map (Node.edit e)⟩ =
        ⟨o, name, typeString, value.map (Node.edit e)⟩ := h
    rw [edit_resourceDecl, Resource.edit_mk, hresource, hvalue]
  | moduleDecl x =>
    obtain ⟨o, name, path, value⟩ := x
    have hvalue := hplaces value (by simp [places_moduleDecl])
    have hmodule : e.module ⟨o, name, path, value.map (Node.edit e)⟩ =
        ⟨o, name, path, value.map (Node.edit e)⟩ := h
    rw [edit_moduleDecl, hmodule, hvalue]
  | variableDecl x =>
    obtain ⟨o, name, value⟩ := x
    rw [edit_variableDecl, hplaces value (by simp [places_variableDecl])]
  | outputDecl x =>
    obtain ⟨o, name, typeName, value⟩ := x
    rw [edit_outputDecl, hplaces value (by simp [places_outputDecl])]

end Node

end InfraLint
