import InfraLint.Proofs.PropertySearch
import InfraLint.Proofs.Tree
import Mathlib.Data.List.ReduceOption

/-!
Bodies and lists of explicit dependencies, said without the functions that look for them. A value
has a body in one of four shapes, and of the properties of the body the first with the key of
explicit dependencies counts. In a complete document, where properties, their keys and items are
never absent, the functions find just these.
-/
namespace InfraLint

/-- The four shapes of a value with an object as its body. -/
inductive HasBody : Option Node → Object → Prop
  | plain (x : Object) : HasBody (some (.object x)) x
  | guarded (c : Conditional) (x : Object) (hc : c.body = some (.object x)) :
      HasBody (some (.conditional c)) x
  | repeated (l : Loop) (x : Object) (hl : l.body = some (.object x)) :
      HasBody (some (.loop l)) x
  | repeatedGuarded (l : Loop) (c : Conditional) (x : Object)
      (hl : l.body = some (.conditional c)) (hc : c.body = some (.object x)) :
      HasBody (some (.loop l)) x

theorem HasBody.body_eq {value : Option Node} {x : Object} (h : HasBody value x) :
    Node.body value = some x := by
  cases h with
  | plain => rfl
  | guarded c _ hc => simp only [Node.body, Node.underLoop, Node.underCondition, hc]
  | repeated l _ hl => simp only [Node.body, Node.underLoop, Node.underCondition, hl]
  | repeatedGuarded l c _ hl hc =>
    simp only [Node.body, Node.underLoop, Node.underCondition, hl, hc]

private theorem hasBody_underCondition {value : Option Node} {x : Object}
    (h : Node.underCondition value = some (.object x)) :
    value = some (.object x) ∨ ∃ c, value = some (.conditional c) ∧ c.body = some (.object x) := by
  unfold Node.underCondition at h
  split at h
  · rename_i c
    exact Or.inr ⟨c, rfl, h⟩
  · exact Or.inl h

theorem body_eq_some_iff {value : Option Node} {x : Object} :
    Node.body value = some x ↔ HasBody value x := by
  refine ⟨fun h => ?_, HasBody.body_eq⟩
  have hobject : Node.underCondition (Node.underLoop value) = some (.object x) := by
    unfold Node.body at h
    split at h
    · rename_i heq
      rw [heq, Option.some.inj h]
    · exact nomatch h
  by_cases hloop : ∃ l, value = some (.loop l)
  · obtain ⟨l, rfl⟩ := hloop
    rcases hasBody_underCondition hobject with hl | ⟨c, hl, hc⟩
    · exact .repeated l x hl
    · exact .repeatedGuarded l c x hl hc
  · have hsame : Node.underLoop value = value := by
      unfold Node.underLoop
      split
      · rename_i l
        exact absurd ⟨l, rfl⟩ hloop
      · rfl
    rw [hsame] at hobject
    rcases hasBody_underCondition hobject with hv | ⟨c, hv, hc⟩
    · rw [hv]
      exact .plain x
    · rw [hv]
      exact .guarded c x hc

namespace Node

theorem children_array (x : ArrayLiteral) :
    (Node.array x).children = x.items.reduceOption.map .item := by
  rw [children, places_array, List.filterMap_map, List.reduceOption, List.map_filterMap]
  rfl

theorem children_object (x : Object) :
    (Node.object x).children =
      x.properties.reduceOption.map .property ++ x.resources.reduceOption.map .resourceDecl := by
  rw [children, places_object, List.filterMap_append, List.filterMap_map,
    List.filterMap_map, List.reduceOption, List.reduceOption, List.map_filterMap,
    List.map_filterMap]
  rfl

theorem property_mem_children {x : Object} {p : Property} (h : some p ∈ x.properties) :
    .property p ∈ (Node.object x).children := by
  rw [mem_children_iff, places_object]
  exact List.mem_append_left _ (List.mem_map.mpr ⟨some p, h, rfl⟩)

theorem resource_mem_children {x : Object} {r : Resource} (h : some r ∈ x.resources) :
    .resourceDecl r ∈ (Node.object x).children := by
  rw [mem_children_iff, places_object]
  exact List.mem_append_right _ (List.mem_map.mpr ⟨some r, h, rfl⟩)

theorem item_mem_children {x : ArrayLiteral} {i : Item} (h : some i ∈ x.items) :
    .item i ∈ (Node.array x).children := by
  rw [mem_children_iff, places_array]
  exact List.mem_map.mpr ⟨some i, h, rfl⟩

variable {n : Node}

theorem mem_children_property {x : Property} (h : x.value = some n) :
    n ∈ (Node.property x).children := by
  simp [mem_children_iff, places_property, h]

theorem mem_children_item {x : Item} (h : x.value = some n) : n ∈ (Node.item x).children := by
  simp [mem_children_iff, places_item, h]

theorem mem_children_conditional {x : Conditional} (h : x.body = some n) :
    n ∈ (Node.conditional x).children := by
  simp [mem_children_iff, places_conditional, h]

theorem mem_children_loop {x : Loop} (h : x.body = some n) : n ∈ (Node.loop x).children := by
  simp [mem_children_iff, places_loop, h]

theorem mem_children_arrayAccess {x : ArrayAccess} (h : x.base = some n) :
    n ∈ (Node.arrayAccess x).children := by
  simp [mem_children_iff, places_arrayAccess, h]

theorem mem_children_resourceDecl {x : Resource} (h : x.value = some n) :
    n ∈ (Node.resourceDecl x).children := by
  simp [mem_children_iff, places_resourceDecl, h]

end Node

/-- The body of a declaration is below whatever its value is below. -/
theorem HasBody.mem_preorder {value : Option Node} {x : Object} (h : HasBody value x)
    {root : Node} (hvalue : ∀ n, value = some n → n ∈ root.preorder) :
    .object x ∈ root.preorder := by
  cases h with
  | plain => exact hvalue _ rfl
  | guarded c _ hc =>
    exact Node.mem_preorder_of_child (hvalue _ rfl) (Node.mem_children_conditional hc)
  | repeated l _ hl => exact Node.mem_preorder_of_child (hvalue _ rfl) (Node.mem_children_loop hl)
  | repeatedGuarded l c _ hl hc =>
    have hguard := Node.mem_preorder_of_child (hvalue _ rfl) (Node.mem_children_loop hl)
    exact Node.mem_preorder_of_child hguard (Node.mem_children_conditional hc)

namespace Node

/-- The parts that a node of its kind must have to be read: properties, their keys and items. -/
def PartsPresent : Node → Prop
  | .property x => x.key.isSome
  | .object x => ∀ place ∈ x.properties, place.isSome
  | .array x => ∀ place ∈ x.items, place.isSome
  | _ => True

instance (n : Node) : Decidable n.PartsPresent :=
  match n with
  | .property x => inferInstanceAs (Decidable (x.key.isSome = true))
  | .object x => inferInstanceAs (Decidable (∀ place ∈ x.properties, place.isSome = true))
  | .array x => inferInstanceAs (Decidable (∀ place ∈ x.items, place.isSome = true))
  | .identifier _ | .string _ | .integer _ | .boolean _ | .skipped _ | .variableAccess _
  | .propertyAccess _ | .arrayAccess _ | .item _ | .conditional _ | .loop _ | .resourceDecl _
  | .moduleDecl _ | .variableDecl _ | .parameterDecl _ | .outputDecl _ | .program _ =>
    isTrue trivial

/-- No property, no key and no item is absent in the document. -/
def Complete (n : Node) : Prop := ∀ k ∈ n.preorder, k.PartsPresent

instance (n : Node) : Decidable n.Complete :=
  inferInstanceAs (Decidable (∀ k ∈ n.preorder, k.PartsPresent))

/-- No property of an object and no key of one is absent in the document. -/
def Keyed (n : Node) : Prop := ∀ x, .object x ∈ n.preorder → Property.AllKeyed x.properties

theorem Complete.allKeyed {root : Node} (h : root.Complete) {x : Object}
    (hx : .object x ∈ root.preorder) : Property.AllKeyed x.properties := by
  intro place hplace
  obtain ⟨p, rfl⟩ := Option.isSome_iff_exists.mp (h _ hx place hplace)
  have hp : Node.property p ∈ root.preorder :=
    mem_preorder_of_child hx (property_mem_children hplace)
  obtain ⟨k, hk⟩ := Option.isSome_iff_exists.mp (h _ hp)
  exact ⟨p, k, rfl, hk⟩

theorem Complete.keyed {root : Node} (h : root.Complete) : root.Keyed := fun _ => h.allKeyed

end Node

namespace Resource

/-- The resource has the array `a` as its list of explicit dependencies. -/
def HasList (x : Resource) (a : ArrayLiteral) : Prop :=
  ∃ body p, HasBody x.value body ∧ Property.IsFirst dependsOnKey body.properties p ∧
    p.value = some (.array a)

/-- The entry of index `i` in the resource's list of explicit dependencies is `item`. -/
def Lists (x : Resource) (i : Nat) (item : Item) : Prop :=
  ∃ a, x.HasList a ∧ a.items[i]? = some (some item)

/-- The entries that are there in the list of explicit dependencies. -/
def listed (x : Resource) : List Item :=
  match explicitEntries x.body with
  | .ok (some entries) => entries.reduceOption
  | _ => []

variable {root : Node} {x : Resource}

theorem body_mem_preorder (hx : .resourceDecl x ∈ root.preorder) {body : Object}
    (hbody : HasBody x.value body) : .object body ∈ root.preorder :=
  hbody.mem_preorder fun _ hn =>
    Node.mem_preorder_of_child hx (Node.mem_children_resourceDecl hn)

theorem array_mem_preorder (hx : .resourceDecl x ∈ root.preorder) {a : ArrayLiteral}
    (ha : x.HasList a) : .array a ∈ root.preorder := by
  obtain ⟨body, p, hbody, hfirst, hvalue⟩ := ha
  have hp : Node.property p ∈ root.preorder :=
    Node.mem_preorder_of_child (body_mem_preorder hx hbody)
      (Node.property_mem_children hfirst.mem)
  exact Node.mem_preorder_of_child hp (Node.mem_children_property hvalue)

/-- A search for the list of explicit dependencies is not blocked. -/
def Readable (x : Resource) : Prop :=
  ∀ body, HasBody x.value body → ¬ Property.Blocked dependsOnKey body.properties

theorem readable_of_complete (hc : root.Complete) (hx : .resourceDecl x ∈ root.preorder) :
    x.Readable :=
  fun _ hbody => (hc.allKeyed (body_mem_preorder hx hbody)).not_blocked dependsOnKey

theorem explicitEntries_of_hasList (hr : x.Readable) {a : ArrayLiteral} (ha : x.HasList a) :
    explicitEntries x.body = .ok (some a.items) := by
  obtain ⟨body, p, hbody, hfirst, hvalue⟩ := ha
  have hsearch := (Property.first_eq_some_iff (hr body hbody)).mpr hfirst
  have hbody' : x.body = some body := hbody.body_eq
  simp only [explicitEntries, hbody', Object.property, hsearch, hvalue]

theorem explicitEntries_of_not_hasList (hr : x.Readable) (hno : ∀ a, ¬ x.HasList a) :
    explicitEntries x.body = .ok none := by
  cases hbody : x.body with
  | none => rfl
  | some body =>
    have hhas : HasBody x.value body := body_eq_some_iff.mp hbody
    obtain ⟨found, hfound⟩ := Property.exists_first (hr body hhas)
    cases found with
    | none => simp only [explicitEntries, Object.property, hfound]
    | some p =>
      have hfirst := (Property.first_eq_some_iff (hr body hhas)).mp hfound
      have hvalue : ∀ a, p.value ≠ some (.array a) := fun a ha => hno a ⟨body, p, hhas, hfirst, ha⟩
      -- `hvalue` leaves only the case for what is no array.
      simp only [explicitEntries, Object.property, hfound]

private theorem map_some_reduceOption {α : Type} {l : List (Option α)}
    (h : ∀ o ∈ l, o.isSome) : l.reduceOption.map some = l := by
  induction l with
  | nil => rfl
  | cons o rest ih =>
    obtain ⟨a, rfl⟩ := Option.isSome_iff_exists.mp (h o List.mem_cons_self)
    rw [List.reduceOption_cons_of_some, List.map_cons,
      ih fun o' ho' => h o' (List.mem_cons_of_mem _ ho')]

theorem listed_of_hasList (hc : root.Complete) (hx : .resourceDecl x ∈ root.preorder)
    {a : ArrayLiteral} (ha : x.HasList a) : x.listed.map some = a.items := by
  unfold listed
  rw [explicitEntries_of_hasList (readable_of_complete hc hx) ha]
  exact map_some_reduceOption (hc _ (array_mem_preorder hx ha))

/-- The children of a list of explicit dependencies are its entries. -/
theorem children_of_hasList (hc : root.Complete) (hx : .resourceDecl x ∈ root.preorder)
    {a : ArrayLiteral} (ha : x.HasList a) : (Node.array a).children = x.listed.map .item := by
  rw [Node.children_array, ← listed_of_hasList hc hx ha, List.reduceOption, List.filterMap_map]
  exact congrArg (List.map Node.item) List.filterMap_some

theorem listed_of_not_hasList (hc : root.Complete) (hx : .resourceDecl x ∈ root.preorder)
    (hno : ∀ a, ¬ x.HasList a) : x.listed = [] := by
  unfold listed
  rw [explicitEntries_of_not_hasList (readable_of_complete hc hx) hno]

/-- The resource has no list, or all entries of its list are there. -/
def Legible (x : Resource) : Prop :=
  (explicitEntries x.body = .ok none ∧ x.listed = []) ∨
    explicitEntries x.body = .ok (some (x.listed.map some))

theorem legible_of_complete (hc : root.Complete) (hx : .resourceDecl x ∈ root.preorder) :
    x.Legible := by
  by_cases hlist : ∃ a, x.HasList a
  · obtain ⟨a, ha⟩ := hlist
    refine Or.inr ?_
    rw [explicitEntries_of_hasList (readable_of_complete hc hx) ha, listed_of_hasList hc hx ha]
  · have hno : ∀ a, ¬ x.HasList a := fun a ha => hlist ⟨a, ha⟩
    exact Or.inl ⟨explicitEntries_of_not_hasList (readable_of_complete hc hx) hno,
      listed_of_not_hasList hc hx hno⟩

theorem listed_getElem?_eq_some_iff (hc : root.Complete) (hx : .resourceDecl x ∈ root.preorder)
    {i : Nat} {item : Item} : x.listed[i]? = some item ↔ x.Lists i item := by
  constructor
  · intro hitem
    by_cases hlist : ∃ a, x.HasList a
    · obtain ⟨a, ha⟩ := hlist
      refine ⟨a, ha, ?_⟩
      rw [← listed_of_hasList hc hx ha, List.getElem?_map, hitem]
      rfl
    · rw [listed_of_not_hasList hc hx fun a ha => hlist ⟨a, ha⟩] at hitem
      exact nomatch hitem
  · intro h
    obtain ⟨a, ha, hitem⟩ := h
    rw [← listed_of_hasList hc hx ha, List.getElem?_map] at hitem
    obtain ⟨entry, hentry, heq⟩ := Option.map_eq_some_iff.mp hitem
    rw [hentry, Option.some.inj heq]

/-- What is listed has an index in the list. -/
theorem exists_lists (hc : root.Complete) (hx : .resourceDecl x ∈ root.preorder) {item : Item}
    (hitem : item ∈ x.listed) : ∃ k, x.Lists k item := by
  obtain ⟨k, hk⟩ := List.getElem?_of_mem hitem
  exact ⟨k, (listed_getElem?_eq_some_iff hc hx).mp hk⟩

end Resource

end InfraLint
