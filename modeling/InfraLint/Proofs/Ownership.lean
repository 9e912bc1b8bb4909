import InfraLint.Proofs.Body

/-!
Entries and the resources that list them. In a tree in which each node has one place, a node that
holds an entry of a resource holds the resource as well, unless it is a part of the way from the
resource down to the entry. So an entry is listed by one resource only, and below a property that
is no list of explicit dependencies there are entries only where there are resources.
-/
namespace InfraLint

/-- Nodes that are never a part of the way from a resource down to one of its entries. -/
inductive Node.Outside : Node → Prop
  | resource (x : Resource) : Outside (.resourceDecl x)
  | property (p : Property) (hp : ¬ p.Named dependsOnKey) : Outside (.property p)
  | item (i : Item) : Outside (.item i)

theorem Node.mem_preorder_antisymm {k n : Node} (hk : k ∈ n.preorder) (hn : n ∈ k.preorder) :
    k = n := by
  rcases mem_preorder_iff.mp hk with rfl | ⟨c, hc, hkc⟩
  · rfl
  · exact absurd (mem_preorder_trans c hkc hn) (not_mem_preorder_of_child hc)

namespace Resource

variable {root z : Node} {x y : Resource}

private theorem mem_of_value (hd : root.Distinct) (hx : .resourceDecl x ∈ root.preorder) {n : Node}
    (hn : x.value = some n) (hz : z ∈ root.preorder) (hmem : n ∈ z.preorder) (hne : n ≠ z) :
    .resourceDecl x ∈ z.preorder := by
  exact hd.parent_mem hx (Node.mem_children_resourceDecl hn) hz hmem hne

theorem mem_of_body (hd : root.Distinct) (hx : .resourceDecl x ∈ root.preorder) {body : Object}
    (hbody : HasBody x.value body) (hz : z ∈ root.preorder) (hout : z.Outside)
    (hmem : .object body ∈ z.preorder) : .resourceDecl x ∈ z.preorder := by
  have hobject : ∀ b, Node.object b ≠ z := by rintro b rfl; exact nomatch hout
  have hcondition : ∀ c, Node.conditional c ≠ z := by rintro c rfl; exact nomatch hout
  have hloop : ∀ l, Node.loop l ≠ z := by rintro l rfl; exact nomatch hout
  have hbelow : ∀ n, x.value = some n → n ∈ root.preorder :=
    fun n hn => Node.mem_preorder_of_child hx (Node.mem_children_resourceDecl hn)
  generalize hv : x.value = value at hbody
  cases hbody with
  | plain => exact mem_of_value hd hx hv hz hmem (hobject body)
  | guarded c _ hc =>
    have hmem' :=
      hd.parent_mem (hbelow _ hv) (Node.mem_children_conditional hc) hz hmem (hobject body)
    exact mem_of_value hd hx hv hz hmem' (hcondition c)
  | repeated l _ hl =>
    have hmem' := hd.parent_mem (hbelow _ hv) (Node.mem_children_loop hl) hz hmem (hobject body)
    exact mem_of_value hd hx hv hz hmem' (hloop l)
  | repeatedGuarded l c _ hl hc =>
    have hguard := Node.mem_children_loop hl
    have hinner := Node.mem_preorder_of_child (hbelow _ hv) hguard
    have hmem' := hd.parent_mem hinner (Node.mem_children_conditional hc) hz hmem (hobject body)
    have hmem'' := hd.parent_mem (hbelow _ hv) hguard hz hmem' (hcondition c)
    exact mem_of_value hd hx hv hz hmem'' (hloop l)

theorem mem_of_list (hd : root.Distinct) (hx : .resourceDecl x ∈ root.preorder)
    {a : ArrayLiteral} (ha : x.HasList a) (hz : z ∈ root.preorder) (hout : z.Outside)
    (hmem : .array a ∈ z.preorder) : .resourceDecl x ∈ z.preorder := by
  obtain ⟨body, p, hbody, hfirst, hvalue⟩ := ha
  have hname : p.Named dependsOnKey := hfirst.named
  have harray := Node.mem_children_property hvalue
  have hproperty := Node.property_mem_children hfirst.mem
  have hobject := body_mem_preorder hx hbody
  have hlist : Node.array a ≠ z := by rintro rfl; exact nomatch hout
  have hother : Node.property p ≠ z := by
    rintro rfl
    cases hout with
    | property _ hp => exact hp hname
  have hmem' :=
    hd.parent_mem (Node.mem_preorder_of_child hobject hproperty) harray hz hmem hlist
  exact mem_of_body hd hx hbody hz hout (hd.parent_mem hobject hproperty hz hmem' hother)

/-- What holds an entry of a resource, and is not on the way to it, also holds the resource. -/
theorem mem_of_entry (hd : root.Distinct) (hx : .resourceDecl x ∈ root.preorder) {k : Nat}
    {i : Item} (hi : x.Lists k i) (hz : z ∈ root.preorder) (hout : z.Outside)
    (hmem : .item i ∈ z.preorder) (hne : .item i ≠ z) : .resourceDecl x ∈ z.preorder := by
  obtain ⟨a, ha, hentry⟩ := hi
  have hchild := Node.item_mem_children (List.mem_of_getElem? hentry)
  have hmem' := hd.parent_mem (array_mem_preorder hx ha) hchild hz hmem hne
  exact mem_of_list hd hx ha hz hout hmem'

theorem entry_mem_preorder (hx : .resourceDecl x ∈ root.preorder) {k : Nat} {i : Item}
    (hi : x.Lists k i) : .item i ∈ root.preorder := by
  obtain ⟨a, ha, hentry⟩ := hi
  exact Node.mem_preorder_of_child (array_mem_preorder hx ha)
    (Node.item_mem_children (List.mem_of_getElem? hentry))

/-- Entries of one identity are one entry. -/
theorem entry_eq_of_id (hd : root.Distinct) (hx : .resourceDecl x ∈ root.preorder)
    (hy : .resourceDecl y ∈ root.preorder) {j k : Nat} {i l : Item} (hi : x.Lists j i)
    (hl : y.Lists k l) (hid : i.origin.id = l.origin.id) : i = l :=
  Node.item.inj (hd.eq_of_id (entry_mem_preorder hx hi) (entry_mem_preorder hy hl) hid)

/-- What an entry refers to is below the root. -/
theorem entryValue_mem_preorder (hc : root.Complete) (hx : .resourceDecl x ∈ root.preorder)
    {i : Item} (hi : i ∈ x.listed) {n : Node} (hn : i.value = some n) : n ∈ root.preorder := by
  obtain ⟨k, hlists⟩ := exists_lists hc hx hi
  exact Node.mem_preorder_of_child (entry_mem_preorder hx hlists) (Node.mem_children_item hn)

/-- An entry is listed by one resource only. -/
theorem eq_of_entry (hd : root.Distinct) (hx : .resourceDecl x ∈ root.preorder)
    (hy : .resourceDecl y ∈ root.preorder) {j k : Nat} {i : Item} (hxi : x.Lists j i)
    (hyi : y.Lists k i) : x = y := by
  have hxy : .resourceDecl x ∈ (Node.resourceDecl y).preorder :=
    mem_of_entry hd hx hxi hy (.resource y) (entry_mem_preorder (Node.mem_preorder_self _) hyi)
      (by exact nofun)
  have hyx : .resourceDecl y ∈ (Node.resourceDecl x).preorder :=
    mem_of_entry hd hy hyi hx (.resource x) (entry_mem_preorder (Node.mem_preorder_self _) hxi)
      (by exact nofun)
  exact Node.resourceDecl.inj (Node.mem_preorder_antisymm hxy hyx)

/-- The property that lists an entry is between the entry and its resource. -/
theorem exists_property_of_entry (hx : .resourceDecl x ∈ root.preorder) {k : Nat} {i : Item}
    (hi : x.Lists k i) :
    ∃ p, .property p ∈ root.preorder ∧ .item i ∈ (Node.property p).preorder := by
  obtain ⟨a, ⟨body, p, hbody, hfirst, hvalue⟩, hentry⟩ := hi
  have harray := Node.child_mem_preorder (Node.mem_children_property hvalue)
  have hitem := Node.item_mem_children (List.mem_of_getElem? hentry)
  refine ⟨p, ?_, Node.mem_preorder_of_child harray hitem⟩
  exact Node.mem_preorder_of_child (body_mem_preorder hx hbody)
    (Node.property_mem_children hfirst.mem)

end Resource

end InfraLint
