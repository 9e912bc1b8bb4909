import InfraLint.Proofs.Edit

/-!
Dropping items from their lists. Nodes keep their identities, and the children of an edited node
are those of the node that stay. An edit leaves a document alone where there is no item to drop;
where the dropped items hold no resources, it leaves all resources in their order; and a resource
lists the entries that stay.
-/
namespace InfraLint

/-- Keeps the items that have none of some identities. -/
def Edit.keeps (gone : List Identity) : Option Item → Bool
  | none => true
  | some x => !gone.contains x.origin.id

/-- The edit that drops the items of some identities from their lists. -/
def Edit.dropping (gone : List Identity) : Edit where
  items := List.filter (Edit.keeps gone)

namespace Node

variable {gone : List Identity}

/-- The children that stay with a node when items are dropped. -/
def kept (gone : List Identity) : Node → List Node
  | .array x => (x.items.reduceOption.filter fun i => i.origin.id ∉ gone).map .item
  | n => n.children

theorem edit_id (n : Node) : (n.edit (.dropping gone)).id = n.id :=
  id_edit ⟨fun _ => rfl, fun _ => rfl⟩ n

/-- Only at arrays items are dropped. -/
theorem spares_dropping {n : Node} (h : ∀ x, n ≠ .array x) : (Edit.dropping gone).Spares n := by
  cases n with
  | array x => exact absurd rfl (h x)
  | resourceDecl x | moduleDecl x => rfl
  | _ => trivial

private theorem reduceOption_keeps (items : List (Option Item)) :
    ((items.map (Option.map (Item.edit (.dropping gone)))).filter (Edit.keeps gone)).reduceOption =
      (items.reduceOption.filter fun i => i.origin.id ∉ gone).map (Item.edit (.dropping gone)) := by
  induction items with
  | nil => rfl
  | cons place rest ih =>
    cases place with
    | none =>
      rw [List.map_cons, Option.map_none, List.filter_cons_of_pos rfl,
        List.reduceOption_cons_of_none, List.reduceOption_cons_of_none, ih]
    | some i =>
      rw [List.map_cons, Option.map_some, List.reduceOption_cons_of_some]
      by_cases hi : i.origin.id ∈ gone
      · rw [List.filter_cons_of_neg (by simpa [Edit.keeps, Item.edit_origin] using hi),
          List.filter_cons_of_neg (by simpa using hi), ih]
      · rw [List.filter_cons_of_pos (by simpa [Edit.keeps, Item.edit_origin] using hi),
          List.filter_cons_of_pos (by simpa using hi), List.reduceOption_cons_of_some, ih,
          List.map_cons]

/-- The children of an edited node are those that stay, edited. -/
theorem children_edit (n : Node) :
    (n.edit (.dropping gone)).children = (n.kept gone).map (Node.edit (.dropping gone)) := by
  by_cases harray : ∃ x, n = .array x
  · obtain ⟨⟨o, items⟩, rfl⟩ := harray
    rw [edit_array, kept, children_array]
    show (((items.map (Option.map (Item.edit (.dropping gone)))).filter
      (Edit.keeps gone)).reduceOption).map Node.item = _
    rw [reduceOption_keeps, List.map_map, List.map_map]
    refine List.map_congr_left fun i _ => ?_
    rw [Function.comp_apply, Function.comp_apply, edit_item]
  · have hno : ∀ x, n ≠ .array x := fun x hx => harray ⟨x, hx⟩
    rw [children_edit_of_spares (spares_dropping hno)]
    cases n with
    | array x => exact absurd rfl (hno x)
    | _ => rfl

theorem mem_children_of_mem_kept {n c : Node} (hc : c ∈ n.kept gone) : c ∈ n.children := by
  unfold kept at hc
  split at hc
  · obtain ⟨i, hi, rfl⟩ := List.mem_map.mp hc
    rw [children_array]
    exact List.mem_map.mpr ⟨i, (List.mem_filter.mp hi).1, rfl⟩
  · exact hc

/-- What is below an edited node is edited. -/
theorem exists_of_mem_preorder_edit {k n : Node} (hk : k ∈ (n.edit (.dropping gone)).preorder) :
    ∃ j ∈ n.preorder, k = j.edit (.dropping gone) := by
  induction n using children_induction with
  | step n ih =>
    rcases mem_preorder_iff.mp hk with rfl | ⟨c, hc, hkc⟩
    · exact ⟨n, mem_preorder_self n, rfl⟩
    · rw [children_edit] at hc
      obtain ⟨d, hd, rfl⟩ := List.mem_map.mp hc
      have hchild := mem_children_of_mem_kept hd
      obtain ⟨j, hj, hkj⟩ := ih d hchild hkc
      exact ⟨j, mem_preorder_trans n (child_mem_preorder hchild) hj, hkj⟩

private theorem flatMap_filter {α β : Type} (keep : α → Bool) (f : α → List β) (l : List α)
    (hnone : ∀ a ∈ l, keep a = false → f a = []) : (l.filter keep).flatMap f = l.flatMap f := by
  induction l with
  | nil => rfl
  | cons a rest ih =>
    have hrest := ih fun b hb => hnone b (List.mem_cons_of_mem a hb)
    rw [List.flatMap_cons, ← hrest, List.filter_cons]
    cases ha : keep a with
    | false => rw [hnone a List.mem_cons_self ha]; rfl
    | true => rfl

private theorem flatMap_kept {β : Type} (f : Node → List β) (n : Node)
    (hnone : ∀ i, .item i ∈ n.children → i.origin.id ∈ gone → f (.item i) = []) :
    (n.kept gone).flatMap f = n.children.flatMap f := by
  unfold kept
  split
  · rw [children_array] at hnone ⊢
    rw [List.flatMap_map, List.flatMap_map]
    refine flatMap_filter _ (fun i => f (.item i)) _ fun i hi hgone => ?_
    exact hnone i (List.mem_map.mpr ⟨i, hi, rfl⟩) (by simpa using hgone)
  · rfl

/-- If the items that are dropped hold no resources, an edited document has the resources of the
document, edited and in their order. -/
theorem resources_edit (n : Node)
    (hnone : ∀ i, .item i ∈ n.preorder → i.origin.id ∈ gone →
      (Node.item i).preorder.filterMap resource? = []) :
    (n.edit (.dropping gone)).preorder.filterMap resource? =
      (n.preorder.filterMap resource?).map (Resource.edit (.dropping gone)) := by
  induction n using children_induction with
  | step n ih =>
    have hchildren : ∀ c ∈ n.kept gone,
        (c.edit (.dropping gone)).preorder.filterMap resource? =
          (c.preorder.filterMap resource?).map (Resource.edit (.dropping gone)) := by
      intro c hc
      have hchild := mem_children_of_mem_kept hc
      refine ih c hchild fun i hi => hnone i ?_
      exact mem_preorder_trans n (child_mem_preorder hchild) hi
    have hdropped := flatMap_kept (fun c => c.preorder.filterMap resource?) n
      fun i hi => hnone i (child_mem_preorder hi)
    have hhead : [n.edit (.dropping gone)].filterMap resource? =
        ([n].filterMap resource?).map (Resource.edit (.dropping gone)) := by
      simp only [List.filterMap_cons, List.filterMap_nil, resource?_edit]
      cases n.resource? <;> rfl
    have hcons : ∀ (k : Node) (l : List Node),
        (k :: l).filterMap resource? = [k].filterMap resource? ++ l.filterMap resource? := by
      intro k l
      rw [← List.filterMap_append, List.singleton_append]
    rw [preorder_eq, preorder_eq n, children_edit, hcons, hcons n, List.map_append, hhead,
      List.flatMap_map, List.filterMap_flatMap, List.filterMap_flatMap, ← hdropped,
      List.map_flatMap, List.flatMap_congr hchildren]

/-- Where no item is to be dropped, an edit changes nothing. -/
theorem edit_eq_self (n : Node)
    (hstay : ∀ i, .item i ∈ n.preorder → i.origin.id ∉ gone) : n.edit (.dropping gone) = n := by
  induction n using children_induction with
  | step n ih =>
    refine edit_of_children ?_ fun c hc => ih c hc fun i hi =>
      hstay i (mem_preorder_trans n (child_mem_preorder hc) hi)
    by_cases harray : ∃ x, n = .array x
    · obtain ⟨x, rfl⟩ := harray
      refine List.filter_eq_self.mpr fun place hplace => ?_
      obtain ⟨before, hbefore, rfl⟩ := List.mem_map.mp hplace
      cases before with
      | none => rfl
      | some i =>
        have hi := hstay i (child_mem_preorder (item_mem_children hbefore))
        simpa [Edit.keeps, Item.edit_origin] using hi
    · exact spares_dropping fun x hx => harray ⟨x, hx⟩

end Node

variable {gone : List Identity}

theorem Resource.edit_value (x : Resource) :
    (Resource.edit (.dropping gone) x).value = x.value.map (Node.edit (.dropping gone)) := by
  obtain ⟨o, name, typeString, value⟩ := x
  rw [Resource.edit_mk]
  rfl

theorem Resource.body_edit (x : Resource) :
    (Resource.edit (.dropping gone) x).body = x.body.map (Object.edit (.dropping gone)) := by
  unfold Resource.body
  rw [Resource.edit_value, Node.body_edit]

/-- An edited resource lists the entries that stay, edited. -/
theorem Resource.listed_edit (x : Resource) :
    (Resource.edit (.dropping gone) x).listed =
      (x.listed.filter fun i => i.origin.id ∉ gone).map (Item.edit (.dropping gone)) := by
  unfold Resource.listed
  rw [Resource.body_edit, explicitEntries_edit]
  cases explicitEntries x.body with
  | error f => rfl
  | ok found =>
    cases found with
    | none => rfl
    | some items => exact Node.reduceOption_keeps items

theorem Symbol.isCollection_edit (s : Symbol) :
    (Symbol.edit (.dropping gone) s).isCollection = s.isCollection := by
  refine isCollection_edit_of_isLoop (fun x _ => ?_) fun x _ => Node.isLoop_edit _ x.value
  rw [Resource.edit_value, Node.isLoop_edit]

theorem Node.Complete.edit {n : Node} (hc : n.Complete) : (n.edit (.dropping gone)).Complete := by
  intro k hk
  obtain ⟨j, hj, rfl⟩ := Node.exists_of_mem_preorder_edit hk
  have hparts := hc j hj
  cases j with
  | property x =>
    show (Property.edit _ x).key.isSome
    rw [Property.edit_key]
    exact hparts
  | object x =>
    intro place hplace
    rw [Object.edit_properties] at hplace
    obtain ⟨before, hbefore, rfl⟩ := List.mem_map.mp hplace
    rw [Option.isSome_map]
    exact hparts before hbefore
  | array x =>
    obtain ⟨o, items⟩ := x
    intro place hplace
    have hmem : place ∈ Item.editAll (.dropping gone) items := (List.mem_filter.mp hplace).1
    rw [Item.editAll_eq] at hmem
    obtain ⟨before, hbefore, rfl⟩ := List.mem_map.mp hmem
    rw [Option.isSome_map]
    exact hparts before hbefore
  | propertyAccess x | arrayAccess x | conditional x | loop x | moduleDecl x
  | variableDecl x | outputDecl x | program x =>
    obtain ⟨⟩ := x
    trivial
  | _ => trivial

end InfraLint
