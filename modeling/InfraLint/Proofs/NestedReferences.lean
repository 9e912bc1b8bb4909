import InfraLint.Proofs.FirstReferences

/-!
References in nested resources. A scan leaves out what is nested in the body itself, whereas an
object in the value of a property is searched as a whole, and so are the resources nested in it.
Main statement: what is bound in nested resources only is a target just if one of those that are
searched refers to it.
-/
namespace InfraLint

/-- The resource `y` is nested in some object of the body, at any depth. -/
def Object.Nests (body : Object) (y : Resource) : Prop :=
  ∃ o, .object o ∈ (Node.object body).preorder ∧ some y ∈ o.resources

namespace Object

variable {root : Node} {body : Object} {ignoreExplicit : Bool} {y : Resource}

theorem Nests.mem_preorder (hy : body.Nests y) :
    .resourceDecl y ∈ (Node.object body).preorder := by
  obtain ⟨o, ho, hmem⟩ := hy
  exact Node.mem_preorder_of_child ho (Node.resource_mem_children hmem)

/-- What is nested in a body does not hold it. -/
theorem Nests.not_mem_preorder (hy : body.Nests y) :
    .object body ∉ (Node.resourceDecl y).preorder := by
  intro hbody
  obtain ⟨o, ho, hmem⟩ := hy
  exact Node.not_mem_preorder_of_child (Node.resource_mem_children hmem)
    (Node.mem_preorder_trans _ hbody ho)

/-- A nested resource is a child of an object, and of nothing else. -/
theorem Nests.exists_parent_eq (hd : root.Distinct) (hbody : .object body ∈ root.preorder)
    (hy : body.Nests y) {p : Node} (hp : p ∈ root.preorder)
    (hchild : .resourceDecl y ∈ p.children) : ∃ o, p = .object o := by
  obtain ⟨o, ho, hmem⟩ := hy
  exact ⟨o, hd.parent_eq hp (Node.mem_preorder_trans root hbody ho) hchild
    (Node.resource_mem_children hmem)⟩

theorem visited_of_mem_preorder {n k : Node} (hn : n ∈ body.visited ignoreExplicit)
    (hk : k ∈ n.preorder) : k ∈ body.visited ignoreExplicit := by
  obtain ⟨p, hp, v, hv, hmem⟩ := mem_visited_iff.mp hn
  exact mem_visited_iff.mpr ⟨p, hp, v, hv, Node.mem_preorder_trans v hmem hk⟩

theorem mem_preorder_of_visited {n : Node} (hn : n ∈ body.visited ignoreExplicit) :
    n ∈ (Node.object body).preorder := by
  obtain ⟨p, hp, v, hv, hmem⟩ := mem_visited_iff.mp hn
  have hproperty := Node.child_mem_preorder
    (Node.property_mem_children (mem_searched_iff.mp hp).1)
  exact Node.mem_preorder_trans _
    (Node.mem_preorder_of_child hproperty (Node.mem_children_property hv)) hmem

/-- A nested resource of which a scan meets a node is met itself. -/
theorem Nests.visited_of_below (hd : root.Distinct) (hbody : .object body ∈ root.preorder)
    (hy : body.Nests y) {n : Node} (hn : n ∈ (Node.resourceDecl y).preorder)
    (hvisited : n ∈ body.visited ignoreExplicit) :
    .resourceDecl y ∈ body.visited ignoreExplicit := by
  obtain ⟨p, hp, v, hv, hmem⟩ := mem_visited_iff.mp hvisited
  have hpbody := Node.property_mem_children (mem_searched_iff.mp hp).1
  have hpv := Node.mem_children_property hv
  have hproot := Node.mem_preorder_of_child hbody hpbody
  have hvroot := Node.mem_preorder_of_child hproot hpv
  have hyroot := Node.mem_preorder_trans root hbody hy.mem_preorder
  apply mem_visited_iff.mpr
  refine ⟨p, hp, v, hv, ?_⟩
  rcases hd.comparable _ hyroot hvroot hn hmem with hyv | hvy
  · exact hyv
  -- A nested resource above the value is the value, or else it is above the whole body.
  rcases hd.eq_or_parent_mem hproot hpv hyroot hvy with rfl | hpy
  · exact Node.mem_preorder_self _
  · rcases hd.eq_or_parent_mem hbody hpbody hyroot hpy with heq | hbodyy
    · exact nomatch heq
    · exact absurd hbodyy hy.not_mem_preorder

/-- Of a nested resource a scan meets all or nothing. -/
theorem Nests.visited_iff (hd : root.Distinct) (hbody : .object body ∈ root.preorder)
    (hy : body.Nests y) {n : Node} (hn : n ∈ (Node.resourceDecl y).preorder) :
    n ∈ body.visited ignoreExplicit ↔ .resourceDecl y ∈ body.visited ignoreExplicit :=
  ⟨hy.visited_of_below hd hbody hn, fun h => visited_of_mem_preorder h hn⟩

/-- A scan does not meet the resources nested in the body itself. -/
theorem own_resource_not_visited (hd : root.Distinct) (hbody : .object body ∈ root.preorder)
    (hy : some y ∈ body.resources) : .resourceDecl y ∉ body.visited ignoreExplicit := by
  intro hvisited
  obtain ⟨p, hp, v, hv, hmem⟩ := mem_visited_iff.mp hvisited
  have hpbody := Node.property_mem_children (mem_searched_iff.mp hp).1
  have hproot := Node.mem_preorder_of_child hbody hpbody
  have hproperty : .resourceDecl y ∈ (Node.property p).preorder :=
    Node.mem_preorder_trans _ (Node.child_mem_preorder (Node.mem_children_property hv)) hmem
  rcases hd.eq_or_parent_mem hbody (Node.resource_mem_children hy) hproot hproperty with heq | h
  · exact nomatch heq
  · exact Node.not_mem_preorder_of_child hpbody h

end Object

namespace ReferenceScan

variable {m : Model} {ignoreExplicit : Bool} {body : Object}

/-- All nodes that a scan meets in the body and that are bound to the resource or module of
identity `t` are in nested resources. -/
def BoundInNested (m : Model) (ignoreExplicit : Bool) (body : Object) (t : Identity) : Prop :=
  ∀ n ∈ body.visited ignoreExplicit, ∀ target, m.symbolOf (some n) = some target →
    (target.kind = .resource ∨ target.kind = .module) → target.id = t →
    ∃ y, body.Nests y ∧ n ∈ (Node.resourceDecl y).preorder

/-- In the nested resource the symbol of identity `t` is referred to. -/
def NestedRefersTo (m : Model) (source : Symbol) (y : Resource) (t : Identity) : Prop :=
  ∃ n ∈ (Node.resourceDecl y).preorder, ∃ target index, Refers m source n target index ∧
    target.id = t

/-- What refers to something that is bound in nested resources only is in one of them. For a
member the base is in it, and with the base its parent. -/
theorem Refers.exists_nested (hd : m.program.Distinct) (hbody : .object body ∈ m.program.preorder)
    {t : Identity} (ht : BoundInNested m ignoreExplicit body t) {source : Symbol} {n : Node}
    (hn : n ∈ body.visited ignoreExplicit) {target : Symbol} {index : Option Node}
    (h : Refers m source n target index) (hid : target.id = t) :
    ∃ y, body.Nests y ∧ n ∈ (Node.resourceDecl y).preorder := by
  cases h with
  | plain _ _ _ hbound hkind _ => exact ht n hn target hbound hkind hid
  | member a _ hbase hkind =>
    cases hk : a.base with
    | none =>
      rw [hk] at hbase
      exact nomatch hbase
    | some k =>
      rw [hk] at hbase
      have hchild := Node.mem_children_arrayAccess hk
      have hvisited := Object.visited_of_mem_preorder hn (Node.child_mem_preorder hchild)
      obtain ⟨y, hy, hky⟩ := ht k hvisited target hbase hkind hid
      have haroot := Node.mem_preorder_trans _ hbody (Object.mem_preorder_of_visited hn)
      have hyroot := Node.mem_preorder_trans _ hbody hy.mem_preorder
      refine ⟨y, hy, ?_⟩
      rcases hd.eq_or_parent_mem haroot hchild hyroot hky with rfl | hay
      · obtain ⟨o, ho⟩ := hy.exists_parent_eq hd hbody haroot hchild
        exact nomatch ho
      · exact hay

theorem dependsOn_iff_exists_nested (hd : m.program.Distinct)
    (hbody : .object body ∈ m.program.preorder) {t : Identity}
    (ht : BoundInNested m ignoreExplicit body t) {source : Symbol} :
    DependsOn m ignoreExplicit source body t ↔
      ∃ y, body.Nests y ∧ .resourceDecl y ∈ body.visited ignoreExplicit ∧
        NestedRefersTo m source y t := by
  constructor
  · intro h
    obtain ⟨n, hn, target, index, hrefers, hid⟩ := h
    obtain ⟨y, hy, hny⟩ := hrefers.exists_nested hd hbody ht hn hid
    exact ⟨y, hy, hy.visited_of_below hd hbody hny hn, n, hny, target, index, hrefers, hid⟩
  · intro h
    obtain ⟨y, _, hvisited, n, hn, target, index, hrefers, hid⟩ := h
    exact ⟨n, Object.visited_of_mem_preorder hvisited hn, target, index, hrefers, hid⟩

/-- Whenever a scan gives a map, the resources nested in the body of a source itself are left out;
of any other nested resource all is searched or nothing; and what is bound in nested resources only
is a target of the source just if one that is searched refers to it. -/
theorem scan_searches_nested_resources (m : Model) (ignoreExplicit : Bool) (map : DependencyMap)
    (hd : m.program.Distinct) (ha : m.SourcesApart)
    (h : (scan m ignoreExplicit).outcome = .ok map) (x : Resource) (s : Symbol) (body : Object)
    (hx : .resourceDecl x ∈ m.program.preorder) (hs : x.IsSource m s body) :
    (∀ y, some y ∈ body.resources → ∀ n ∈ (Node.resourceDecl y).preorder,
      n ∉ body.visited ignoreExplicit) ∧
    (∀ y, body.Nests y → ∀ n ∈ (Node.resourceDecl y).preorder,
      (n ∈ body.visited ignoreExplicit ↔ .resourceDecl y ∈ body.visited ignoreExplicit)) ∧
    ∀ t, BoundInNested m ignoreExplicit body t →
      ((∃ set, map.get? s = some set ∧ ∃ d ∈ set, d.target.id = t) ↔
        ∃ y, body.Nests y ∧ .resourceDecl y ∈ body.visited ignoreExplicit ∧
          NestedRefersTo m s y t) := by
  have hbody : .object body ∈ m.program.preorder := Resource.body_mem_preorder hx hs.hasBody
  refine ⟨?_, fun y hy n hn => hy.visited_iff hd hbody hn, ?_⟩
  · intro y hy n hn hvisited
    have hnests : body.Nests y := ⟨body, Node.mem_preorder_self _, hy⟩
    exact Object.own_resource_not_visited hd hbody hy
      ((hnests.visited_iff hd hbody hn).mp hvisited)
  · intro t ht
    rw [eq_mapOf_of_outcome_scan h, exists_target_mapOf_iff ha hx hs]
    exact dependsOn_iff_exists_nested hd hbody ht

namespace Sample

open Redundancy.Sample

/-- A resource that has no references. -/
def inner : Resource := resource 50 "inner" (.object ⟨originAt 53, [], []⟩)

/-- The resource is nested in the value of a property. -/
def value : Object := ⟨originAt 46, [], [some inner]⟩

def outerBody : Object := ⟨originAt 43, [some (property 44 "x" (some (.object value)))], []⟩

def outer : Resource := resource 40 "outer" (.object outerBody)

def outerSymbol : Symbol := ⟨⟨1, 0⟩, .resource, some "outer", some (.resourceDecl outer)⟩

def innerSymbol : Symbol := ⟨⟨1, 1⟩, .resource, some "inner", some (.resourceDecl inner)⟩

def nesting : Model where
  maker := 1
  program := .program ⟨originAt 0, [some (.resourceDecl outer)]⟩
  bindings := [⟨⟨0, 50⟩, innerSymbol⟩, ⟨⟨0, 40⟩, outerSymbol⟩]
  issued := 2

theorem outerBody_nests_inner : outerBody.Nests inner := by
  refine ⟨value, ?_, List.mem_singleton.mpr rfl⟩
  have hproperty : Node.property _ ∈ (Node.object outerBody).preorder :=
    Node.child_mem_preorder (Node.property_mem_children (List.mem_singleton.mpr rfl))
  exact Node.mem_preorder_of_child hproperty (Node.mem_children_property rfl)

theorem inner_visited : .resourceDecl inner ∈ outerBody.visited true := by
  refine Object.mem_visited_iff.mpr ⟨property 44 "x" (some (.object value)), ?_, _, rfl, ?_⟩
  · exact Object.mem_searched_iff.mpr ⟨List.mem_singleton.mpr rfl, by decide⟩
  · exact Node.child_mem_preorder (Node.resource_mem_children (List.mem_singleton.mpr rfl))

theorem outer_mem : .resourceDecl outer ∈ nesting.program.preorder :=
  Node.child_mem_preorder (Node.mem_children_iff.mpr (by simp [nesting, Node.places_program]))

/-- Nothing but the nested resource itself is bound to its symbol. -/
theorem boundInNested_inner (hd : nesting.program.Distinct) :
    BoundInNested nesting true outerBody innerSymbol.id := by
  have hids : ∀ n ∈ outerBody.visited true,
      (nesting.symbolOf (some n)).map Symbol.id = some innerSymbol.id →
        n.id = (Node.resourceDecl inner).id := by decide +kernel
  have hbody : .object outerBody ∈ nesting.program.preorder :=
    Resource.body_mem_preorder outer_mem (.plain outerBody)
  intro n hn target htarget _ hid
  have hn' := Node.mem_preorder_trans _ hbody (Object.mem_preorder_of_visited hn)
  have hinner := Node.mem_preorder_trans _ hbody outerBody_nests_inner.mem_preorder
  have heq := hd.eq_of_id hn' hinner (hids n hn (by rw [htarget, Option.map_some, hid]))
  exact ⟨inner, outerBody_nests_inner, heq ▸ Node.mem_preorder_self _⟩

end Sample

/-- The outer resource depends on the inner one, though only the inner one is bound to it. -/
theorem scan_searches_nested_resources_sample :
    Sample.nesting.program.Distinct ∧ Sample.nesting.SourcesApart ∧
      ∃ map, (scan Sample.nesting true).outcome = .ok map ∧
        Sample.outer.IsSource Sample.nesting Sample.outerSymbol Sample.outerBody ∧
        BoundInNested Sample.nesting true Sample.outerBody Sample.innerSymbol.id ∧
        ∃ set, DependencyMap.get? map Sample.outerSymbol = some set ∧
          ∃ d ∈ set, d.target.id = Sample.innerSymbol.id := by
  have hd : Sample.nesting.program.Distinct := by decide +kernel
  have ha : Sample.nesting.SourcesApart := Model.sourcesApart_of_nodup (by decide +kernel)
  have hsource : Sample.outer.IsSource Sample.nesting Sample.outerSymbol Sample.outerBody :=
    ⟨rfl, .plain Sample.outerBody⟩
  have hbound := Sample.boundInNested_inner hd
  cases hscan : (scan Sample.nesting true).outcome with
  | error f =>
    have hrun : (scan Sample.nesting true).outcome.toOption.isSome := by decide +kernel
    rw [hscan] at hrun
    exact nomatch hrun
  | ok map =>
    obtain ⟨_, _, htargets⟩ := scan_searches_nested_resources Sample.nesting true map hd ha hscan
      Sample.outer Sample.outerSymbol Sample.outerBody Sample.outer_mem hsource
    refine ⟨hd, ha, map, rfl, hsource, hbound, (htargets _ hbound).mpr ?_⟩
    refine ⟨Sample.inner, Sample.outerBody_nests_inner, Sample.inner_visited, ?_⟩
    refine ⟨.resourceDecl Sample.inner, Node.mem_preorder_self _, Sample.innerSymbol, none, ?_, rfl⟩
    exact .plain _ _ nofun rfl (Or.inl rfl) (by decide)

end ReferenceScan

end InfraLint
