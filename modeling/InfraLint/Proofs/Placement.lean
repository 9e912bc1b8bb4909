import InfraLint.Proofs.DroppedEntries
import InfraLint.Proofs.Spans

/-!
Documents with resources at the usual places only: at the top level of a program, and among the
resources of bodies, of resources and of modules at the top level. Then each step of the way from
the program down to a resource is one of a few, none of them is a property, and no node has two
lists with resources below them. So no resource is below a property, and resources ascend.
-/
namespace InfraLint

namespace Node

/-- The object is the body of a resource, or of a module for which `host` holds. -/
inductive IsBody (root : Node) (host : Module → Prop) : Object → Prop
  | ofResource (x : Resource) (b : Object) (hx : .resourceDecl x ∈ root.preorder)
      (hb : HasBody x.value b) : IsBody root host b
  | ofModule (x : Module) (b : Object) (hx : .moduleDecl x ∈ root.preorder) (hhost : host x)
      (hb : HasBody x.value b) : IsBody root host b

/-- Resources are declared at the root, or in bodies of resources and of modules for which `host`
holds. -/
def PlacesResources (root : Node) (host : Module → Prop) : Prop :=
  ∀ p ∈ root.preorder, ∀ x, .resourceDecl x ∈ p.children →
    p = root ∨ ∃ b, p = .object b ∧ root.IsBody host b

def Declares (root : Node) (x : Module) : Prop := .moduleDecl x ∈ root.children

/-- The steps of the way from a program down to its resources. -/
inductive LeadsTo : Node → Node → Prop
  | declaredResource (P : Program) (x : Resource) (hx : some (.resourceDecl x) ∈ P.declarations) :
      LeadsTo (.program P) (.resourceDecl x)
  | declaredModule (P : Program) (x : Module) (hx : some (.moduleDecl x) ∈ P.declarations) :
      LeadsTo (.program P) (.moduleDecl x)
  | nested (b : Object) (x : Resource) (hx : some x ∈ b.resources) :
      LeadsTo (.object b) (.resourceDecl x)
  | resourceValue (x : Resource) (n : Node) (b : Object) (hn : x.value = some n)
      (hb : HasBody (some n) b) : LeadsTo (.resourceDecl x) n
  | moduleValue (x : Module) (n : Node) (b : Object) (hn : x.value = some n)
      (hb : HasBody (some n) b) : LeadsTo (.moduleDecl x) n
  | guarded (c : Conditional) (b : Object) (hc : c.body = some (.object b)) :
      LeadsTo (.conditional c) (.object b)
  | repeated (l : Loop) (b : Object) (hl : l.body = some (.object b)) :
      LeadsTo (.loop l) (.object b)
  | repeatedGuarded (l : Loop) (c : Conditional) (hl : l.body = some (.conditional c)) :
      LeadsTo (.loop l) (.conditional c)

/-- Where the way goes on from a node that has one way down at most. -/
def wayDown? : Node → Option Node
  | .resourceDecl x => x.value
  | .moduleDecl x => x.value
  | .conditional c => c.body
  | .loop l => l.body
  | _ => none

namespace LeadsTo

variable {p c d : Node}

theorem ne_property (h : p.LeadsTo c) (q : Property) : c ≠ .property q := by
  rintro rfl
  cases h with
  | resourceValue x _ b _ hb => exact nomatch hb
  | moduleValue x _ b _ hb => exact nomatch hb

/-- A program, an object, or a node with one way down. -/
theorem wayDown_eq (h : p.LeadsTo c) :
    (∃ P, p = .program P) ∨ (∃ b, p = .object b) ∨ p.wayDown? = some c := by
  cases h with
  | declaredResource P | declaredModule P => exact Or.inl ⟨P, rfl⟩
  | nested b => exact Or.inr (Or.inl ⟨b, rfl⟩)
  | resourceValue _ _ _ h | moduleValue _ _ _ h | guarded _ _ h | repeated _ _ h
  | repeatedGuarded _ _ h => exact Or.inr (Or.inr h)

theorem eq_or (hc : p.LeadsTo c) (hd : p.LeadsTo d) :
    c = d ∨ (∃ P, p = .program P) ∨ ∃ b, p = .object b := by
  rcases hc.wayDown_eq with h | h | hcway
  · exact Or.inr (Or.inl h)
  · exact Or.inr (Or.inr h)
  · rcases hd.wayDown_eq with h | h | hdway
    · exact Or.inr (Or.inl h)
    · exact Or.inr (Or.inr h)
    · exact Or.inl (Option.some.inj (hcway.symm.trans hdway))

theorem mem_children (h : p.LeadsTo c) : c ∈ p.children := by
  cases h with
  | declaredResource P x hx | declaredModule P x hx =>
    rw [mem_children_iff, places_program]
    exact hx
  | nested b x hx => exact resource_mem_children hx
  | resourceValue x n b hn => exact mem_children_resourceDecl hn
  | moduleValue x n b hn => simp [mem_children_iff, places_moduleDecl, hn]
  | guarded c b hc => exact mem_children_conditional hc
  | repeated l b hl => exact mem_children_loop hl
  | repeatedGuarded l c hl => exact mem_children_loop hl

end LeadsTo

variable {root : Node}

/-- What holds the body of a declaration holds the declaration, or it is a part of the way. -/
theorem mem_or_leadsTo (hd : root.Distinct) {o : Node} (ho : o ∈ root.preorder)
    {value : Option Node} {b : Object} (hb : HasBody value b)
    (hvalue : ∀ n, value = some n → o.LeadsTo n) {z : Node} (hz : z ∈ root.preorder)
    (hmem : .object b ∈ z.preorder) : o ∈ z.preorder ∨ ∃ p ∈ root.preorder, p.LeadsTo z := by
  have hstep : ∀ {p c : Node}, p ∈ root.preorder → p.LeadsTo c → c ∈ z.preorder →
      p ∈ z.preorder ∨ ∃ p ∈ root.preorder, p.LeadsTo z := by
    intro p c hp hlead hc
    rcases hd.eq_or_parent_mem hp hlead.mem_children hz hc with rfl | hpz
    · exact Or.inr ⟨p, hp, hlead⟩
    · exact Or.inl hpz
  have hbelow : ∀ n, value = some n → n ∈ root.preorder :=
    fun n hn => mem_preorder_of_child ho (hvalue n hn).mem_children
  cases hb with
  | plain => exact hstep ho (hvalue _ rfl) hmem
  | guarded c _ hc =>
    rcases hstep (hbelow _ rfl) (.guarded c b hc) hmem with hcz | hway
    · exact hstep ho (hvalue _ rfl) hcz
    · exact Or.inr hway
  | repeated l _ hl =>
    rcases hstep (hbelow _ rfl) (.repeated l b hl) hmem with hlz | hway
    · exact hstep ho (hvalue _ rfl) hlz
    · exact Or.inr hway
  | repeatedGuarded l c _ hl hc =>
    have hinner := mem_preorder_of_child (hbelow _ rfl) (mem_children_loop hl)
    rcases hstep hinner (.guarded c b hc) hmem with hcz | hway
    · rcases hstep (hbelow _ rfl) (.repeatedGuarded l c hl) hcz with hlz | hway
      · exact hstep ho (hvalue _ rfl) hlz
      · exact Or.inr hway
    · exact Or.inr hway

theorem resource_of_mem_children {p : Node} {x : Resource}
    (hx : .resourceDecl x ∈ p.children) {b : Object} (hp : p = .object b) :
    some x ∈ b.resources := by
  subst hp
  simpa [mem_children_iff, places_object] using hx

private theorem sizeOf_lt_of_nested {x y : Resource} {b : Object}
    (hx : .resourceDecl x ∈ (Node.object b).children) (hb : HasBody y.value b) :
    sizeOf (Node.resourceDecl x) < sizeOf (Node.resourceDecl y) :=
  (sizeOf_child_lt hx).trans_le
    (sizeOf_le_of_mem_preorder (Resource.body_mem_preorder (mem_preorder_self _) hb))

section Program

variable {P : Program}

/-- A node above a resource is led to by its parent. The induction climbs from the resource to
the resource or module that it is nested in, until that is not below the node any more. -/
theorem PlacesResources.leadsTo
    (hplaced : (Node.program P).PlacesResources (Node.program P).Declares)
    (hd : (Node.program P).Distinct) {p z : Node} (hp : p ∈ (Node.program P).preorder)
    (hz : z ∈ p.children) {x : Resource} (hx : .resourceDecl x ∈ z.preorder) : p.LeadsTo z := by
  have hzroot := mem_preorder_of_child hp hz
  have hparent : ∀ {q}, q ∈ (Node.program P).preorder → q.LeadsTo z → p.LeadsTo z := by
    intro q hq hlead
    rw [hd.parent_eq hp hq hz hlead.mem_children]
    exact hlead
  have hroot : .program P ∉ z.preorder :=
    fun h => not_mem_preorder_of_child hz (mem_preorder_trans z h hp)
  induction hsize : sizeOf (Node.program P) - sizeOf (Node.resourceDecl x)
    using Nat.strong_induction_on generalizing x with
  | _ size ih =>
    by_cases hxz : .resourceDecl x = z
    · subst hxz
      rcases hplaced p hp x hz with rfl | ⟨b, rfl, _⟩
      · exact .declaredResource P x (by simpa [mem_children_iff, places_program] using hz)
      · exact .nested b x (resource_of_mem_children hz rfl)
    · obtain ⟨q, hq, hxq⟩ := exists_parent hx hxz
      have hqroot := mem_preorder_trans _ hzroot hq
      rcases hplaced q hqroot x hxq with rfl | ⟨b, rfl, hbody⟩
      · exact absurd hq hroot
      · cases hbody with
        | ofResource y _ hy hb =>
          have hlead : ∀ n, y.value = some n → (Node.resourceDecl y).LeadsTo n :=
            fun n hn => .resourceValue y n b hn (hn ▸ hb)
          rcases mem_or_leadsTo hd hy hb hlead hzroot hq with hyz | ⟨q, hq, hqz⟩
          · have hlt := sizeOf_lt_of_nested hxq hb
            have hle := sizeOf_le_of_mem_preorder hy
            exact ih _ (by omega) hyz rfl
          · exact hparent hq hqz
        | ofModule y _ hy hdeclared hb =>
          have hlead : ∀ n, y.value = some n → (Node.moduleDecl y).LeadsTo n :=
            fun n hn => .moduleValue y n b hn (hn ▸ hb)
          rcases mem_or_leadsTo hd hy hb hlead hzroot hq with hyz | ⟨q, hq, hqz⟩
          · rcases hd.eq_or_parent_mem (mem_preorder_self _) hdeclared hzroot hyz with rfl | h
            · refine hparent (mem_preorder_self _) (.declaredModule P y ?_)
              simpa [Declares, mem_children_iff, places_program] using hdeclared
            · exact absurd h hroot
          · exact hparent hq hqz

theorem PlacesResources.flatProperties
    (hplaced : (Node.program P).PlacesResources (Node.program P).Declares)
    (hd : (Node.program P).Distinct) : (Node.program P).FlatProperties := by
  intro q hq x hx
  obtain ⟨p, hp, hqp⟩ := exists_parent hq (by exact nofun)
  exact (hplaced.leadsTo hd hp hqp hx).ne_property q rfl

private theorem ascends_program (hs : (Node.program P).SpansFit) : (Node.program P).Ascends := by
  have hchildren : (Node.program P).children = P.declarations.reduceOption := by
    rw [children, places_program]
    rfl
  have hfield := hs.ascending ("declarations", .many P.declarations) (by simp [fields])
  unfold Ascends
  rw [hchildren]
  exact hfield.imp fun h _ _ => h

private theorem ascends_object {b : Object} (hs : (Node.object b).SpansFit)
    (hflat : ∀ p, some p ∈ b.properties → (Node.property p).resourcesIn = []) :
    (Node.object b).Ascends := by
  have hfield := hs.ascending ("resources", .many (b.resources.map (·.map .resourceDecl)))
    (by simp [fields])
  have hproperty : ∀ c ∈ b.properties.reduceOption.map Node.property, c.resourcesIn = [] := by
    intro c hc
    obtain ⟨p, hp, rfl⟩ := List.mem_map.mp hc
    exact hflat p (List.reduceOption_mem_iff.mp hp)
  unfold Ascends
  rw [children_object, List.pairwise_append]
  refine ⟨?_, ?_, fun c hc d _ hne => absurd (hproperty c hc) hne⟩
  · exact List.pairwise_of_forall_mem_list fun c hc d _ hne => absurd (hproperty c hc) hne
  · rw [← List.reduceOption_map]
    exact hfield.imp fun h _ _ => h

/-- At every node the children that hold resources ascend. -/
theorem PlacesResources.ascends
    (hplaced : (Node.program P).PlacesResources (Node.program P).Declares)
    (hd : (Node.program P).Distinct) (hs : (Node.program P).WellSpanned) {k : Node}
    (hk : k ∈ (Node.program P).preorder) : k.Ascends := by
  have hlead : ∀ c ∈ k.children, c.resourcesIn ≠ [] → k.LeadsTo c := by
    intro c hc hne
    obtain ⟨x, hx⟩ := List.exists_mem_of_ne_nil _ hne
    exact hplaced.leadsTo hd hk hc (mem_resourcesIn_iff.mp hx)
  by_cases hprogram : ∃ Q, k = .program Q
  · obtain ⟨Q, rfl⟩ := hprogram
    exact ascends_program (hs _ hk)
  by_cases hobject : ∃ b, k = .object b
  · obtain ⟨b, rfl⟩ := hobject
    refine ascends_object (hs _ hk) fun p hp => resourcesIn_eq_nil_iff.mpr fun x hx => ?_
    have hpk := property_mem_children hp
    exact (hplaced.leadsTo hd hk hpk hx).ne_property p rfl
  · -- Any other node leads to one child at most.
    refine (hd.nodup_children hk).imp_of_mem fun {c d} hc hd hne hcx hdx => ?_
    rcases (hlead c hc hcx).eq_or (hlead d hd hdx) with heq | h | h
    · exact absurd heq hne
    · exact absurd h hprogram
    · exact absurd h hobject

theorem PlacesResources.resources_ascend
    (hplaced : (Node.program P).PlacesResources (Node.program P).Declares)
    (hd : (Node.program P).Distinct) (hs : (Node.program P).WellSpanned) :
    (Node.program P).resourcesIn.Pairwise fun x y =>
      x.origin.span.position ≤ y.origin.span.position :=
  hs.resources_ascend fun _ hk => hplaced.ascends hd hs hk

end Program

theorem placesResources_of_ids (hd : root.Distinct) {host : Module → Prop} (modules : List Module)
    (hmodules : ∀ x ∈ modules, .moduleDecl x ∈ root.preorder ∧ host x)
    (hids : ∀ p ∈ root.preorder, p.children.any (fun c => c.resource?.isSome) = true →
      p.id = root.id ∨ p.id ∈ (root.resourcesIn.filterMap Resource.body ++
        modules.filterMap Module.body).map fun b => b.origin.id) :
    root.PlacesResources host := by
  intro p hp x hx
  have hany : p.children.any (fun c => c.resource?.isSome) = true :=
    List.any_eq_true.mpr ⟨_, hx, rfl⟩
  rcases hids p hp hany with hid | hid
  · exact Or.inl (hd.eq_of_id hp (mem_preorder_self root) hid)
  · refine Or.inr ?_
    obtain ⟨b, hb, hid⟩ := List.mem_map.mp hid
    rcases List.mem_append.mp hb with hb | hb
    · obtain ⟨y, hy, hbody⟩ := List.mem_filterMap.mp hb
      have hy' := mem_resourcesIn_iff.mp hy
      have hhas := body_eq_some_iff.mp hbody
      have hmem := Resource.body_mem_preorder hy' hhas
      exact ⟨b, hd.eq_of_id hp hmem hid.symm, .ofResource y b hy' hhas⟩
    · obtain ⟨y, hy, hbody⟩ := List.mem_filterMap.mp hb
      obtain ⟨hy', hhost⟩ := hmodules y hy
      have hhas := body_eq_some_iff.mp hbody
      have hmem : .object b ∈ root.preorder := hhas.mem_preorder fun n hn =>
        mem_preorder_of_child hy' (by simp [mem_children_iff, places_moduleDecl, hn])
      exact ⟨b, hd.eq_of_id hp hmem hid.symm, .ofModule y b hy' hhost hhas⟩

end Node

end InfraLint
