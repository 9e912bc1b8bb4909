import InfraLint.Proofs.Ownership
import InfraLint.Proofs.Resolving

/-!
The resources of a built draft. An audit goes through one entry for each name that was listed, and
each entry refers to the last declaration of its name. A scan searches what was written, and what
it finds there are the declarations that the used expressions refer to. Nothing that it searches is
missing.
-/
namespace InfraLint

namespace Draft

def References (name : String) (item : Item) : Prop :=
  ∃ v, item.value = some v ∧ v.named? = some name

theorem PropertyOf.named_iff {entry : String × Literal} {p : Property}
    (h : PropertyOf entry (some p)) {name : String} : p.Named name ↔ entry.1 = name := by
  obtain ⟨p', o, v, heq, hkey, _⟩ := h
  obtain rfl := Option.some.inj heq
  rw [Property.named_iff hkey]
  exact Option.some_inj

variable {entries : Entries Literal}

/-- What a scan searches are the entries that are not the list of explicit dependencies. -/
theorem searched_of_entries {body : Object} (h : List.Forall₂ PropertyOf entries body.properties) :
    List.Forall₂ (fun entry p => PropertyOf entry (some p))
      (entries.filter fun entry => entry.1 ≠ dependsOnKey) (body.searched true) := by
  unfold Object.searched
  generalize body.properties = places at h
  induction h with
  | nil => exact .nil
  | @cons entry place _ _ hplace _ ih =>
    obtain ⟨p, _, _, rfl, _⟩ := id hplace
    rw [List.reduceOption_cons_of_some, List.filter_cons, List.filter_cons]
    have hsearched : p.Searched true ↔ entry.1 ≠ dependsOnKey := by
      simp [Property.Searched, hplace.named_iff]
    by_cases hkey : entry.1 = dependsOnKey
    · rw [if_neg (by simp [hkey]), if_neg (by simp [hsearched, hkey])]
      exact ih
    · rw [if_pos (by simp [hkey]), if_pos (by simp [hsearched, hkey])]
      exact .cons hplace ih

/-- The values of some entries are there, and they mention what was written. -/
theorem values_of_entries {properties : List Property}
    (h : List.Forall₂ (fun entry p => PropertyOf entry (some p)) entries properties) :
    ∃ values : List Node, properties.map Property.value = values.map some ∧
      (Node.mentions values).Perm (Node.mentions (Literal.nodesIn entries)) := by
  induction h with
  | nil => exact ⟨[], rfl, List.Perm.refl _⟩
  | @cons entry p _ _ hp _ ih =>
    obtain ⟨values, hvalues, hmentions⟩ := ih
    obtain ⟨p', o, v, heq, _, hv, hmention, _⟩ := hp
    obtain rfl := Option.some.inj heq
    refine ⟨v :: values, ?_, ?_⟩
    · rw [List.map_cons, List.map_cons, hv, hvalues]
    · rw [← List.singleton_append, Node.mentions_append, Literal.nodesIn, Node.mentions_append]
      exact hmention.append hmentions

variable {properties : Option (Entries Literal)} {dependsOn : Option (List String)}

private theorem key_of_own {entry : String × Literal}
    (h : entry ∈ ownEntries "properties" properties) : entry.1 ≠ dependsOnKey := by
  cases properties with
  | none => exact nomatch h
  | some entries =>
    rw [List.mem_singleton.mp h]
    show "properties" ≠ dependsOnKey
    decide

private theorem filter_own_listed {listed : Entries Literal} (h : ListOf dependsOn listed) :
    ((ownEntries "properties" properties ++ listed).filter fun entry => entry.1 ≠ dependsOnKey) =
      ownEntries "properties" properties := by
  have hown : (ownEntries "properties" properties).filter (fun entry => entry.1 ≠ dependsOnKey) =
      ownEntries "properties" properties :=
    List.filter_eq_self.mpr fun entry he => by simpa using key_of_own he
  rw [List.filter_append, hown]
  cases h with
  | none => exact List.append_nil _
  | some names a h => exact List.append_nil _

/-- All that a scan searches in an entered resource is there and mentions what was written. -/
theorem ResourceOf.searched {r : Resource} (h : ResourceOf properties dependsOn r) {body : Object}
    (hbody : HasBody r.value body) :
    ∃ values : List Node, (body.searched true).map Property.value = values.map some ∧
      (Node.mentions values).Perm
        (Node.mentions ((properties.map Literal.ofEntries).elim [] Literal.nodes)) := by
  obtain ⟨body', listed, hbody', hlist, hproperties⟩ := h
  obtain rfl := Option.some.inj (hbody'.body_eq.symm.trans hbody.body_eq)
  have hsearched := searched_of_entries hproperties
  rw [filter_own_listed hlist] at hsearched
  rw [← nodesIn_ownEntries "properties"]
  exact values_of_entries hsearched

theorem ResourceOf.exists_body {r : Resource} (h : ResourceOf properties dependsOn r) :
    ∃ body, HasBody r.value body := by
  obtain ⟨body, _, hbody, _⟩ := h
  exact ⟨body, hbody⟩

private theorem isFirst_of_entries {own : Entries Literal} {places : List (Option Property)}
    {n : Node} (hown : ∀ entry ∈ own, entry.1 ≠ dependsOnKey)
    (h : List.Forall₂ PropertyOf (own ++ [(dependsOnKey, .node n)]) places) :
    ∃ p, Property.IsFirst dependsOnKey places p ∧ p.value = some n := by
  induction own generalizing places with
  | nil =>
    rw [List.nil_append] at h
    cases h with
    | cons hplace hrest =>
      obtain ⟨p, o, v, rfl, hkey, hv, _, hnode⟩ := id hplace
      refine ⟨p, Property.isFirst_cons_iff.mpr (Or.inl ⟨hplace.named_iff.mpr rfl, rfl⟩), ?_⟩
      rw [hv, hnode n rfl]
  | cons entry rest ih =>
    rw [List.cons_append] at h
    cases h with
    | cons hplace hrest =>
      obtain ⟨q, _, _, rfl, _⟩ := id hplace
      obtain ⟨p, hfirst, hvalue⟩ := ih (fun e he => hown e (List.mem_cons_of_mem entry he)) hrest
      refine ⟨p, Property.isFirst_cons_iff.mpr (Or.inr ⟨?_, hfirst⟩), hvalue⟩
      rw [hplace.named_iff]
      exact hown entry List.mem_cons_self

private theorem references_of_places {names : List String} {items : List Item}
    (h : List.Forall₂ EntryOf names (items.map some)) : List.Forall₂ References names items := by
  rw [List.forall₂_map_right_iff] at h
  refine h.imp fun name item hitem => ?_
  obtain ⟨i, v, heq, hv, hname⟩ := hitem
  obtain rfl := Option.some.inj heq
  exact ⟨v, hv, hname⟩

theorem ResourceOf.listed {r : Resource} (h : ResourceOf properties dependsOn r) {root : Node}
    (hc : root.Complete) (hr : .resourceDecl r ∈ root.preorder) :
    List.Forall₂ References (dependsOn.getD []) r.listed := by
  obtain ⟨body, listed, hbody, hlist, hproperties⟩ := h
  cases hlist with
  | some names a hnames =>
    obtain ⟨p, hfirst, hvalue⟩ := isFirst_of_entries (fun _ => key_of_own) hproperties
    have hhas : r.HasList a := ⟨body, p, hbody, hfirst, hvalue⟩
    rw [← Resource.listed_of_hasList hc hr hhas] at hnames
    exact references_of_places hnames
  | none =>
    have hno : ∀ a, ¬ r.HasList a := by
      rintro a ⟨body', p, hbody', hfirst, _⟩
      obtain rfl := Option.some.inj (hbody'.body_eq.symm.trans hbody.body_eq)
      obtain ⟨entry, hentry, hp⟩ := forall₂_right hproperties hfirst.mem
      rw [List.append_nil] at hentry
      exact key_of_own hentry (hp.named_iff.mp hfirst.named)
    rw [Resource.listed_of_not_hasList hc hr hno]
    exact .nil

theorem Declares.resourceOf {x : Entered} {r : Resource} (h : Declares x (.resourceDecl r)) :
    ∃ properties dependsOn, ResourceOf properties dependsOn r ∧
      x.listedNames = dependsOn.getD [] ∧
      x.nodes = (properties.map Literal.ofEntries).elim [] Literal.nodes := by
  have hkind : x.kind = .resource := (Option.some.inj h.kind).symm
  cases x with
  | resource name properties dependsOn loop condition =>
    obtain ⟨r', heq, hresource⟩ := h.resource name properties dependsOn loop condition rfl
    obtain rfl := Node.resourceDecl.inj heq
    exact ⟨properties, dependsOn, hresource, rfl, rfl⟩
  | _ => exact nomatch hkind

variable {doc : List (Entered × List Made)} {d : Draft}

theorem mem_program {n : Node} (hn : n ∈ d.declarations) :
    n ∈ (Node.program d.program).preorder := by
  refine Node.child_mem_preorder ?_
  rw [children_program]
  exact hn

theorem Sound.complete (h : Sound doc [] d) : (Node.program d.program).Complete := by
  intro k hk
  rw [Node.mem_preorder_iff, children_program] at hk
  rcases hk with rfl | ⟨n, hn, hk⟩
  · trivial
  · obtain ⟨e, _, hentered⟩ := forall₂_right h.declarations hn
    rcases Node.mem_preorder_iff.mp hk with rfl | ⟨c, hc, hkc⟩
    · exact hentered.declares.partsPresent
    · exact (hentered.below c hc k hkc).1

/-- The resources of a built document are those entered, in their order. -/
theorem Sound.resources_eq (h : Sound doc [] d) {m : Model}
    (hm : m.program = .program d.program) :
    m.resources = d.declarations.filterMap Node.resource? := by
  have hdeclares : ∀ n : Node, n.declares?.isSome = false → n.resource? = none := by
    intro n hn
    cases n with
    | resourceDecl x => exact nomatch hn
    | _ => rfl
  rw [m.resources_eq, hm, ← h.filter_declares, List.filterMap_filter]
  refine List.filterMap_congr fun n _ => ?_
  cases hn : n.declares?.isSome with
  | true => rfl
  | false => exact hdeclares n hn

variable {maker : Nat} {m : Model}

/-- An entry stands for the last declaration of its name. -/
theorem Built.symbolOf_listed (hb : Built d maker m) (h : Sound doc [] d) {r : Resource}
    (hr : .resourceDecl r ∈ d.declarations) {item : Item} (hitem : item ∈ r.listed)
    {name : String} (hname : References name item) :
    m.symbolOf item.value = latest? (d.latestFirst maker) (some name) := by
  obtain ⟨v, hv, hnamed⟩ := hname
  have hmem := Resource.entryValue_mem_preorder h.complete (mem_program hr) hitem hv
  have hdeclares : v.declares? = none := by
    cases v with
    | variableAccess x => rfl
    | _ => exact nomatch hnamed
  rw [← hb.program] at hmem
  rw [hv, hb.other v hmem hdeclares, hnamed]
  rfl

/-- Below what is below an entered declaration nothing is declared. -/
theorem EnteredAs.bare {e : Entered × List Made} {n : Node} (h : EnteredAs e n) {p v : Node}
    (hp : p ∈ n.preorder) (hv : v ∈ p.children) : ∀ k ∈ v.preorder, k.Bare := by
  intro k hk
  have hkn : k ∈ n.preorder :=
    Node.mem_preorder_trans n (Node.mem_preorder_of_child hp hv) hk
  rcases Node.mem_preorder_iff.mp hkn with rfl | ⟨c, hc, hkc⟩
  · exact absurd (Node.mem_preorder_trans v hk hp) (Node.not_mem_preorder_of_child hv)
  · exact h.below c hc k hkc

private theorem records_eq {source : Symbol} {body : Object} {values : List Node}
    (h : (body.searched true).map Property.value = values.map some) :
    ReferenceScan.records m true source body =
      values.flatMap fun v => v.preorder.filterMap (ReferenceScan.record m source) := by
  have hrecords : ReferenceScan.records m true source body =
      ((body.searched true).map Property.value).flatMap fun value =>
        (value.elim [] Node.preorder).filterMap (ReferenceScan.record m source) := by
    rw [List.flatMap_map]
    rfl
  rw [hrecords, h, List.flatMap_map]
  rfl

/-- A scan finds in an entered resource what the expressions used in it refer to. -/
theorem Built.records_targets (hb : Built d maker m) {r : Resource} {e : Entered × List Made}
    (hr : .resourceDecl r ∈ d.declarations) (he : EnteredAs e (.resourceDecl r)) {body : Object}
    (hbody : HasBody r.value body) (source : Symbol) :
    ((ReferenceScan.records m true source body).map Dependency.target).Perm
      ((e.2.flatMap fun x => x.expression.mentions).filterMap
        (refer (d.latestFirst maker) source)) := by
  obtain ⟨properties, dependsOn, hresource, _, hnodes⟩ := he.declares.resourceOf
  obtain ⟨values, hvalues, hmentions⟩ := hresource.searched hbody
  have hplace : ∀ v ∈ values, ∃ p, .property p ∈ (Node.resourceDecl r).preorder ∧
      v ∈ (Node.property p).children := by
    intro v hv
    have hmem : some v ∈ (body.searched true).map Property.value := by
      rw [hvalues]
      exact List.mem_map.mpr ⟨v, hv, rfl⟩
    obtain ⟨p, hp, hpv⟩ := List.mem_map.mp hmem
    refine ⟨p, ?_, Node.mem_children_property hpv⟩
    exact Node.mem_preorder_of_child (Resource.body_mem_preorder (Node.mem_preorder_self _) hbody)
      (Node.property_mem_children (Object.mem_searched_iff.mp hp).1)
  rw [records_eq hvalues, hb.targets source]
  · refine List.Perm.filterMap _ (hmentions.trans ?_)
    rw [← hnodes]
    exact he.mentions
  · intro v hv
    obtain ⟨p, hp, hchild⟩ := hplace v hv
    rw [hb.program]
    exact Node.mem_preorder_trans _ (mem_program hr) (Node.mem_preorder_of_child hp hchild)
  · intro v hv
    obtain ⟨p, hp, hchild⟩ := hplace v hv
    exact he.bare hp hchild

end Draft

end InfraLint
