import InfraLint.Proofs.Entering

/-!
Drafts made by calls. Expressions are made at any time before they are used, each is used at one
place, and declarations are entered one after another. Invariant: all nodes that a draft has made
are in its declarations or in expressions that wait to be used, each once; its references are the
bare references among them; and each declaration is what its call has entered.
-/
namespace InfraLint

structure Made where
  expression : Expression
  node : Node

namespace Draft

/-- The draft can be made by calls that enter the declarations of `doc` in this order, each of
them with the expressions used in it, while `loose` are the expressions not yet used. -/
inductive Drafted (maker : Nat) : List (Entered × List Made) → List Made → Draft → Prop
  | start : Drafted maker [] [] (Draft.start maker)
  | make {doc : List (Entered × List Made)} {loose : List Made} {d d' : Draft}
      (h : Drafted maker doc loose d) (x : Expression) (n : Node) (hn : Yields x.make d n d') :
      Drafted maker doc (loose ++ [⟨x, n⟩]) d'
  | enter {doc : List (Entered × List Made)} {loose : List Made} {d d' : Draft}
      (h : Drafted maker doc loose d) (x : Entered) (used rest : List Made) (n : Node)
      (hx : x.Placeable) (hloose : loose.Perm (used ++ rest))
      (hused : used.map Made.node = x.nodes) (hn : Yields x.declare d n d') :
      Drafted maker (doc ++ [(x, used)]) rest d'

section Drafted

variable {maker : Nat} {doc : List (Entered × List Made)} {loose : List Made} {d : Draft}

/-- Every expression that can be written can be made. -/
theorem Drafted.exists_make (h : Drafted maker doc loose d) {x : Expression} (hx : x.Placeable) :
    ∃ n d', Yields x.make d n d' ∧ Drafted maker doc (loose ++ [⟨x, n⟩]) d' := by
  obtain ⟨n, d', _, hyields, _⟩ := make_grows hx d
  exact ⟨n, d', hyields, h.make x n hyields⟩

/-- Every call with values that nodes can be made of enters a declaration. -/
theorem Drafted.exists_enter (h : Drafted maker doc loose d) {x : Entered} {used rest : List Made}
    (hx : x.Placeable) (hloose : loose.Perm (used ++ rest))
    (hused : used.map Made.node = x.nodes) :
    ∃ n d', Yields x.declare d n d' ∧ Drafted maker (doc ++ [(x, used)]) rest d' := by
  obtain ⟨n, d', _, hyields, _⟩ := declare_grows x hx d
  exact ⟨n, d'.entered n, hyields, h.enter x used rest n hx hloose hused hyields⟩

end Drafted

/-- All nodes in the declarations of a draft and in some further expressions. -/
def allNodes (d : Draft) (loose : List Made) : List Node :=
  (d.declarations ++ loose.map Made.node).flatMap Node.preorder

/-- The node is what the call enters, with nothing below it that is declared, and what is written
in it mentions what the used expressions mention. -/
structure EnteredAs (e : Entered × List Made) (n : Node) : Prop where
  declares : Declares e.1 n
  below : ∀ c ∈ n.children, ∀ k ∈ c.preorder, k.Bare
  mentions : (Node.mentions e.1.nodes).Perm (e.2.flatMap fun x => x.expression.mentions)

structure Sound (doc : List (Entered × List Made)) (loose : List Made) (d : Draft) : Prop where
  ids : ((d.allNodes loose).map Node.id).Perm ((List.range d.issued).map (Identity.mk d.maker))
  references : d.references.Perm ((d.allNodes loose).filterMap Node.reference?)
  declarations : List.Forall₂ EnteredAs doc d.declarations
  bare : ∀ x ∈ loose, ∀ k ∈ x.node.preorder, k.Bare
  mentions : ∀ x ∈ loose, (Node.mentions [x.node]).Perm x.expression.mentions
  symbols : d.symbols = []
  undeclared : d.undeclared = []

theorem sound_start (maker : Nat) : Sound [] [] (Draft.start maker) where
  ids := List.Perm.refl _
  references := List.Perm.refl _
  declarations := .nil
  bare := by simp
  mentions := by simp
  symbols := rfl
  undeclared := rfl

variable {doc : List (Entered × List Made)} {loose : List Made} {d d' : Draft}

/-- Where parts of a draft grow, all its nodes are the old ones and the fresh ones. -/
private theorem Grows.all_perm {parts whole fresh : List Node} (h : Grows d d' parts whole fresh)
    {all all' : List Node} (others : List Node)
    (hall : all.Perm (others ++ parts.flatMap Node.preorder))
    (hall' : all'.Perm (others ++ whole.flatMap Node.preorder)) : all'.Perm (all ++ fresh) := by
  refine hall'.trans ((h.nodes.append_left others).trans ?_)
  rw [← List.append_assoc]
  exact (hall.append_right fresh).symm

private theorem Grows.all_ids {parts whole fresh : List Node} (h : Grows d d' parts whole fresh)
    {all all' : List Node} (hall : all'.Perm (all ++ fresh))
    (hids : (all.map Node.id).Perm ((List.range d.issued).map (Identity.mk d.maker))) :
    (all'.map Node.id).Perm ((List.range d'.issued).map (Identity.mk d'.maker)) := by
  rw [h.issued, h.maker, List.range_eq_range', ← List.range'_append_1, List.map_append,
    Nat.zero_add, ← List.range_eq_range']
  refine (hall.map Node.id).trans ?_
  rw [List.map_append]
  exact hids.append h.ids

private theorem Grows.all_references {parts whole fresh : List Node}
    (h : Grows d d' parts whole fresh) {all all' : List Node} (hall : all'.Perm (all ++ fresh))
    (hreferences : d.references.Perm (all.filterMap Node.reference?)) :
    d'.references.Perm (all'.filterMap Node.reference?) := by
  refine (h.references.trans (hreferences.append_right _)).trans ?_
  rw [← List.filterMap_append]
  exact (hall.filterMap Node.reference?).symm

theorem Sound.make (h : Sound doc loose d) {x : Expression} {n : Node}
    (hn : Yields x.make d n d') : Sound doc (loose ++ [⟨x, n⟩]) d' := by
  obtain ⟨n', d'', fresh, hyields, hgrows, hbare, hmentions⟩ :=
    make_grows hn.placeable d
  obtain ⟨rfl, rfl⟩ := hn.unique hyields
  have hall : (d'.allNodes (loose ++ [⟨x, n⟩])).Perm (d.allNodes loose ++ fresh) := by
    refine hgrows.all_perm (d.allNodes loose) ?_ ?_
    · rw [List.flatMap_nil, List.append_nil]
    · rw [allNodes, allNodes, hgrows.declarations, List.map_append, ← List.append_assoc,
        List.flatMap_append, List.map_singleton]
  have hpreorder : n.preorder.Perm fresh := by
    have hnodes := hgrows.nodes
    rw [List.flatMap_singleton] at hnodes
    exact hnodes
  refine ⟨hgrows.all_ids hall h.ids, hgrows.all_references hall h.references, ?_, ?_, ?_,
    hgrows.symbols.trans h.symbols, hgrows.undeclared.trans h.undeclared⟩
  · rw [hgrows.declarations]
    exact h.declarations
  · intro y hy k hk
    rcases List.mem_append.mp hy with hy | hy
    · exact h.bare y hy k hk
    · obtain rfl := List.mem_singleton.mp hy
      exact hbare k (hpreorder.mem_iff.mp hk)
  · intro y hy
    rcases List.mem_append.mp hy with hy | hy
    · exact h.mentions y hy
    · obtain rfl := List.mem_singleton.mp hy
      rw [← hmentions, Node.mentions, List.flatMap_singleton]
      exact hpreorder.filterMap Node.mention?

private theorem mentions_used (used : List Made)
    (h : ∀ x ∈ used, (Node.mentions [x.node]).Perm x.expression.mentions) :
    (Node.mentions (used.map Made.node)).Perm (used.flatMap fun x => x.expression.mentions) := by
  induction used with
  | nil => exact List.Perm.refl _
  | cons x rest ih =>
    rw [List.map_cons, ← List.singleton_append, Node.mentions_append, List.flatMap_cons]
    exact (h x List.mem_cons_self).append (ih fun y hy => h y (List.mem_cons_of_mem x hy))

theorem Sound.enter (h : Sound doc loose d) {x : Entered} {used rest : List Made} {n : Node}
    (hx : x.Placeable) (hloose : loose.Perm (used ++ rest)) (hused : used.map Made.node = x.nodes)
    (hn : Yields x.declare d n d') : Sound (doc ++ [(x, used)]) rest d' := by
  obtain ⟨n', d₁, fresh, hyields, hgrows, hfresh, hdeclares⟩ := declare_grows x hx d
  obtain ⟨rfl, rfl⟩ := hn.unique hyields
  have hmem : ∀ y ∈ used, y ∈ loose := fun y hy =>
    hloose.mem_iff.mpr (List.mem_append_left rest hy)
  have hmem' : ∀ y ∈ rest, y ∈ loose := fun y hy =>
    hloose.mem_iff.mpr (List.mem_append_right used hy)
  have hall : ((d₁.entered n).allNodes rest).Perm (d.allNodes loose ++ fresh) := by
    refine hgrows.all_perm
      ((d.declarations ++ rest.map Made.node).flatMap Node.preorder) ?_ ?_
    · rw [allNodes, ← List.flatMap_append, ← hused, List.append_assoc]
      refine List.Perm.flatMap_right _ (List.Perm.append_left _ ?_)
      rw [← List.map_append]
      exact (hloose.trans List.perm_append_comm).map Made.node
    · rw [allNodes, ← List.flatMap_append]
      refine List.Perm.flatMap_right _ ?_
      show ((d₁.declarations ++ [n]) ++ rest.map Made.node).Perm _
      rw [hgrows.declarations, List.append_assoc, List.append_assoc]
      exact List.Perm.append_left _ List.perm_append_comm
  have hbelow : ∀ c ∈ n.children, ∀ k ∈ c.preorder, k.Bare := by
    intro c hc k hk
    have hkn : k ∈ [n].flatMap Node.preorder := by
      rw [List.flatMap_singleton]
      exact Node.mem_preorder_trans n (Node.child_mem_preorder hc) hk
    rcases List.mem_append.mp (hgrows.nodes.mem_iff.mp hkn) with hpart | hnew
    · rw [← hused] at hpart
      obtain ⟨_, hnode, hky⟩ := List.mem_flatMap.mp hpart
      obtain ⟨y, hy, rfl⟩ := List.mem_map.mp hnode
      exact h.bare y (hmem y hy) k hky
    · rcases hfresh k hnew with hbare | rfl
      · exact hbare
      · exact absurd hk (Node.not_mem_preorder_of_child hc)
  have hmentions : (Node.mentions x.nodes).Perm (used.flatMap fun y => y.expression.mentions) := by
    rw [← hused]
    exact mentions_used used fun y hy => h.mentions y (hmem y hy)
  refine ⟨hgrows.all_ids hall h.ids, hgrows.all_references hall h.references, ?_, ?_, ?_,
    hgrows.symbols.trans h.symbols, hgrows.undeclared.trans h.undeclared⟩
  · show List.Forall₂ EnteredAs _ (d₁.declarations ++ [n])
    rw [hgrows.declarations]
    exact List.rel_append h.declarations (.cons ⟨hdeclares, hbelow, hmentions⟩ .nil)
  · exact fun y hy => h.bare y (hmem' y hy)
  · exact fun y hy => h.mentions y (hmem' y hy)

theorem Drafted.sound {maker : Nat} (h : Drafted maker doc loose d) : Sound doc loose d := by
  induction h with
  | start => exact sound_start maker
  | make _ x n hn ih => exact ih.make hn
  | enter _ x used rest n hx hloose hused hn ih => exact ih.enter hx hloose hused hn

end Draft

end InfraLint
