import InfraLint.Syntax.Traversal
import Mathlib.Data.List.Nodup
import Mathlib.Data.List.Pairwise
import Mathlib.Data.List.Perm.Basic

/-!
Nodes below a node, and trees in which each node has one place. A node is below another one if
it is in its preorder. All nodes but the root are children, each of them once for every place of
its parent; if no node has two places, then a node determines its parent, and whatever holds a
node without being it also holds its parent.
-/
namespace InfraLint.Node

theorem mem_preorder_iff {k n : Node} :
    k ∈ n.preorder ↔ k = n ∨ ∃ c ∈ n.children, k ∈ c.preorder := by
  rw [preorder_eq, List.mem_cons, List.mem_flatMap]

theorem child_mem_preorder {c n : Node} (h : c ∈ n.children) : c ∈ n.preorder :=
  mem_preorder_iff.mpr (Or.inr ⟨c, h, mem_preorder_self c⟩)

theorem mem_preorder_trans {k j : Node} (n : Node) (hk : k ∈ n.preorder) (hj : j ∈ k.preorder) :
    j ∈ n.preorder := by
  induction n using children_induction with
  | step n ih =>
    rcases mem_preorder_iff.mp hk with rfl | ⟨c, hc, hkc⟩
    · exact hj
    · exact mem_preorder_iff.mpr (Or.inr ⟨c, hc, ih c hc hkc⟩)

theorem mem_preorder_of_child {c p n : Node} (hp : p ∈ n.preorder) (hc : c ∈ p.children) :
    c ∈ n.preorder :=
  mem_preorder_trans n hp (child_mem_preorder hc)

/-- What is below a node without being it has a parent below the node. -/
theorem exists_parent {k n : Node} (hk : k ∈ n.preorder) (hne : k ≠ n) :
    ∃ p ∈ n.preorder, k ∈ p.children := by
  induction n using children_induction with
  | step n ih =>
    rcases mem_preorder_iff.mp hk with rfl | ⟨c, hc, hkc⟩
    · exact absurd rfl hne
    · by_cases hkeq : k = c
      · subst hkeq
        exact ⟨n, mem_preorder_self n, hc⟩
      · obtain ⟨p, hp, hkp⟩ := ih c hc hkc hkeq
        exact ⟨p, mem_preorder_trans n (child_mem_preorder hc) hp, hkp⟩

theorem sizeOf_le_of_mem_preorder {k n : Node} (hk : k ∈ n.preorder) : sizeOf k ≤ sizeOf n := by
  induction n using children_induction with
  | step n ih =>
    rcases mem_preorder_iff.mp hk with rfl | ⟨c, hc, hkc⟩
    · exact Nat.le_refl _
    · have hkc' := ih c hc hkc
      have hcn := sizeOf_child_lt hc
      omega

theorem not_mem_preorder_of_child {c p : Node} (hc : c ∈ p.children) : p ∉ c.preorder := by
  intro hp
  have h₁ := sizeOf_le_of_mem_preorder hp
  have h₂ := sizeOf_child_lt hc
  omega

/-- All places for nodes in a tree: its root's, and one for each child of each node. -/
theorem preorder_perm (n : Node) : n.preorder.Perm (n :: n.preorder.flatMap children) := by
  induction n using children_induction with
  | step n ih =>
    have hchildren : (n.children.flatMap preorder).Perm
        (n.children.flatMap fun c => c :: c.preorder.flatMap children) :=
      List.Perm.flatMap_left _ ih
    have hsplit := List.map_append_flatMap_perm n.children (fun c => c)
      fun c => c.preorder.flatMap children
    rw [List.map_id'] at hsplit
    rw [preorder_eq]
    refine List.Perm.cons n ?_
    rw [List.flatMap_cons, List.flatMap_assoc]
    exact hchildren.trans hsplit.symm

/-- No node has two places. -/
def Distinct (n : Node) : Prop := (n.preorder.map Node.id).Nodup

instance (n : Node) : Decidable n.Distinct :=
  inferInstanceAs (Decidable (n.preorder.map Node.id).Nodup)

namespace Distinct

variable {root : Node}

/-- Nodes of one identity are one node. -/
theorem eq_of_id (hd : root.Distinct) {k j : Node} (hk : k ∈ root.preorder)
    (hj : j ∈ root.preorder) (hid : k.id = j.id) : k = j :=
  List.inj_on_of_nodup_map hd hk hj hid

/-- All children in a tree, each of them once. -/
private theorem nodup_below (hd : root.Distinct) : (root.preorder.flatMap children).Nodup := by
  have hall : (root.preorder.map Node.id).Perm
      ((root :: root.preorder.flatMap children).map Node.id) :=
    (preorder_perm root).map Node.id
  have hnodup : ((root :: root.preorder.flatMap children).map Node.id).Nodup :=
    hall.nodup_iff.mp hd
  exact (List.nodup_cons.mp (List.Nodup.of_map Node.id hnodup)).2

theorem nodup_children (hd : root.Distinct) {n : Node} (hn : n ∈ root.preorder) :
    n.children.Nodup :=
  (List.nodup_flatMap.mp hd.nodup_below).1 n hn

/-- A node that is a child of two nodes makes them one. -/
theorem parent_eq (hd : root.Distinct) {c p q : Node} (hp : p ∈ root.preorder)
    (hq : q ∈ root.preorder) (hcp : c ∈ p.children) (hcq : c ∈ q.children) : p = q := by
  by_contra hne
  have hsymm : Std.Symm (Function.onFun List.Disjoint children) :=
    ⟨fun _ _ h _ ha hb => h hb ha⟩
  have hdisjoint : List.Disjoint p.children q.children :=
    (List.nodup_flatMap.mp hd.nodup_below).2.forall hp hq hne
  exact hdisjoint hcp hcq

/-- What holds a node without being it also holds its parent. -/
theorem parent_mem (hd : root.Distinct) {c p z : Node} (hp : p ∈ root.preorder)
    (hc : c ∈ p.children) (hz : z ∈ root.preorder) (hcz : c ∈ z.preorder) (hne : c ≠ z) :
    p ∈ z.preorder := by
  obtain ⟨q, hq, hcq⟩ := exists_parent hcz hne
  have hpq : p = q := hd.parent_eq hp (mem_preorder_trans root hz hq) hc hcq
  rw [hpq]
  exact hq

/-- What holds a node is the node, or it holds the parent of the node as well. -/
theorem eq_or_parent_mem (hd : root.Distinct) {c p z : Node} (hp : p ∈ root.preorder)
    (hc : c ∈ p.children) (hz : z ∈ root.preorder) (hcz : c ∈ z.preorder) :
    c = z ∨ p ∈ z.preorder := by
  by_cases hne : c = z
  · exact Or.inl hne
  · exact Or.inr (hd.parent_mem hp hc hz hcz hne)

/-- Of two nodes above one node one is above the other. -/
theorem comparable (hd : root.Distinct) {k z : Node} (n : Node) (hn : n ∈ root.preorder)
    (hz : z ∈ root.preorder) (hkn : k ∈ n.preorder) (hkz : k ∈ z.preorder) :
    n ∈ z.preorder ∨ z ∈ n.preorder := by
  induction n using children_induction with
  | step n ih =>
    rcases mem_preorder_iff.mp hkn with rfl | ⟨c, hc, hkc⟩
    · exact Or.inl hkz
    · rcases ih c hc (mem_preorder_of_child hn hc) hkc with hcz | hzc
      · rcases hd.eq_or_parent_mem hn hc hz hcz with rfl | hnz
        · exact Or.inr (child_mem_preorder hc)
        · exact Or.inl hnz
      · exact Or.inr (mem_preorder_trans n (child_mem_preorder hc) hzc)

end Distinct

end InfraLint.Node
