import InfraLint.Proofs.TreeResources

/-!
Spans in good order. The span of a node holds those of its children, the children do not overlap,
and the members of a list ascend; the lists of an object may interleave. So nodes of which
neither is below the other do not overlap. If, moreover, the children that hold resources ascend
at every node, then all resources of the tree do.
-/
namespace InfraLint

namespace Span

/-- The first span lies within the second. -/
def Within (a b : Span) : Prop := b.position ≤ a.position ∧ a.stop ≤ b.stop

/-- A character lies in both spans. -/
def Overlaps (a b : Span) : Prop := max a.position b.position < min a.stop b.stop

/-- The first span neither begins nor ends after the second. -/
def Precedes (a b : Span) : Prop := a.position ≤ b.position ∧ a.stop ≤ b.stop

instance (a b : Span) : Decidable (a.Within b) := inferInstanceAs (Decidable (_ ∧ _))

instance (a b : Span) : Decidable (a.Overlaps b) := inferInstanceAs (Decidable (_ < _))

instance (a b : Span) : Decidable (a.Precedes b) := inferInstanceAs (Decidable (_ ∧ _))

variable {a b x y : Span}

theorem overlaps_iff : a.Overlaps b ↔
    ∃ k, (a.position ≤ k ∧ k < a.stop) ∧ b.position ≤ k ∧ k < b.stop := by
  unfold Overlaps
  constructor
  · intro h
    exact ⟨max a.position b.position, by omega, by omega⟩
  · rintro ⟨k, ha, hb⟩
    omega

theorem Within.trans (hxa : x.Within a) (hab : a.Within b) : x.Within b :=
  ⟨hab.1.trans hxa.1, hxa.2.trans hab.2⟩

theorem Overlaps.symm (h : a.Overlaps b) : b.Overlaps a := by
  unfold Overlaps at h ⊢
  rwa [max_comm, min_comm]

/-- What lies in spans that do not overlap does not overlap. -/
theorem Overlaps.of_within (h : x.Overlaps y) (hx : x.Within a) (hy : y.Within b) :
    a.Overlaps b := by
  obtain ⟨k, ⟨hxk, hkx⟩, hyk, hky⟩ := overlaps_iff.mp h
  exact overlaps_iff.mpr ⟨k, ⟨hx.1.trans hxk, hkx.trans_le hx.2⟩, hy.1.trans hyk, hky.trans_le hy.2⟩

/-- Of two spans one after the other, what lies in the first begins no later. -/
theorem Precedes.position_le (h : a.Precedes b) (hno : ¬ a.Overlaps b) (hx : x.Within a)
    (hy : y.Within b) : x.position ≤ y.position := by
  have hstop : a.stop ≤ b.position := by
    unfold Precedes at h
    unfold Overlaps at hno
    omega
  calc
    x.position ≤ x.stop := Nat.le_add_right _ _
    _ ≤ a.stop := hx.2
    _ ≤ b.position := hstop
    _ ≤ y.position := hy.1

end Span

namespace Node

/-- The spans of a node and of its children are in good order. -/
structure SpansFit (n : Node) : Prop where
  within : ∀ c ∈ n.children, c.span.Within n.span
  apart : n.children.Pairwise fun c d => ¬ c.span.Overlaps d.span
  ascending : ∀ field ∈ n.fields,
    field.2.places.reduceOption.Pairwise fun c d => c.span.Precedes d.span

theorem spansFit_iff {n : Node} : n.SpansFit ↔
    (∀ c ∈ n.children, c.span.Within n.span) ∧
      (n.children.Pairwise fun c d => ¬ c.span.Overlaps d.span) ∧
      ∀ field ∈ n.fields,
        field.2.places.reduceOption.Pairwise fun c d => c.span.Precedes d.span :=
  ⟨fun h => ⟨h.within, h.apart, h.ascending⟩, fun h => ⟨h.1, h.2.1, h.2.2⟩⟩

instance (n : Node) : Decidable n.SpansFit := decidable_of_iff _ spansFit_iff.symm

/-- The spans are in good order at every node. -/
def WellSpanned (n : Node) : Prop := ∀ k ∈ n.preorder, k.SpansFit

instance (n : Node) : Decidable n.WellSpanned :=
  inferInstanceAs (Decidable (∀ k ∈ n.preorder, k.SpansFit))

namespace WellSpanned

variable {n : Node}

theorem below (h : n.WellSpanned) {k : Node} (hk : k ∈ n.preorder) : k.WellSpanned :=
  fun j hj => h j (mem_preorder_trans n hk hj)

theorem within_child (h : n.WellSpanned) {c : Node} (hc : c ∈ n.children) :
    c.span.Within n.span :=
  (h n (mem_preorder_self n)).within c hc

theorem within (h : n.WellSpanned) {k : Node} (hk : k ∈ n.preorder) : k.span.Within n.span := by
  induction n using children_induction with
  | step n ih =>
    rcases mem_preorder_iff.mp hk with rfl | ⟨c, hc, hkc⟩
    · exact ⟨le_rfl, le_rfl⟩
    · exact (ih c hc (h.below (child_mem_preorder hc)) hkc).trans (h.within_child hc)

private theorem apart_of_ne {c d : Node} {l : List Node}
    (h : l.Pairwise fun c d => ¬ c.span.Overlaps d.span) (hc : c ∈ l) (hd : d ∈ l)
    (hne : c ≠ d) : ¬ c.span.Overlaps d.span := by
  have hsymm : Std.Symm fun c d : Node => ¬ c.span.Overlaps d.span :=
    ⟨fun _ _ hno hdc => hno hdc.symm⟩
  exact h.forall hc hd hne

/-- Nodes of which neither is below the other do not overlap. -/
theorem apart (h : n.WellSpanned) {k j : Node} (hk : k ∈ n.preorder) (hj : j ∈ n.preorder)
    (hkj : k ∉ j.preorder) (hjk : j ∉ k.preorder) : ¬ k.span.Overlaps j.span := by
  induction n using children_induction with
  | step n ih =>
    rcases mem_preorder_iff.mp hk with rfl | ⟨c, hc, hkc⟩
    · exact absurd hj hjk
    rcases mem_preorder_iff.mp hj with rfl | ⟨d, hd, hjd⟩
    · exact absurd hk hkj
    by_cases hcd : c = d
    · subst hcd
      exact ih c hc (h.below (child_mem_preorder hc)) hkc hjd
    · -- The two nodes part ways at `n`, towards different children.
      have happart := apart_of_ne (h n (mem_preorder_self n)).apart hc hd hcd
      have hkc' := (h.below (child_mem_preorder hc)).within hkc
      have hjd' := (h.below (child_mem_preorder hd)).within hjd
      exact fun hoverlap => happart (hoverlap.of_within hkc' hjd')

end WellSpanned

/-- The children that hold resources ascend. -/
def Ascends (n : Node) : Prop :=
  n.children.Pairwise fun c d =>
    c.resourcesIn ≠ [] → d.resourcesIn ≠ [] → c.span.Precedes d.span

theorem span_within_of_mem_resourcesIn {n : Node} (h : n.WellSpanned) {x : Resource}
    (hx : x ∈ n.resourcesIn) : x.origin.span.Within n.span :=
  h.within (mem_resourcesIn_iff.mp hx)

/-- Where at every node the children that hold resources ascend, all resources do. -/
theorem WellSpanned.resources_ascend {n : Node} (h : n.WellSpanned)
    (hascends : ∀ k ∈ n.preorder, k.Ascends) :
    n.resourcesIn.Pairwise fun x y => x.origin.span.position ≤ y.origin.span.position := by
  induction n using children_induction with
  | step n ih =>
    have hbelow : ∀ c ∈ n.children, c.WellSpanned := fun c hc => h.below (child_mem_preorder hc)
    have hself : ∀ x ∈ n.resource?.toList, ∀ y ∈ n.children.flatMap resourcesIn,
        x.origin.span.position ≤ y.origin.span.position := by
      intro x hx y hy
      obtain ⟨c, hc, hyc⟩ := List.mem_flatMap.mp hy
      have hx' := resource?_eq_some_iff.mp (Option.mem_toList.mp hx)
      subst hx'
      exact ((span_within_of_mem_resourcesIn (hbelow c hc) hyc).trans (h.within_child hc)).1
    have hchildren : n.children.Pairwise fun c d => ∀ x ∈ c.resourcesIn, ∀ y ∈ d.resourcesIn,
        x.origin.span.position ≤ y.origin.span.position := by
      have hfit := h n (mem_preorder_self n)
      have hboth := hfit.apart.and (hascends n (mem_preorder_self n))
      refine hboth.imp_of_mem fun hc hd hcd x hx y hy => ?_
      have hprecedes := hcd.2 (List.ne_nil_of_mem hx) (List.ne_nil_of_mem hy)
      exact hprecedes.position_le hcd.1 (span_within_of_mem_resourcesIn (hbelow _ hc) hx)
        (span_within_of_mem_resourcesIn (hbelow _ hd) hy)
    rw [resourcesIn_eq_children, List.pairwise_append, List.pairwise_flatMap]
    refine ⟨?_, ⟨fun c hc => ih c hc (hbelow c hc) fun k hk => ?_, hchildren⟩, hself⟩
    · cases n.resource? with
      | none => exact List.Pairwise.nil
      | some x => exact List.pairwise_singleton _ x
    · exact hascends k (mem_preorder_trans n (child_mem_preorder hc) hk)

end Node

end InfraLint
