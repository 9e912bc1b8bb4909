import Mathlib.Data.List.Forall2
import Mathlib.Data.List.Pairwise
import Mathlib.Data.Prod.Lex

/-!
Lists that go through rows and through the columns of each row. Such a list has one member for
each place, a row and a column, at which there is something to list, and the members come in the
order of the rows and, within a row, of the columns.
-/
namespace InfraLint

variable {α β γ : Type}

/-- The members of `found` are what `R` relates to places, once for each place that it relates to
anything, in the order of the places. -/
def ListsInOrder (R : Nat × Nat → γ → Prop) (found : List γ) : Prop :=
  ∃ places : List (Nat × Nat), places.Pairwise (Prod.Lex (· < ·) (· < ·)) ∧
    (∀ p, p ∈ places ↔ ∃ c, R p c) ∧ List.Forall₂ R places found

/-- Related lists have related members at each place that the first of them has. -/
theorem forall₂_getElem?_left {R : α → β → Prop} {xs : List α} {ys : List β}
    (h : List.Forall₂ R xs ys) {i : Nat} {a : α} (ha : xs[i]? = some a) :
    ∃ b, ys[i]? = some b ∧ R a b := by
  induction h generalizing i with
  | nil => exact nomatch ha
  | cons hab _ ih =>
    cases i with
    | zero =>
      rw [← Option.some.inj ha]
      exact ⟨_, rfl, hab⟩
    | succ i => exact ih ha

theorem forall₂_getElem?_right {R : α → β → Prop} {xs : List α} {ys : List β}
    (h : List.Forall₂ R xs ys) {i : Nat} {b : β} (hb : ys[i]? = some b) :
    ∃ a, xs[i]? = some a ∧ R a b :=
  forall₂_getElem?_left h.flip hb

theorem forall₂_left {R : α → β → Prop} {xs : List α} {ys : List β} (h : List.Forall₂ R xs ys)
    {a : α} (ha : a ∈ xs) : ∃ b ∈ ys, R a b := by
  obtain ⟨i, hi⟩ := List.getElem?_of_mem ha
  obtain ⟨b, hb, hab⟩ := forall₂_getElem?_left h hi
  exact ⟨b, List.mem_of_getElem? hb, hab⟩

theorem forall₂_right {R : α → β → Prop} {xs : List α} {ys : List β} (h : List.Forall₂ R xs ys)
    {b : β} (hb : b ∈ ys) : ∃ a ∈ xs, R a b :=
  forall₂_left h.flip hb

/-- Of the members of a kind there is a last one. -/
theorem exists_last {P : α → Prop} {l : List α} (h : ∃ a ∈ l, P a) :
    ∃ before a after, l = before ++ a :: after ∧ P a ∧ ∀ b ∈ after, ¬ P b := by
  induction l with
  | nil =>
    obtain ⟨a, ha, _⟩ := h
    exact absurd ha List.not_mem_nil
  | cons x rest ih =>
    by_cases hrest : ∃ a ∈ rest, P a
    · obtain ⟨before, a, after, rfl, ha, hafter⟩ := ih hrest
      exact ⟨x :: before, a, after, rfl, ha, hafter⟩
    · obtain ⟨a, ha, hPa⟩ := h
      rcases List.mem_cons.mp ha with rfl | ha
      · exact ⟨[], a, rest, rfl, hPa, fun b hb hPb => hrest ⟨b, hb, hPb⟩⟩
      · exact absurd ⟨a, ha, hPa⟩ hrest

theorem find?_reverse_of_last {p : α → Bool} {before after : List α} {a : α} (ha : p a = true)
    (hafter : ∀ b ∈ after, ¬ p b = true) :
    (before ++ a :: after).reverse.find? p = some a := by
  have hnone : after.reverse.find? p = none :=
    List.find?_eq_none.mpr fun b hb => hafter b (List.mem_reverse.mp hb)
  rw [List.reverse_append, List.reverse_cons, List.append_assoc, List.find?_append, hnone,
    Option.none_or, List.singleton_append, List.find?_cons_of_pos ha]

/-- A search from the end finds the last member that it looks for. -/
theorem find?_reverse_eq_some_iff {p : α → Bool} {l : List α} {a : α} :
    l.reverse.find? p = some a ↔
      ∃ k, l[k]? = some a ∧ p a ∧ ∀ (i : Nat) (b : α), k < i → l[i]? = some b → ¬ p b := by
  rw [List.find?_eq_some_iff_append]
  constructor
  · intro h
    obtain ⟨ha, later, earlier, heq, hlater⟩ := h
    have hsplit : l = earlier.reverse ++ a :: later.reverse := by
      rw [← List.reverse_reverse l, heq]
      simp
    refine ⟨earlier.reverse.length, ?_, ha, ?_⟩
    · rw [hsplit, List.getElem?_append_right le_rfl, Nat.sub_self]
      rfl
    · intro i b hi hb
      rw [hsplit, List.getElem?_append_right hi.le, List.getElem?_cons, if_neg (by omega)] at hb
      have hmem : b ∈ later := List.mem_reverse.mp (List.mem_of_getElem? hb)
      simpa using hlater b hmem
  · intro h
    obtain ⟨k, hk, ha, hlast⟩ := h
    obtain ⟨hlt, rfl⟩ := List.getElem?_eq_some_iff.mp hk
    refine ⟨ha, (l.drop (k + 1)).reverse, (l.take k).reverse, ?_, ?_⟩
    · conv_lhs => rw [← List.take_append_drop k l, List.drop_eq_getElem_cons hlt]
      simp
    · intro b hb
      obtain ⟨i, hi⟩ := List.getElem?_of_mem (List.mem_reverse.mp hb)
      rw [List.getElem?_drop] at hi
      simpa using hlast (k + 1 + i) b (by omega) hi

namespace ListsInOrder

theorem imp {R S : Nat × Nat → γ → Prop} {found : List γ} (h : ListsInOrder R found)
    (hRS : ∀ p c, R p c ↔ S p c) : ListsInOrder S found := by
  have heq : R = S := funext fun p => funext fun c => propext (hRS p c)
  rw [← heq]
  exact h

private theorem flatMap_zipIdx_fst (f : α → List β) (xs : List α) :
    (xs.zipIdx.flatMap fun e => f e.1) = xs.flatMap f := by
  conv_rhs => rw [← List.zipIdx_map_fst 0 xs]
  rw [List.flatMap_map]

private theorem filterMap_zipIdx_fst (f : α → Option β) (xs : List α) :
    (xs.zipIdx.filterMap fun e => f e.1) = xs.filterMap f := by
  conv_rhs => rw [← List.zipIdx_map_fst 0 xs]
  rw [List.filterMap_map]
  rfl

private theorem pairwise_zipIdx (xs : List α) :
    xs.zipIdx.Pairwise fun e e' => e.2 < e'.2 := by
  have h : (xs.zipIdx.map Prod.snd).Pairwise (· < ·) := by
    rw [List.zipIdx_map_snd]
    exact List.pairwise_lt_range'
  exact List.pairwise_map.mp h

/-- Rows `xs` with columns `columns`, and what `pick` finds there, with each find's place. -/
private def placed (columns : α → List β) (pick : α → β → Option γ) (xs : List α) :
    List ((Nat × Nat) × γ) :=
  xs.zipIdx.flatMap fun row => (columns row.1).zipIdx.filterMap fun column =>
    (pick row.1 column.1).map fun c => ((row.2, column.2), c)

variable {columns : α → List β} {pick : α → β → Option γ} {xs : List α}

private theorem mem_placed {p : Nat × Nat} {c : γ} :
    (p, c) ∈ placed columns pick xs ↔
      ∃ a b, xs[p.1]? = some a ∧ (columns a)[p.2]? = some b ∧ pick a b = some c := by
  obtain ⟨k, i⟩ := p
  simp only [placed, List.mem_flatMap, List.mem_filterMap, Option.map_eq_some_iff, Prod.exists,
    List.mem_zipIdx_iff_getElem?, Prod.mk.injEq]
  constructor
  · intro h
    obtain ⟨a, _, ha, b, _, hb, c', hc, ⟨rfl, rfl⟩, rfl⟩ := h
    exact ⟨a, b, ha, hb, hc⟩
  · intro h
    obtain ⟨a, b, ha, hb, hc⟩ := h
    exact ⟨a, k, ha, b, i, hb, c, hc, ⟨rfl, rfl⟩, rfl⟩

private theorem map_snd_placed :
    (placed columns pick xs).map Prod.snd = xs.flatMap fun a => (columns a).filterMap (pick a) := by
  unfold placed
  rw [List.map_flatMap, ← flatMap_zipIdx_fst (fun a => (columns a).filterMap (pick a)) xs]
  refine List.flatMap_congr fun row _ => ?_
  rw [List.map_filterMap, ← filterMap_zipIdx_fst (pick row.1) (columns row.1)]
  refine List.filterMap_congr fun column _ => ?_
  rw [Option.map_map]
  exact Option.map_id_apply

private theorem pairwise_placed :
    ((placed columns pick xs).map Prod.fst).Pairwise (Prod.Lex (· < ·) (· < ·)) := by
  rw [List.pairwise_map]
  unfold placed
  rw [List.pairwise_flatMap]
  constructor
  · intro row _
    refine List.Pairwise.filterMap _ ?_ (pairwise_zipIdx _)
    intro column column' hlt e he e' he'
    obtain ⟨_, _, rfl⟩ := Option.map_eq_some_iff.mp he
    obtain ⟨_, _, rfl⟩ := Option.map_eq_some_iff.mp he'
    exact Prod.Lex.right _ hlt
  · refine (pairwise_zipIdx xs).imp ?_
    intro row row' hlt e he e' he'
    obtain ⟨_, _, hc⟩ := List.mem_filterMap.mp he
    obtain ⟨_, _, hc'⟩ := List.mem_filterMap.mp he'
    obtain ⟨_, _, rfl⟩ := Option.map_eq_some_iff.mp hc
    obtain ⟨_, _, rfl⟩ := Option.map_eq_some_iff.mp hc'
    exact Prod.Lex.left _ _ hlt

/-- Going through rows and columns and picking what is to be picked lists it in order. -/
theorem flatMap_filterMap (columns : α → List β) (pick : α → β → Option γ) (xs : List α) :
    ListsInOrder
      (fun p c => ∃ a b, xs[p.1]? = some a ∧ (columns a)[p.2]? = some b ∧ pick a b = some c)
      (xs.flatMap fun a => (columns a).filterMap (pick a)) := by
  refine ⟨(placed columns pick xs).map Prod.fst, pairwise_placed, ?_, ?_⟩
  · intro p
    simp only [List.mem_map, Prod.exists, exists_and_right, exists_eq_right, mem_placed]
  · rw [← map_snd_placed, List.forall₂_map_left_iff, List.forall₂_map_right_iff, List.forall₂_same]
    exact fun e he => mem_placed.mp he

end ListsInOrder

end InfraLint
