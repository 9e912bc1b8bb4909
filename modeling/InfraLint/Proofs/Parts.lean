import InfraLint.Proofs.BindingHistory
import InfraLint.Proofs.Ownership
import InfraLint.Proofs.TreeResources

/-!
Documents in parts. What an audit finds in a document it finds in its declarations one by one: all
that it asks on behalf of a declaration is about nodes of this declaration, however many of them
stand in other declarations too. Main statement: an audit of two lists of declarations one after
the other gives the findings of the first and after them those of the second, where each of the
two knows what its own nodes stand for and nothing else.
-/
namespace InfraLint

namespace Model

/-- The model of another document in which the nodes of that document stand for what they stand
for in `m`, and no other node stands for anything. -/
def restrict (m : Model) (p : Program) : Model where
  maker := m.maker
  program := .program p
  bindings := m.bindings.filter fun b => (Node.program p).walk.any fun n => n.id == b.node
  issued := m.issued

variable {m : Model} {p : Program}

theorem symbolOf_restrict {n : Node} (hn : n ∈ (Node.program p).preorder) :
    (m.restrict p).symbolOf (some n) = m.symbolOf (some n) := by
  have hheld : ((Node.program p).walk.any fun k => k.id == n.id) = true :=
    List.any_eq_true.mpr ⟨n, by rwa [Node.walk_eq_preorder], by simp⟩
  have hfind : (m.restrict p).bindings.find? (fun b => b.node == n.id) =
      m.bindings.find? fun b => b.node == n.id := by
    unfold restrict
    rw [List.find?_filter]
    congr 1
    funext b
    -- The filter keeps the bindings of this node, and no others are looked for.
    by_cases hb : b.node = n.id
    · simp [hb, hheld]
    · simp [hb]
  simp only [symbolOf, hfind]

theorem symbolOf_restrict_of_not_holds {n : Node} (hn : ¬ (Node.program p).Holds n) :
    (m.restrict p).symbolOf (some n) = none := by
  unfold symbolOf
  rw [Option.map_eq_none_iff, List.find?_eq_none]
  intro b hb hid
  have hheld := (List.mem_filter.mp hb).2
  rw [List.any_eq_true] at hheld
  obtain ⟨k, hk, hkb⟩ := hheld
  exact hn ⟨k, hk, (beq_iff_eq.mp hkb).trans (beq_iff_eq.mp hid)⟩

/-- Bindings of nodes of a document come about by calls. -/
theorem exists_calls_of_held (maker : Nat) (program : Node) (bindings : List Binding)
    (h : ∀ b ∈ bindings, ∃ n ∈ program.walk, n.id = b.node) :
    ∃ calls, ((start maker program).after calls).program = program ∧
      ((start maker program).after calls).bindings = bindings := by
  -- The latest binding stands first, so its call comes after those for the rest.
  induction bindings with
  | nil => exact ⟨[], rfl, rfl⟩
  | cons b rest ih =>
    obtain ⟨calls, hprogram, hbindings⟩ := ih fun b' hb' => h b' (List.mem_cons_of_mem b hb')
    obtain ⟨n, hn, hid⟩ := h b List.mem_cons_self
    have hholds : ((start maker program).after calls).program.Holds n := by
      rw [hprogram]
      exact ⟨n, hn, rfl⟩
    have hresult : ((start maker program).after calls).result (.bind (some n) b.symbol) =
        .ok (b.symbol, { (start maker program).after calls with
          bindings := ⟨n.id, b.symbol⟩ :: ((start maker program).after calls).bindings }) := by
      simp only [result, bind_of_holds hholds, Except.map]
    refine ⟨calls ++ [.bind (some n) b.symbol], ?_, ?_⟩
    · rw [after_append, next_of_ok hresult, hprogram]
    · rw [after_append, next_of_ok hresult, hbindings, hid]

/-- The restricted model answers as a model does that calls on the other document have made. -/
theorem exists_calls_restrict (m : Model) (p : Program) :
    ∃ calls, ∀ node, ((start m.maker (.program p)).after calls).symbolOf node =
      (m.restrict p).symbolOf node := by
  obtain ⟨calls, _, hbindings⟩ :=
    exists_calls_of_held m.maker (.program p) (m.restrict p).bindings fun b hb => by
      obtain ⟨n, hn, hid⟩ := List.any_eq_true.mp (List.mem_filter.mp hb).2
      exact ⟨n, hn, beq_iff_eq.mp hid⟩
  refine ⟨calls, fun node => ?_⟩
  cases node with
  | none => rfl
  | some n => simp only [symbolOf, hbindings]

end Model

/-- Completeness passes to documents made of some of the declarations. -/
theorem Node.Complete.of_declarations {p q : Program} (hq : (Node.program q).Complete)
    (h : p.declarations ⊆ q.declarations) : (Node.program p).Complete := by
  intro k hk
  rcases mem_preorder_iff.mp hk with rfl | ⟨d, hd, hkd⟩
  · trivial
  · rw [mem_children_iff, places_program] at hd
    refine hq k (mem_preorder_iff.mpr (Or.inr ⟨d, ?_, hkd⟩))
    rw [mem_children_iff, places_program]
    exact h hd

theorem Node.resourcesIn_program (p : Program) :
    (Node.program p).resourcesIn = p.declarations.flatMap resourcesAt := by
  rw [resourcesIn_eq, places_program]
  rfl

namespace Redundancy

/-- What an audit finds in one declaration. -/
def block (m : Model) (map : DependencyMap) (declaration : Option Node) : List Redundancy :=
  (Node.resourcesAt declaration).flatMap fun x => x.listed.filterMap (ofEntryOf m map x)

variable {m : Model} {map : DependencyMap} {p : Program}

theorem find_eq_blocks (hm : m.program = .program p) (hc : m.program.Complete) :
    find m map = .ok (p.declarations.flatMap (block m map)) := by
  rw [find_eq hc, m.resources_eq_resourcesIn, hm, Node.resourcesIn_program, List.flatMap_assoc]
  rfl

/-- An entry comes to the same in a part of the document that its resource is in. -/
theorem ofEntryOf_restrict (hc : (Node.program p).Complete) {x : Resource}
    (hx : .resourceDecl x ∈ (Node.program p).preorder) {item : Item} (hitem : item ∈ x.listed) :
    ofEntryOf (m.restrict p) map x item = ofEntryOf m map x item := by
  have hvalue : (m.restrict p).symbolOf item.value = m.symbolOf item.value := by
    cases hn : item.value with
    | none => rfl
    | some n => exact Model.symbolOf_restrict (Resource.entryValue_mem_preorder hc hx hitem hn)
  unfold ofEntryOf ofEntry
  rw [Model.symbolOf_restrict hx, hvalue]

theorem find_restrict (hc : (Node.program p).Complete) :
    find (m.restrict p) map = .ok (p.declarations.flatMap (block m map)) := by
  rw [find_eq_blocks (m := m.restrict p) rfl hc]
  refine congrArg Except.ok (List.flatMap_congr fun d hd => List.flatMap_congr fun x hx => ?_)
  have hx' : .resourceDecl x ∈ (Node.program p).preorder := by
    rw [← Node.mem_resourcesIn_iff, Node.resourcesIn_program]
    exact List.mem_flatMap.mpr ⟨d, hd, hx⟩
  exact List.filterMap_congr fun item hitem => ofEntryOf_restrict hc hx' hitem

/-- An audit of two lists of declarations finds what audits of each of them find, the findings of
the first list before those of the second. The findings of a declaration are in one block, and
with the declarations in another order the blocks are in that order. -/
theorem find_in_parts (m : Model) (map : DependencyMap) (o : Origin)
    (first second : List (Option Node)) (hm : m.program = .program ⟨o, first ++ second⟩)
    (hc : m.program.Complete) :
    (∀ o₁ o₂, ∃ found₁ found₂, find (m.restrict ⟨o₁, first⟩) map = .ok found₁ ∧
      find (m.restrict ⟨o₂, second⟩) map = .ok found₂ ∧ find m map = .ok (found₁ ++ found₂)) ∧
    ∃ block : Option Node → List Redundancy,
      (∀ d ∈ first ++ second, ∀ o', find (m.restrict ⟨o', [d]⟩) map = .ok (block d)) ∧
      find m map = .ok ((first ++ second).flatMap block) ∧
      ∀ declarations, declarations.Perm (first ++ second) →
        ∀ o', find (m.restrict ⟨o', declarations⟩) map = .ok (declarations.flatMap block) := by
  have hall : find m map = .ok ((first ++ second).flatMap (block m map)) := find_eq_blocks hm hc
  have hparts : ∀ q : Program, q.declarations ⊆ first ++ second →
      find (m.restrict q) map = .ok (q.declarations.flatMap (block m map)) := by
    intro q hq
    rw [hm] at hc
    exact find_restrict (hc.of_declarations hq)
  refine ⟨fun o₁ o₂ => ?_, block m map, fun d hd o' => ?_, hall, fun declarations hperm o' => ?_⟩
  · refine ⟨_, _, hparts ⟨o₁, first⟩ (List.subset_append_left _ _),
      hparts ⟨o₂, second⟩ (List.subset_append_right _ _), ?_⟩
    rw [hall, List.flatMap_append]
  · rw [hparts ⟨o', [d]⟩ (by simpa using hd), List.flatMap_singleton]
  · exact hparts ⟨o', declarations⟩ hperm.subset

/-! A document in which one resource is declared in both parts. -/
namespace Sample

def firstPart : List (Option Node) := [some (.resourceDecl web)]

def secondPart : List (Option Node) := [some (.resourceDecl store), some (.resourceDecl web)]

def repeating : Model := { model with program := .program ⟨originAt 0, firstPart ++ secondPart⟩ }

end Sample

open Sample in
theorem find_in_parts_sample :
    repeating.program = .program ⟨originAt 0, firstPart ++ secondPart⟩ ∧
      repeating.program.Complete ∧
      (find repeating inferred).map entryIds = .ok [⟨0, 30⟩, ⟨0, 33⟩, ⟨0, 30⟩, ⟨0, 33⟩] ∧
      (∃ found₁ found₂, find (repeating.restrict ⟨originAt 0, firstPart⟩) inferred = .ok found₁ ∧
        find (repeating.restrict ⟨originAt 0, secondPart⟩) inferred = .ok found₂ ∧
        find repeating inferred = .ok (found₁ ++ found₂)) ∧
      (secondPart ++ firstPart).Perm (firstPart ++ secondPart) ∧
      ∃ block : Option Node → List Redundancy,
        (∀ d ∈ firstPart ++ secondPart, ∀ o,
          find (repeating.restrict ⟨o, [d]⟩) inferred = .ok (block d)) ∧
        find repeating inferred = .ok ((firstPart ++ secondPart).flatMap block) ∧
        find (repeating.restrict ⟨originAt 0, secondPart ++ firstPart⟩) inferred =
          .ok ((secondPart ++ firstPart).flatMap block) := by
  have hc : repeating.program.Complete := by decide +kernel
  have hperm : (secondPart ++ firstPart).Perm (firstPart ++ secondPart) := List.perm_append_comm
  obtain ⟨hparts, block, hblock, hall, hblocks⟩ :=
    find_in_parts repeating inferred (originAt 0) firstPart secondPart rfl hc
  exact ⟨rfl, hc, by decide +kernel, hparts (originAt 0) (originAt 0), hperm, block, hblock, hall,
    hblocks _ hperm (originAt 0)⟩

end Redundancy

end InfraLint
