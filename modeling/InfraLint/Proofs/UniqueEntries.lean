import InfraLint.Proofs.Ownership
import InfraLint.Proofs.TreeResources

/-!
Entries of different findings. In a tree in which each node has one place an audit never reports
an entry twice, whatever its resources are bound to. Main statement: the entries of the findings
are different nodes, and each is listed by one resource of the document and no other.
-/
namespace InfraLint

namespace Resource

variable {root : Node} {x : Resource}

/-- The node of this identity is an entry in the resource's list of explicit dependencies. -/
def HasEntry (x : Resource) (id : Identity) : Prop := ∃ k i, x.Lists k i ∧ i.origin.id = id

theorem nodup_listed (hd : root.Distinct) (hc : root.Complete)
    (hx : .resourceDecl x ∈ root.preorder) : (x.listed.map fun i => i.origin.id).Nodup := by
  by_cases hlist : ∃ a, x.HasList a
  · obtain ⟨a, ha⟩ := hlist
    have hchildren := hd.nodup_children (array_mem_preorder hx ha)
    rw [children_of_hasList hc hx ha] at hchildren
    refine List.Nodup.map_on (fun i hi j hj hid => ?_) (List.Nodup.of_map _ hchildren)
    obtain ⟨k, hk⟩ := exists_lists hc hx hi
    obtain ⟨l, hl⟩ := exists_lists hc hx hj
    exact entry_eq_of_id hd hx hx hk hl hid
  · rw [listed_of_not_hasList hc hx fun a ha => hlist ⟨a, ha⟩]
    exact List.nodup_nil

end Resource

namespace Redundancy

variable {m : Model} {map : DependencyMap} {found : List Redundancy}

/-- A finding is about an entry of a resource and is all that the entry comes to. -/
theorem mem_found (hc : m.program.Complete) (hfound : find m map = .ok found) {r : Redundancy}
    (hr : r ∈ found) :
    ∃ x k, .resourceDecl x ∈ m.program.preorder ∧ x.Lists k r.entry ∧
      ofEntryOf m map x r.entry = some r := by
  rw [find_eq hc] at hfound
  rw [← Except.ok.inj hfound, List.mem_flatMap] at hr
  obtain ⟨x, hx, hr⟩ := hr
  obtain ⟨i, hi, hof⟩ := List.mem_filterMap.mp hr
  have hx' := Model.mem_resources_iff.mp hx
  obtain ⟨k, hk⟩ := Resource.exists_lists hc hx' hi
  obtain rfl := entry_of_ofEntryOf hof
  exact ⟨x, k, hx', hk, hof⟩

/-- What holds between the entries of one resource in their order, and between entries of
different resources, holds between the entries of the findings. -/
theorem pairwise_found (hd : m.program.Distinct) (hc : m.program.Complete)
    (hfound : find m map = .ok found) {R : Item → Item → Prop}
    (hlisted : ∀ x, .resourceDecl x ∈ m.program.preorder → x.listed.Pairwise R)
    (hbetween : ∀ x y k l i j, .resourceDecl x ∈ m.program.preorder →
      .resourceDecl y ∈ m.program.preorder → x ≠ y → x.Lists k i → y.Lists l j → R i j) :
    found.Pairwise fun r r' => R r.entry r'.entry := by
  rw [find_eq hc] at hfound
  obtain rfl := Except.ok.inj hfound
  rw [List.pairwise_flatMap]
  constructor
  · intro x hx
    refine (hlisted x (Model.mem_resources_iff.mp hx)).filterMap _ ?_
    intro i j hij r hr r' hr'
    obtain rfl := entry_of_ofEntryOf hr
    obtain rfl := entry_of_ofEntryOf hr'
    exact hij
  · -- No resource is met twice, so two blocks are those of different resources.
    refine (Model.nodup_resources hd).imp_of_mem fun {x y} hx hy hxy r hr r' hr' => ?_
    have hx' := Model.mem_resources_iff.mp hx
    have hy' := Model.mem_resources_iff.mp hy
    obtain ⟨i, hi, hri⟩ := List.mem_filterMap.mp hr
    obtain ⟨j, hj, hrj⟩ := List.mem_filterMap.mp hr'
    obtain ⟨k, hk⟩ := Resource.exists_lists hc hx' hi
    obtain ⟨l, hl⟩ := Resource.exists_lists hc hy' hj
    obtain rfl := entry_of_ofEntryOf hri
    obtain rfl := entry_of_ofEntryOf hrj
    exact hbetween x y k l _ _ hx' hy' hxy hk hl

theorem nodup_entryIds (hd : m.program.Distinct) (hc : m.program.Complete)
    (hfound : find m map = .ok found) : (entryIds found).Nodup := by
  unfold entryIds
  rw [List.Nodup, List.pairwise_map]
  refine pairwise_found (R := fun i j => i.origin.id ≠ j.origin.id) hd hc hfound ?_ ?_
  · intro x hx
    exact List.pairwise_map.mp (Resource.nodup_listed hd hc hx)
  · intro x y k l i j hx hy hxy hi hj hid
    obtain rfl := Resource.entry_eq_of_id hd hx hy hi hj hid
    exact hxy (Resource.eq_of_entry hd hx hy hi hj)

/-- An entry that is found belongs to one resource of the document. -/
theorem existsUnique_resource (hd : m.program.Distinct) (hc : m.program.Complete)
    (hfound : find m map = .ok found) {r : Redundancy} (hr : r ∈ found) :
    ∃! x, .resourceDecl x ∈ m.program.preorder ∧ x.HasEntry r.entry.origin.id := by
  obtain ⟨x, k, hx, hlists, _⟩ := mem_found hc hfound hr
  refine ⟨x, ⟨hx, k, r.entry, hlists, rfl⟩, ?_⟩
  rintro y ⟨hy, l, i, hi, hid⟩
  obtain rfl := Resource.entry_eq_of_id hd hy hx hi hlists hid
  exact Resource.eq_of_entry hd hy hx hi hlists

/-- In a document in which no node has two places no entry is reported twice, and each entry that
is reported is in the list of one resource only. -/
theorem find_reports_entries_once (m : Model) (map : DependencyMap) (hd : m.program.Distinct)
    (hc : m.program.Complete) :
    ∃ found, find m map = .ok found ∧ (entryIds found).Nodup ∧
      ∀ r ∈ found, ∃! x, .resourceDecl x ∈ m.program.preorder ∧
        x.HasEntry r.entry.origin.id :=
  ⟨_, find_eq hc, nodup_entryIds hd hc (find_eq hc),
    fun _ hr => existsUnique_resource hd hc (find_eq hc) hr⟩

/-! A resource nested in another one, both bound to one symbol. -/
namespace Sample

def inner : Resource :=
  resource 70 "inner" (.object ⟨originAt 73,
    [some (property 74 dependsOnKey (some (.array ⟨originAt 76, [some (entry 77)]⟩)))], []⟩)

def nesting : Resource :=
  resource 40 "web" (.object ⟨originAt 20,
    [some (property 25 dependsOnKey (some (.array list)))], [some inner]⟩)

def nestingModel : Model where
  maker := 1
  program := .program ⟨originAt 0, [some (.resourceDecl store), some (.resourceDecl nesting)]⟩
  bindings := [⟨⟨0, 78⟩, storeSymbol⟩, ⟨⟨0, 34⟩, storeSymbol⟩, ⟨⟨0, 31⟩, storeSymbol⟩,
    ⟨⟨0, 70⟩, webSymbol⟩, ⟨⟨0, 40⟩, webSymbol⟩]
  issued := 2

end Sample

open Sample in
theorem find_reports_entries_once_sample :
    nestingModel.program.Distinct ∧ nestingModel.program.Complete ∧
      (find nestingModel inferred).map entryIds = .ok [⟨0, 30⟩, ⟨0, 33⟩, ⟨0, 77⟩] ∧
      ∃ found, find nestingModel inferred = .ok found ∧ (entryIds found).Nodup ∧
        ∀ r ∈ found, ∃! x, .resourceDecl x ∈ nestingModel.program.preorder ∧
          x.HasEntry r.entry.origin.id := by
  have hd : nestingModel.program.Distinct := by decide +kernel
  have hc : nestingModel.program.Complete := by decide +kernel
  exact ⟨hd, hc, by decide +kernel, find_reports_entries_once nestingModel inferred hd hc⟩

end Redundancy

end InfraLint
