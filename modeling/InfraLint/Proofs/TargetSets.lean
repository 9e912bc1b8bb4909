import InfraLint.Proofs.Findings
import InfraLint.Proofs.Maps
import Mathlib.Data.List.Flatten

/-!
What an audit reads of a map of inferred dependencies. It is the sets of targets alone: a finding
is about an entry whose target is among the targets of its source. Main statement: a map with more
targets gives the findings of a map with fewer, in their order and with others between them, so
that maps with the same targets give the same findings.
-/
namespace InfraLint

/-- The identities of all targets that a map has for a source. A source that is not there has
none. -/
def DependencyMap.targets (map : DependencyMap) (source : Symbol) : List Identity :=
  ((map.get? source).getD []).map fun d => d.target.id

theorem DependencyMap.mem_targets_iff {map : DependencyMap} {source : Symbol} {id : Identity} :
    id ∈ map.targets source ↔
      ∃ records, map.get? source = some records ∧ ∃ d ∈ records, d.target.id = id := by
  unfold DependencyMap.targets
  cases map.get? source with
  | none => simp
  | some records => simp

/-- A source without targets may be there or not. -/
theorem DependencyMap.targets_put_nil {map : DependencyMap} {source : Symbol}
    (h : map.get? source = none) (s : Symbol) :
    DependencyMap.targets (map.put source []) s = map.targets s := by
  unfold DependencyMap.targets
  rw [DependencyMap.get?_put]
  split
  · rename_i hid
    have hs : map.get? s = none := by
      unfold DependencyMap.get? Symbol.is at h ⊢
      rw [← hid]
      exact h
    rw [hs]
    rfl
  · rfl

namespace Redundancy

variable {m : Model} {map map' : DependencyMap}

/-- What an entry comes to, said with the targets of its source. -/
theorem ofEntryOf_eq_some_iff_targets {x : Resource} {item : Item} {r : Redundancy} :
    ofEntryOf m map x item = some r ↔
      (m.symbolOf (some (.resourceDecl x)) = some r.source ∧ r.entry = item ∧
        m.symbolOf item.value = some r.target ∧
        (r.target.kind = .resource ∨ r.target.kind = .module) ∧ ¬ r.target.DeclaredWithFor) ∧
      r.target.id ∈ map.targets r.source := by
  rw [ofEntryOf_eq_some_iff, DependencyMap.mem_targets_iff]
  simp only [ofEntry_eq_some_iff, true_and]
  constructor
  · rintro ⟨hsource, records, hrecords, hentry, htarget, hentity, hsingle, hmem⟩
    exact ⟨⟨hsource, hentry, htarget, hentity, hsingle⟩, records, hrecords, hmem⟩
  · rintro ⟨⟨hsource, hentry, htarget, hentity, hsingle⟩, records, hrecords, hmem⟩
    exact ⟨hsource, records, hrecords, hentry, htarget, hentity, hsingle, hmem⟩

/-- With more targets an entry comes to what it came to, if it came to anything. -/
theorem ofEntryOf_of_targets (h : ∀ s, map.targets s ⊆ map'.targets s) {x : Resource}
    {item : Item} {r : Redundancy} (hr : ofEntryOf m map x item = some r) :
    ofEntryOf m map' x item = some r := by
  rw [ofEntryOf_eq_some_iff_targets] at hr ⊢
  exact ⟨hr.1, h r.source hr.2⟩

/-- The entries of a resource come to the same findings and perhaps to further ones. -/
theorem listed_sublist (h : ∀ s, map.targets s ⊆ map'.targets s) (x : Resource) :
    (x.listed.filterMap (ofEntryOf m map x)).Sublist (x.listed.filterMap (ofEntryOf m map' x)) := by
  rw [List.filterMap_eq_flatMap_toList, List.filterMap_eq_flatMap_toList]
  refine List.Sublist.flatMap_right x.listed fun item _ => ?_
  cases hr : ofEntryOf m map x item with
  | none => exact List.nil_sublist _
  | some r =>
    rw [ofEntryOf_of_targets h hr]

theorem found_sublist (hc : m.program.Complete) (h : ∀ s, map.targets s ⊆ map'.targets s) :
    ∃ found found', find m map = .ok found ∧ find m map' = .ok found' ∧ found.Sublist found' :=
  ⟨_, _, find_eq hc, find_eq hc,
    List.Sublist.flatMap_right m.resources fun x _ => listed_sublist h x⟩

theorem find_eq_of_targets (hc : m.program.Complete)
    (h : ∀ s id, id ∈ map.targets s ↔ id ∈ map'.targets s) : find m map = find m map' := by
  obtain ⟨found, found', hfound, hfound', hsub⟩ := found_sublist hc fun s id => (h s id).mp
  obtain ⟨larger, smaller, hlarger, hsmaller, hsub'⟩ := found_sublist hc fun s id => (h s id).mpr
  obtain rfl := Except.ok.inj (hfound'.symm.trans hlarger)
  obtain rfl := Except.ok.inj (hfound.symm.trans hsmaller)
  rw [hfound, hfound', hsub.antisymm hsub']

/-- The findings grow with the sets of targets, and nothing else that a map holds matters: neither
the sources and members that its records name, nor the order of sources and records, nor whether
a source without dependencies is there. -/
theorem find_reads_targets (m : Model) (hc : m.program.Complete) :
    (∀ map map' : DependencyMap, (∀ s, map.targets s ⊆ map'.targets s) →
      ∃ found found', find m map = .ok found ∧ find m map' = .ok found' ∧ found.Sublist found') ∧
    (∀ map map' : DependencyMap, (∀ s id, id ∈ map.targets s ↔ id ∈ map'.targets s) →
      find m map = find m map') ∧
    ∀ (map : DependencyMap) (s : Symbol), map.get? s = none →
      find m (map.put s []) = find m map := by
  refine ⟨fun map map' => found_sublist hc, fun map map' => find_eq_of_targets hc, ?_⟩
  intro map s hs
  refine find_eq_of_targets hc fun t id => ?_
  rw [DependencyMap.targets_put_nil hs]

/-! A resource that lists two others, one of them twice. -/
namespace Sample

def cache : Resource := resource 60 "cache" (.object ⟨originAt 63, [], []⟩)

def cacheSymbol : Symbol := ⟨⟨1, 2⟩, .resource, some "cache", some (.resourceDecl cache)⟩

def cacheEntry : Item := ⟨originAt 36, some (reference 37 "cache")⟩

def mixedList : ArrayLiteral :=
  ⟨originAt 27, [some (entry 30), some cacheEntry, some (entry 33)]⟩

def mixed : Resource :=
  resource 40 "web" (.object ⟨originAt 20,
    [some (property 25 dependsOnKey (some (.array mixedList)))], []⟩)

def mixedModel : Model where
  maker := 1
  program := .program ⟨originAt 0,
    [some (.resourceDecl store), some (.resourceDecl cache), some (.resourceDecl mixed)]⟩
  bindings := [⟨⟨0, 37⟩, cacheSymbol⟩, ⟨⟨0, 34⟩, storeSymbol⟩, ⟨⟨0, 31⟩, storeSymbol⟩,
    ⟨⟨0, 40⟩, webSymbol⟩]
  issued := 3

def both : DependencyMap :=
  [(webSymbol, [⟨webSymbol, cacheSymbol, none⟩, ⟨webSymbol, storeSymbol, none⟩])]

/-- The targets of `both`, with other sources and members in the records and in another order. -/
def bothReworded : DependencyMap :=
  [(storeSymbol, []), (webSymbol, [⟨cacheSymbol, storeSymbol, some (reference 70 "i")⟩,
    ⟨storeSymbol, cacheSymbol, none⟩])]

theorem targets_inferred_subset (s : Symbol) :
    DependencyMap.targets inferred s ⊆ DependencyMap.targets both s := by
  by_cases hs : webSymbol.id = s.id
  · simp [DependencyMap.targets, DependencyMap.get?, inferred, both, Symbol.is, hs]
  · simp [DependencyMap.targets, DependencyMap.get?, inferred, Symbol.is, hs]

theorem targets_bothReworded (s : Symbol) (id : Identity) :
    id ∈ DependencyMap.targets both s ↔ id ∈ DependencyMap.targets bothReworded s := by
  by_cases hs : webSymbol.id = s.id
  · have hstore : storeSymbol.id ≠ s.id := by
      rw [← hs]
      decide
    simp [DependencyMap.targets, DependencyMap.get?, both, bothReworded, Symbol.is, hs, hstore,
      or_comm]
  · by_cases hstore : storeSymbol.id = s.id <;>
      simp [DependencyMap.targets, DependencyMap.get?, both, bothReworded, Symbol.is, hs, hstore]

end Sample

open Sample in
theorem find_reads_targets_sample :
    mixedModel.program.Complete ∧
      (∀ s, DependencyMap.targets inferred s ⊆ DependencyMap.targets both s) ∧
      (∀ s id, id ∈ DependencyMap.targets both s ↔ id ∈ DependencyMap.targets bothReworded s) ∧
      (find mixedModel inferred).map entryIds = .ok [⟨0, 30⟩, ⟨0, 33⟩] ∧
      (find mixedModel both).map entryIds = .ok [⟨0, 30⟩, ⟨0, 36⟩, ⟨0, 33⟩] ∧
      (∃ found found', find mixedModel inferred = .ok found ∧ find mixedModel both = .ok found' ∧
        found.Sublist found') ∧
      find mixedModel both = find mixedModel bothReworded ∧
      both.get? cacheSymbol = none ∧
      find mixedModel (both.put cacheSymbol []) = find mixedModel both := by
  have hc : mixedModel.program.Complete := by decide +kernel
  have habsent : both.get? cacheSymbol = none := rfl
  obtain ⟨hmore, hsame, hempty⟩ := find_reads_targets mixedModel hc
  exact ⟨hc, targets_inferred_subset, targets_bothReworded, by decide +kernel, by decide +kernel,
    hmore inferred both targets_inferred_subset,
    hsame both bothReworded targets_bothReworded, habsent, hempty both cacheSymbol habsent⟩

end Redundancy

end InfraLint
