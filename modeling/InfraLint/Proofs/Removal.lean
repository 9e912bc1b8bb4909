import InfraLint.Proofs.DroppedEntries
import InfraLint.Proofs.UniqueEntries

/-!
Removing redundant entries. Main statement: whichever of the findings of an audit are removed
from a tree without resources below properties, a second look at the document infers the same
map, finds the other findings in their order, and every resource depends on what it depended on.
-/
namespace InfraLint

namespace Redundancy

variable {m m' : Model} {gone : List Identity}

def edit (e : Edit) (r : Redundancy) : Redundancy := ⟨r.entry, r.source.edit e, r.target.edit e⟩

theorem ofEntry_edit (h : m.EditedTo (.dropping gone) m') (source : Symbol)
    (records : List Dependency) {item : Item}
    (hvalue : ∀ n, item.value = some n → n ∈ m'.program.preorder) :
    ofEntry m' (source.edit (.dropping gone)) (records.map (Dependency.edit (.dropping gone)))
        item =
      (ofEntry m source records item).map (Redundancy.edit (.dropping gone)) := by
  unfold ofEntry
  rw [h.symbolOf_place hvalue]
  cases m.symbolOf item.value with
  | none => rfl
  | some target =>
    have himplied : implied (records.map (Dependency.edit (.dropping gone)))
        (target.edit (.dropping gone)) = implied records target := by
      unfold implied
      rw [List.any_map]
      rfl
    have hentity : (target.edit (.dropping gone)).isEntity = target.isEntity := rfl
    simp only [Option.map_some, Option.bind_some, himplied, hentity, Symbol.isCollection_edit]
    split <;> rfl

theorem ofEntryOf_edit (h : m.EditedTo (.dropping gone) m') (hc : m.program.Complete)
    (hf : m.program.FlatProperties) (hg : m.program.AreEntries gone)
    (map : DependencyMap) {x : Resource} (hx : x ∈ m.resources) {item : Item}
    (hitem : item ∈ (Resource.edit (.dropping gone) x).listed) :
    ofEntryOf m' (map.edit (.dropping gone)) (Resource.edit (.dropping gone) x) item =
      (ofEntryOf m map x item).map (Redundancy.edit (.dropping gone)) := by
  have hvalue : ∀ n, item.value = some n → n ∈ m'.program.preorder :=
    fun n => Resource.entryValue_mem_preorder (h.complete hc) (h.resource_mem hf hg hx) hitem
  unfold ofEntryOf
  rw [h.symbolOf_resource hf hg hx]
  cases m.symbolOf (some (.resourceDecl x)) with
  | none => rfl
  | some source =>
    simp only [Option.map_some, Option.bind_some, DependencyMap.get?_edit]
    cases map.get? source with
    | none => rfl
    | some records => exact ofEntry_edit h source records hvalue

/-- An audit of the edited document finds what it found in the entries that stay. -/
theorem find_edit (h : m.EditedTo (.dropping gone) m') (hd : m.program.Distinct)
    (hc : m.program.Complete) (hf : m.program.FlatProperties) (hg : m.program.AreEntries gone)
    {map : DependencyMap} {found : List Redundancy} (hfound : find m map = .ok found) :
    find m' (map.edit (.dropping gone)) = .ok ((found.filter fun r =>
      r.entry.origin.id ∉ gone).map (Redundancy.edit (.dropping gone))) := by
  rw [find_eq hc] at hfound
  rw [find_eq (h.complete hc), ← Except.ok.inj hfound, h.resources_eq hf hg, List.flatMap_map,
    List.filter_flatMap, List.map_flatMap]
  refine congrArg Except.ok (List.flatMap_congr fun x hx => ?_)
  have hlisted := hg.listed_edit hd hc hf (Model.mem_resources_iff.mp hx)
  rw [List.filterMap_congr fun i hi => ofEntryOf_edit h hc hf hg map hx hi, hlisted,
    List.filterMap_filter, List.filter_filterMap, List.map_filterMap]
  refine List.filterMap_congr fun i _ => ?_
  cases hr : ofEntryOf m map x i with
  | none => simp
  | some r =>
    obtain rfl := entry_of_ofEntryOf hr
    by_cases hgone : r.entry.origin.id ∈ gone
    · simp [hgone, Option.filter_some]
    · simp [hgone, Option.filter_some]

/-- Findings about entries of one identity are one finding. -/
theorem eq_of_entry_id (hd : m.program.Distinct) (hc : m.program.Complete) {map : DependencyMap}
    {found : List Redundancy} (hfound : find m map = .ok found) {r r' : Redundancy}
    (hr : r ∈ found) (hr' : r' ∈ found) (hid : r.entry.origin.id = r'.entry.origin.id) : r = r' :=
  List.inj_on_of_nodup_map (nodup_entryIds hd hc hfound) hr hr' hid

theorem areEntries_of_found (hd : m.program.Distinct) (hc : m.program.Complete)
    {map : DependencyMap} {found : List Redundancy} (hfound : find m map = .ok found)
    (removed : Redundancy → Bool) : m.program.AreEntries (entryIds (found.filter removed)) := by
  intro i hi hgone
  obtain ⟨r, hr, hid⟩ := List.mem_map.mp hgone
  obtain ⟨x, k, hx, hlists, _⟩ := mem_found hc hfound (List.mem_filter.mp hr).1
  have heq : Node.item r.entry = .item i :=
    hd.eq_of_id (Resource.entry_mem_preorder hx hlists) hi hid
  rw [Node.item.inj heq] at hlists
  exact ⟨x, k, hx, hlists⟩

theorem mem_entryIds_iff (hd : m.program.Distinct) (hc : m.program.Complete)
    {map : DependencyMap} {found : List Redundancy} (hfound : find m map = .ok found)
    (removed : Redundancy → Bool) {r : Redundancy} (hr : r ∈ found) :
    r.entry.origin.id ∈ entryIds (found.filter removed) ↔ removed r = true := by
  constructor
  · intro hmem
    obtain ⟨r', hr', hid⟩ := List.mem_map.mp hmem
    obtain ⟨hfound', hremoved⟩ := List.mem_filter.mp hr'
    rw [← eq_of_entry_id hd hc hfound hfound' hr hid]
    exact hremoved
  · exact fun hremoved => List.mem_map.mpr ⟨r, List.mem_filter.mpr ⟨hr, hremoved⟩, rfl⟩

end Redundancy

namespace Model

/-- The resources and modules that the entries of a resource stand for. -/
def explicitTargets (m : Model) (x : Resource) : List Symbol :=
  (x.listed.filterMap fun i => m.symbolOf i.value).filter Symbol.isEntity

def inferredTargets (m : Model) (map : DependencyMap) (x : Resource) : List Symbol :=
  ((m.symbolOf (some (.resourceDecl x))).bind map.get?).elim [] (List.map Dependency.target)

/-- The resource depends on the symbol of this identity, by an entry or as the map says. -/
def DependsOn (m : Model) (map : DependencyMap) (x : Resource) (target : Identity) : Prop :=
  ∃ s ∈ m.explicitTargets x ++ m.inferredTargets map x, s.id = target

variable {m m' : Model} {gone : List Identity}

theorem EditedTo.inferredTargets_eq (h : m.EditedTo (.dropping gone) m')
    (hf : m.program.FlatProperties) (hg : m.program.AreEntries gone) (map : DependencyMap)
    {x : Resource} (hx : x ∈ m.resources) :
    m'.inferredTargets (map.edit (.dropping gone)) (Resource.edit (.dropping gone) x) =
      (m.inferredTargets map x).map (Symbol.edit (.dropping gone)) := by
  unfold inferredTargets
  rw [h.symbolOf_resource hf hg hx]
  cases m.symbolOf (some (.resourceDecl x)) with
  | none => rfl
  | some source =>
    simp only [Option.map_some, Option.bind_some, DependencyMap.get?_edit]
    cases map.get? source with
    | none => rfl
    | some records =>
      simp only [Option.map_some, Option.elim_some, List.map_map]
      rfl

theorem EditedTo.explicitTargets_eq (h : m.EditedTo (.dropping gone) m') (hd : m.program.Distinct)
    (hc : m.program.Complete) (hf : m.program.FlatProperties) (hg : m.program.AreEntries gone)
    {x : Resource} (hx : x ∈ m.resources) :
    m'.explicitTargets (Resource.edit (.dropping gone) x) =
      (((x.listed.filter fun i => i.origin.id ∉ gone).filterMap fun i =>
        m.symbolOf i.value).filter Symbol.isEntity).map (Symbol.edit (.dropping gone)) := by
  unfold explicitTargets
  have hlisted := hg.listed_edit hd hc hf (Model.mem_resources_iff.mp hx)
  have hsymbols : ∀ i ∈ (Resource.edit (.dropping gone) x).listed, m'.symbolOf i.value =
      (m.symbolOf i.value).map (Symbol.edit (.dropping gone)) :=
    fun i hi => h.symbolOf_place fun n =>
      Resource.entryValue_mem_preorder (h.complete hc) (h.resource_mem hf hg hx) hi
  rw [List.filterMap_congr hsymbols, hlisted, ← List.map_filterMap, List.filter_map]
  rfl

end Model

/-- What a removed entry stands for is inferred for the resource of the entry. -/
theorem Redundancy.inferred_of_found {m : Model} (hd : m.program.Distinct)
    (hc : m.program.Complete) {map : DependencyMap} {found : List Redundancy}
    (hfound : Redundancy.find m map = .ok found) {r : Redundancy} (hr : r ∈ found) {x : Resource}
    (hx : x ∈ m.resources) {i : Item} (hi : i ∈ x.listed)
    (hid : r.entry.origin.id = i.origin.id) {s : Symbol} (hs : m.symbolOf i.value = some s) :
    ∃ t ∈ m.inferredTargets map x, t.id = s.id := by
  obtain ⟨y, k, hy, hlists, hof⟩ := mem_found hc hfound hr
  have hx' := Model.mem_resources_iff.mp hx
  obtain ⟨l, hxi⟩ := Resource.exists_lists hc hx' hi
  obtain rfl := Resource.entry_eq_of_id hd hy hx' hlists hxi hid
  obtain rfl := Resource.eq_of_entry hd hx' hy hxi hlists
  obtain ⟨hsource, records, hrecords, hof⟩ := ofEntryOf_eq_some_iff.mp hof
  obtain ⟨_, _, htarget, _, _, d, hd', hdid⟩ := ofEntry_eq_some_iff.mp hof
  obtain rfl := Option.some.inj (htarget.symm.trans hs)
  refine ⟨d.target, ?_, hdid⟩
  unfold Model.inferredTargets
  rw [hsource, Option.bind_some, hrecords]
  exact List.mem_map.mpr ⟨d, hd', rfl⟩

/-- Dropping the entries of findings takes no dependency away and adds none. -/
theorem Redundancy.dependsOn_edit_iff {m m' : Model} (hd : m.program.Distinct)
    (hc : m.program.Complete) (hf : m.program.FlatProperties) {map : DependencyMap}
    {found : List Redundancy} (hfound : Redundancy.find m map = .ok found)
    (removed : Redundancy → Bool)
    (h : m.EditedTo (.dropping (entryIds (found.filter removed))) m') {x : Resource}
    (hx : x ∈ m.resources) (target : Identity) :
    m'.DependsOn (map.edit (.dropping (entryIds (found.filter removed))))
        (Resource.edit (.dropping (entryIds (found.filter removed))) x) target ↔
      m.DependsOn map x target := by
  have hg := areEntries_of_found hd hc hfound removed
  unfold Model.DependsOn
  rw [h.explicitTargets_eq hd hc hf hg hx, h.inferredTargets_eq hf hg map hx, ← List.map_append]
  constructor
  · intro h'
    obtain ⟨_, hmem, hid⟩ := h'
    obtain ⟨s, hs, rfl⟩ := List.mem_map.mp hmem
    refine ⟨s, ?_, hid⟩
    rcases List.mem_append.mp hs with hs | hs
    · obtain ⟨hs, hentity⟩ := List.mem_filter.mp hs
      obtain ⟨i, hi, his⟩ := List.mem_filterMap.mp hs
      refine List.mem_append_left _ (List.mem_filter.mpr ⟨?_, hentity⟩)
      exact List.mem_filterMap.mpr ⟨i, (List.mem_filter.mp hi).1, his⟩
    · exact List.mem_append_right _ hs
  · intro h'
    obtain ⟨s, hs, hid⟩ := h'
    rcases List.mem_append.mp hs with hs | hs
    · obtain ⟨hs, hentity⟩ := List.mem_filter.mp hs
      obtain ⟨i, hi, his⟩ := List.mem_filterMap.mp hs
      by_cases hgone : i.origin.id ∈ entryIds (found.filter removed)
      · obtain ⟨r, hr, hrid⟩ := List.mem_map.mp hgone
        obtain ⟨t, ht, htid⟩ :=
          inferred_of_found hd hc hfound (List.mem_filter.mp hr).1 hx hi hrid his
        exact ⟨_, List.mem_map.mpr ⟨t, List.mem_append_right _ ht, rfl⟩, htid.trans hid⟩
      · refine ⟨_, List.mem_map.mpr ⟨s, List.mem_append_left _ ?_, rfl⟩, hid⟩
        refine List.mem_filter.mpr ⟨List.mem_filterMap.mpr ⟨i, ?_, his⟩, hentity⟩
        exact List.mem_filter.mpr ⟨hi, by simpa using hgone⟩
    · exact ⟨_, List.mem_map.mpr ⟨s, List.mem_append_right _ hs, rfl⟩, hid⟩

/-- After any of the findings of a first look are removed, a second look infers the same map from
references, each resource depends on what it depended on, and what is found are the other findings
in their order. -/
theorem Redundancy.remove_found (m : Model) (hd : m.program.Distinct) (hc : m.program.Complete)
    (hf : m.program.FlatProperties)
    (hvalues : ∀ x ∈ m.resources, ¬ ReferenceScan.Unsearchable m true x) :
    ∃ map found, (ReferenceScan.scan m true).outcome = .ok map ∧
      Redundancy.find m map = .ok found ∧
      ∀ (removed : Redundancy → Bool) (e : Edit) (m' : Model),
        e = .dropping (entryIds (found.filter removed)) → m.EditedTo e m' →
        (ReferenceScan.scan m' true).outcome = .ok (map.edit e) ∧
        m'.resources = m.resources.map (Resource.edit e) ∧
        (∀ x ∈ m.resources, ∀ target,
          m'.DependsOn (map.edit e) (Resource.edit e x) target ↔ m.DependsOn map x target) ∧
        Redundancy.find m' (map.edit e) =
          .ok ((found.filter fun r => !removed r).map (Redundancy.edit e)) := by
  have hfound := @find_eq m (ReferenceScan.mapOf m true) hc
  refine ⟨_, _, ReferenceScan.outcome_scan_ok hc hvalues, hfound, ?_⟩
  rintro removed e m' rfl h
  have hg := areEntries_of_found hd hc hfound removed
  have hresources := h.resources_eq hf hg
  refine ⟨?_, hresources, fun x hx => dependsOn_edit_iff hd hc hf hfound removed h hx, ?_⟩
  · have hsearchable : ∀ x ∈ m'.resources, ¬ ReferenceScan.Unsearchable m' true x := by
      intro x' hx' hgap
      rw [hresources] at hx'
      obtain ⟨x, hx, rfl⟩ := List.mem_map.mp hx'
      exact hvalues x hx (ReferenceScan.unsearchable_edit h hd hf hg hx hgap)
    rw [ReferenceScan.outcome_scan_ok (h.complete hc) hsearchable,
      ReferenceScan.mapOf_edit h hd hf hg]
  · rw [find_edit h hd hc hf hg hfound]
    refine congrArg (fun l => Except.ok (List.map _ l)) (List.filter_congr fun r hr => ?_)
    have hiff := mem_entryIds_iff hd hc hfound removed hr
    by_cases hremoved : removed r = true
    · simp [hiff.mpr hremoved, hremoved]
    · have hstay := mt hiff.mp hremoved
      simp [hstay, hremoved]

theorem Redundancy.remove_found_sample :
    Sample.model.program.Distinct ∧ Sample.model.program.Complete ∧
      Sample.model.program.FlatProperties ∧
      (∀ x ∈ Sample.model.resources, ¬ ReferenceScan.Unsearchable Sample.model true x) ∧
      ∃ map found e m' found', (ReferenceScan.scan Sample.model true).outcome = .ok map ∧
        Redundancy.find Sample.model map = .ok found ∧ entryIds found = [⟨0, 30⟩, ⟨0, 33⟩] ∧
        e = .dropping [⟨0, 30⟩] ∧ Sample.model.EditedTo e m' ∧
        (ReferenceScan.scan m' true).outcome = .ok (map.edit e) ∧
        Redundancy.find m' (map.edit e) = .ok found' ∧ entryIds found' = [⟨0, 33⟩] := by
  have hd : Sample.model.program.Distinct := by decide +kernel
  have hc : Sample.model.program.Complete := by decide +kernel
  have hf : Sample.model.program.FlatProperties := by decide +kernel
  have hvalues : ∀ x ∈ Sample.model.resources,
      ¬ ReferenceScan.Unsearchable Sample.model true x := by decide +kernel
  obtain ⟨map, found, hscan, hfind, h⟩ := remove_found Sample.model hd hc hf hvalues
  have hids : entryIds found = [⟨0, 30⟩, ⟨0, 33⟩] := by
    have hrun : ((ReferenceScan.scan Sample.model true).outcome.bind
        (Redundancy.find Sample.model)).map entryIds = .ok [⟨0, 30⟩, ⟨0, 33⟩] := by
      decide +kernel
    rw [hscan] at hrun
    simp only [Except.bind, hfind] at hrun
    exact Except.ok.inj hrun
  have hsplit : ∀ keep : Identity → Bool,
      entryIds (found.filter fun r => keep r.entry.origin.id) =
        [⟨0, 30⟩, ⟨0, 33⟩].filter keep := by
    intro keep
    rw [← hids]
    exact List.filter_map.symm
  have hgone : Edit.dropping [⟨0, 30⟩] =
      .dropping (entryIds (found.filter fun r => r.entry.origin.id == ⟨0, 30⟩)) :=
    congrArg Edit.dropping (hsplit (· == ⟨0, 30⟩)).symm
  have hedited := Model.editedTo_edit (.dropping [⟨0, 30⟩]) Sample.model
  obtain ⟨hscan', _, _, hfind'⟩ := h _ _ _ hgone hedited
  refine ⟨hd, hc, hf, hvalues, map, found, _, _, _, hscan, hfind, hids, rfl, hedited, hscan',
    hfind', ?_⟩
  rw [entryIds, List.map_map]
  exact hsplit fun i => !(i == ⟨0, 30⟩)

end InfraLint
