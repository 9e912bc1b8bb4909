import InfraLint.Proofs.References
import Mathlib.Data.List.Induction

/-!
Sets of records, and what can be looked up in the map of a scan. Of the records that are the same a
set keeps the first, and of the sets that are put in for a source the map keeps the last. Where the
resources of a document have symbols with different identities, the map holds under each of these
just the set of its resource, unless this is empty.
-/
namespace InfraLint

namespace Dependency

theorem mem_add_iff {set : List Dependency} {d e : Dependency} :
    e ∈ add set d ↔ e ∈ set ∨ (e = d ∧ ∀ k ∈ set, k.same d = false) := by
  unfold add
  split
  · rename_i h
    obtain ⟨k, hk, hsame⟩ := List.any_eq_true.mp h
    refine ⟨Or.inl, ?_⟩
    intro h'
    rcases h' with he | ⟨_, hno⟩
    · exact he
    · exact nomatch hsame.symm.trans (hno k hk)
  · rename_i h
    rw [List.mem_append, List.mem_singleton]
    have hno : ∀ k ∈ set, k.same d = false := by simpa using h
    exact ⟨fun he => he.imp_right fun he => ⟨he, hno⟩, fun he => he.imp_right And.left⟩

theorem same_iff {d e : Dependency} :
    d.same e = true ↔ d.source.id = e.source.id ∧ d.target.id = e.target.id := by
  simp [same, Symbol.is]

theorem same_congr_left {d e : Dependency} (h : d.same e = true) (k : Dependency) :
    d.same k = true ↔ e.same k = true := by
  obtain ⟨hsource, htarget⟩ := same_iff.mp h
  rw [same_iff, same_iff, hsource, htarget]

/-- A property that does not tell records that are the same apart. -/
def Respects (P : Dependency → Prop) : Prop := ∀ d e, d.same e = true → (P d ↔ P e)

variable {P : Dependency → Prop}

theorem exists_add_iff (hP : Respects P) {set : List Dependency} {d : Dependency} :
    (∃ e ∈ add set d, P e) ↔ (∃ e ∈ set, P e) ∨ P d := by
  constructor
  · rintro ⟨e, he, hPe⟩
    rcases mem_add_iff.mp he with he | ⟨rfl, _⟩
    · exact Or.inl ⟨e, he, hPe⟩
    · exact Or.inr hPe
  · rintro (⟨e, he, hPe⟩ | hPd)
    · exact ⟨e, mem_add_iff.mpr (Or.inl he), hPe⟩
    · by_cases hno : ∀ k ∈ set, k.same d = false
      · exact ⟨d, mem_add_iff.mpr (Or.inr ⟨rfl, hno⟩), hPd⟩
      · -- The record that keeps `d` out of the set has the property as well.
        obtain ⟨k, hk, hsame⟩ : ∃ k ∈ set, k.same d = true := by simpa using hno
        exact ⟨k, mem_add_iff.mpr (Or.inl hk), (hP k d hsame).mpr hPd⟩

theorem exists_foldl_add_iff (hP : Respects P) {set records : List Dependency} :
    (∃ e ∈ records.foldl add set, P e) ↔ (∃ e ∈ set, P e) ∨ ∃ e ∈ records, P e := by
  induction records generalizing set with
  | nil => simp
  | cons d rest ih =>
    rw [List.foldl_cons, ih, exists_add_iff hP, or_assoc, List.exists_mem_cons_iff]

/-- A set has records of the targets of its list. -/
theorem exists_target_ofList_iff {records : List Dependency} {t : Identity} :
    (∃ e ∈ ofList records, e.target.id = t) ↔ ∃ e ∈ records, e.target.id = t := by
  have htarget : Respects fun e => e.target.id = t := by
    intro d e hsame
    show d.target.id = t ↔ e.target.id = t
    rw [(same_iff.mp hsame).2]
  rw [ofList, exists_foldl_add_iff htarget]
  simp

private theorem forall_add_iff {set : List Dependency} {d e : Dependency} :
    (∀ k ∈ add set d, k.same e = false) ↔ (∀ k ∈ set, k.same e = false) ∧ d.same e = false := by
  have hsame : Respects fun k => k.same e = true := fun d k h => same_congr_left h e
  have hiff : (¬ ∃ k ∈ add set d, k.same e = true) ↔
      ¬ ((∃ k ∈ set, k.same e = true) ∨ d.same e = true) := not_congr (exists_add_iff hsame)
  simpa [not_or] using hiff

private theorem mem_foldl_add_iff {set records : List Dependency} {d : Dependency} :
    d ∈ records.foldl add set ↔ d ∈ set ∨ ∃ before after, records = before ++ d :: after ∧
      (∀ k ∈ set, k.same d = false) ∧ ∀ k ∈ before, k.same d = false := by
  induction records generalizing set with
  | nil => simp
  | cons r rest ih =>
    rw [List.foldl_cons, ih, mem_add_iff, or_assoc]
    refine or_congr_right ⟨?_, ?_⟩
    · rintro (⟨rfl, hset⟩ | ⟨before, after, rfl, hadd, hbefore⟩)
      · exact ⟨[], rest, rfl, hset, fun k hk => absurd hk List.not_mem_nil⟩
      · obtain ⟨hset, hr⟩ := forall_add_iff.mp hadd
        exact ⟨r :: before, after, rfl, hset, List.forall_mem_cons.mpr ⟨hr, hbefore⟩⟩
    · rintro ⟨before, after, heq, hset, hbefore⟩
      cases before with
      | nil =>
        obtain ⟨rfl, _⟩ := List.cons.inj heq
        exact Or.inl ⟨rfl, hset⟩
      | cons first before =>
        obtain ⟨rfl, rfl⟩ := List.cons.inj heq
        obtain ⟨hr, hbefore⟩ := List.forall_mem_cons.mp hbefore
        exact Or.inr ⟨before, after, rfl, forall_add_iff.mpr ⟨hset, hr⟩, hbefore⟩

/-- A set keeps of the records that are the same the first. -/
theorem mem_ofList_iff {records : List Dependency} {d : Dependency} :
    d ∈ ofList records ↔
      ∃ before after, records = before ++ d :: after ∧ ∀ k ∈ before, k.same d = false := by
  rw [ofList, mem_foldl_add_iff]
  simp

/-- No two records of a set are the same. -/
theorem pairwise_ofList (records : List Dependency) :
    (ofList records).Pairwise fun d e => d.same e = false := by
  have hfold : ∀ set : List Dependency, (set.Pairwise fun d e => d.same e = false) →
      (records.foldl add set).Pairwise fun d e => d.same e = false := by
    induction records with
    | nil => exact fun set h => h
    | cons r rest ih =>
      intro set h
      refine ih _ ?_
      unfold add
      split
      · exact h
      · rename_i hno
        have hno : ∀ k ∈ set, k.same r = false := by simpa using hno
        refine List.pairwise_append.mpr ⟨h, List.pairwise_singleton _ r, fun k hk e he => ?_⟩
        rw [List.mem_singleton.mp he]
        exact hno k hk
  exact hfold [] List.Pairwise.nil

end Dependency

namespace DependencyMap

/-- A set for a source that is there changes no identity, any other adds one at the end. -/
theorem ids_put (map : DependencyMap) (source : Symbol) (set : List Dependency) :
    (map.put source set).map (fun e => e.1.id) =
      if source.id ∈ map.map fun e => e.1.id then map.map fun e => e.1.id
      else (map.map fun e => e.1.id) ++ [source.id] := by
  induction map with
  | nil => rfl
  | cons e rest ih =>
    obtain ⟨k, old⟩ := e
    by_cases hk : k.id = source.id
    · simp [put, Symbol.is, hk]
    · have hk' : source.id ≠ k.id := fun h => hk h.symm
      simp only [put, Symbol.is, hk, beq_iff_eq, if_false, List.map_cons, ih, List.mem_cons, hk',
        false_or]
      split <;> rfl

/-- No source is there twice. -/
theorem nodup_foldl_put (entries : DependencyMap) :
    ((entries.foldl (fun map e => DependencyMap.put map e.1 e.2) []).map
      fun e => e.1.id).Nodup := by
  induction entries using List.reverseRecOn with
  | nil => exact List.nodup_nil
  | append_singleton entries e ih =>
    rw [List.foldl_append, List.foldl_cons, List.foldl_nil, ids_put]
    split
    · exact ih
    · rename_i hnew
      exact List.Nodup.append ih (List.nodup_singleton _) (by simpa using hnew)

theorem get?_put (map : DependencyMap) (source s : Symbol) (set : List Dependency) :
    (map.put source set).get? s = if source.id = s.id then some set else map.get? s := by
  induction map with
  | nil => by_cases h : source.id = s.id <;> simp [put, get?, Symbol.is, h]
  | cons e rest ih =>
    obtain ⟨k, old⟩ := e
    by_cases hk : k.id = source.id
    · by_cases h : source.id = s.id <;> simp [put, get?, Symbol.is, hk, h]
    · by_cases hks : k.id = s.id
      · have h : source.id ≠ s.id := fun h => hk (hks.trans h.symm)
        simp [put, get?, Symbol.is, hks, h, h.symm]
      · simpa [put, get?, Symbol.is, hk, hks] using ih

/-- Of the sets that are put in for a source the last one stays. -/
theorem get?_foldl_put (entries : DependencyMap) (s : Symbol) :
    DependencyMap.get? (entries.foldl (fun map e => DependencyMap.put map e.1 e.2) []) s =
      DependencyMap.get? entries.reverse s := by
  induction entries using List.reverseRecOn with
  | nil => rfl
  | append_singleton entries e ih =>
    rw [List.foldl_append, List.foldl_cons, List.foldl_nil, get?_put, ih, List.reverse_append,
      List.reverse_singleton, List.singleton_append]
    by_cases h : e.1.id = s.id <;> simp [get?, Symbol.is, h]

private theorem id_of_find? {map : DependencyMap} {source : Symbol}
    {e : Symbol × List Dependency} (h : (map.find? fun e => e.1.is source) = some e) :
    e.1.id = source.id := by
  have his := List.find?_some h
  simpa [Symbol.is] using his

theorem get?_eq_some_iff {map : DependencyMap} (h : (map.map fun e => e.1.id).Nodup)
    {source : Symbol} {set : List Dependency} :
    map.get? source = some set ↔ ∃ s, (s, set) ∈ map ∧ s.id = source.id := by
  unfold get?
  rw [Option.map_eq_some_iff]
  constructor
  · intro h'
    obtain ⟨e, he, rfl⟩ := h'
    exact ⟨e.1, List.mem_of_find?_eq_some he, id_of_find? he⟩
  · intro h'
    obtain ⟨s, hs, hid⟩ := h'
    have hsome : (map.find? fun e => e.1.is source).isSome :=
      List.find?_isSome.mpr ⟨(s, set), hs, by simp [Symbol.is, hid]⟩
    obtain ⟨e, he⟩ := Option.isSome_iff_exists.mp hsome
    have heq := List.inj_on_of_nodup_map h (List.mem_of_find?_eq_some he) hs
      ((id_of_find? he).trans hid.symm)
    exact ⟨e, he, by rw [heq]⟩

end DependencyMap

namespace ReferenceScan

/-- The map has for a source the set of the resource with that identity, if this is not empty. -/
theorem get?_mapOf {m : Model} {ignoreExplicit : Bool}
    (h : ((m.resources.filterMap (setOf m ignoreExplicit)).map fun e => e.1.id).Nodup)
    {source : Symbol} {set : List Dependency} :
    (mapOf m ignoreExplicit).get? source = some set ↔
      set ≠ [] ∧ ∃ x ∈ m.resources, ∃ s, setOf m ignoreExplicit x = some (s, set) ∧
        s.id = source.id := by
  have hfilter : (((m.resources.filterMap (setOf m ignoreExplicit)).filter
      fun e => !e.2.isEmpty).reverse.map fun e => e.1.id).Nodup := by
    rw [List.map_reverse, List.nodup_reverse]
    exact h.sublist (List.filter_sublist.map _)
  rw [mapOf, DependencyMap.get?_foldl_put, DependencyMap.get?_eq_some_iff hfilter]
  simp only [List.mem_reverse, List.mem_filter, List.mem_filterMap, Bool.not_eq_true',
    List.isEmpty_eq_false_iff]
  constructor
  · intro h'
    obtain ⟨s, ⟨⟨x, hx, hset⟩, hne⟩, hid⟩ := h'
    exact ⟨hne, x, hx, s, hset, hid⟩
  · intro h'
    obtain ⟨hne, x, hx, s, hset, hid⟩ := h'
    exact ⟨s, ⟨⟨x, hx, hset⟩, hne⟩, hid⟩

end ReferenceScan

end InfraLint
