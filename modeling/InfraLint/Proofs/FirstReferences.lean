import InfraLint.Proofs.FoundReferences

/-!
The meaning of a scan of references. Main statement: where no two resources are bound to one symbol
and everything that is to be searched is there, a source is in the map just if its body refers to
something, and its set has one record for each target, with the index of the first reference.
-/
namespace InfraLint

def Model.SourcesApart (m : Model) : Prop :=
  ∀ x y, .resourceDecl x ∈ m.program.preorder → .resourceDecl y ∈ m.program.preorder →
    ∀ s t, m.symbolOf (some (.resourceDecl x)) = some s →
      m.symbolOf (some (.resourceDecl y)) = some t → s.id = t.id → x = y

/-- Whether resources share symbols can be checked by identities. -/
theorem Model.sourcesApart_of_nodup {m : Model} (h : (m.resources.filterMap fun x =>
    (m.symbolOf (some (.resourceDecl x))).map Symbol.id).Nodup) : m.SourcesApart := by
  intro x y hx hy s t hs ht hid
  by_contra hne
  let Apart : Resource → Resource → Prop := fun x y =>
    ∀ i, (m.symbolOf (some (.resourceDecl x))).map Symbol.id = some i →
      ∀ j, (m.symbolOf (some (.resourceDecl y))).map Symbol.id = some j → i ≠ j
  have hsymm : Std.Symm Apart := ⟨fun _ _ h i hi j hj => (h j hj i hi).symm⟩
  have hall : m.resources.Pairwise Apart := List.pairwise_filterMap.mp h
  have hapart := hall.forall (mem_resources_iff.mpr hx) (mem_resources_iff.mpr hy) hne
  exact hapart s.id (by rw [hs]; rfl) t.id (by rw [ht]; rfl) hid

namespace ReferenceScan

variable {m : Model} {ignoreExplicit : Bool}

/-- What a set of records says about the body of its source. -/
structure SetOfReferences (m : Model) (ignoreExplicit : Bool) (source : Symbol) (body : Object)
    (set : List Dependency) : Prop where
  nonempty : set ≠ []
  /-- The targets are what the body refers to. -/
  targets : ∀ t, (∃ d ∈ set, d.target.id = t) ↔ DependsOn m ignoreExplicit source body t
  /-- A target is there once. -/
  apart : (set.map fun d => d.target.id).Nodup
  /-- A record is of the source, and of the first reference to its target. -/
  members : ∀ d, d ∈ set ↔ d.source = source ∧
    FirstReference m source (body.visited ignoreExplicit) d.target d.index

theorem setOfReferences_setIn {source : Symbol} {body : Object}
    (h : Depends m ignoreExplicit source body) :
    SetOfReferences m ignoreExplicit source body (setIn m ignoreExplicit source body) where
  nonempty := setIn_ne_nil_iff.mpr h
  targets _ := exists_target_setIn_iff
  apart := nodup_targets_setIn m ignoreExplicit source body
  members _ := mem_setIn_iff

theorem Gives.unique (ha : m.SourcesApart) {s : Symbol} {x y : Resource} {own : Symbol}
    {body body' : Object} (hx : .resourceDecl x ∈ m.program.preorder) (hs : x.IsSource m s body)
    (hy : .resourceDecl y ∈ m.program.preorder) (h : Gives m ignoreExplicit s.id y own body') :
    own = s ∧ body' = body := by
  obtain rfl := ha x y hx hy s own hs.symbol h.source.symbol h.same.symm
  exact ⟨Option.some.inj (h.source.symbol.symm.trans hs.symbol),
    Option.some.inj (h.source.hasBody.body_eq.symm.trans hs.hasBody.body_eq)⟩

theorem get?_mapOf_of_isSource (ha : m.SourcesApart) {x : Resource} {s : Symbol} {body : Object}
    (hx : .resourceDecl x ∈ m.program.preorder) (hs : x.IsSource m s body) {set : List Dependency}
    (hset : (mapOf m ignoreExplicit).get? s = some set) :
    set = setIn m ignoreExplicit s body ∧ Depends m ignoreExplicit s body := by
  obtain ⟨y, own, body', ⟨hgives, k, hk, _⟩, rfl⟩ := get?_mapOf_eq_some_iff.mp hset
  have hy := Model.mem_resources_iff.mp (List.mem_of_getElem? hk)
  obtain ⟨rfl, rfl⟩ := hgives.unique ha hx hs hy
  exact ⟨rfl, hgives.depends⟩

/-- What a source has as its targets is what its body refers to. -/
theorem exists_target_mapOf_iff (ha : m.SourcesApart) {x : Resource} {s : Symbol} {body : Object}
    (hx : .resourceDecl x ∈ m.program.preorder) (hs : x.IsSource m s body) {t : Identity} :
    (∃ set, (mapOf m ignoreExplicit).get? s = some set ∧ ∃ d ∈ set, d.target.id = t) ↔
      DependsOn m ignoreExplicit s body t := by
  constructor
  · intro h
    obtain ⟨set, hset, htarget⟩ := h
    obtain ⟨rfl, _⟩ := get?_mapOf_of_isSource ha hx hs hset
    exact exists_target_setIn_iff.mp htarget
  · intro h
    obtain ⟨set, hset⟩ := exists_get?_mapOf_iff.mpr ⟨x, hx, s, body, hs, rfl, t, h⟩
    obtain ⟨rfl, _⟩ := get?_mapOf_of_isSource ha hx hs hset
    exact ⟨_, hset, exists_target_setIn_iff.mpr h⟩

structure MapOfReferences (m : Model) (ignoreExplicit : Bool) (map : DependencyMap) : Prop where
  /-- A source is there once. -/
  apart : (map.map fun e => e.1.id).Nodup
  /-- The sources are what resources with references are bound to. -/
  sources : ∀ s, (∃ set, map.get? s = some set) ↔
    ∃ x, .resourceDecl x ∈ m.program.preorder ∧ ∃ own body, Gives m ignoreExplicit s.id x own body
  sets : ∀ x s body set, .resourceDecl x ∈ m.program.preorder → x.IsSource m s body →
    map.get? s = some set → SetOfReferences m ignoreExplicit s body set

/-- A scan finds the first references of each source to its targets. -/
theorem scan_finds_first_references (m : Model) (ignoreExplicit : Bool) (hk : m.program.Keyed)
    (hgap : ∀ x ∈ m.resources, ¬ Unsearchable m ignoreExplicit x) (ha : m.SourcesApart) :
    ∃ map, (scan m ignoreExplicit).outcome = .ok map ∧ MapOfReferences m ignoreExplicit map := by
  refine ⟨_, outcome_scan_of_keyed hk hgap, DependencyMap.nodup_foldl_put _, ?_, ?_⟩
  · intro s
    exact exists_get?_mapOf_iff
  · intro x s body set hx hs hset
    obtain ⟨rfl, hdepends⟩ := get?_mapOf_of_isSource ha hx hs hset
    exact setOfReferences_setIn hdepends

namespace Sample

open Redundancy.Sample

def member (serial : Nat) (name : String) (index : Int) : Node :=
  .arrayAccess ⟨originAt serial, some (reference (serial + 1) name),
    some (.integer ⟨originAt (serial + 3), some index⟩)⟩

def pool : Resource :=
  resource 40 "pool" (.object ⟨originAt 43,
    [some (property 44 "first" (some (member 46 "store" 0))),
      some (property 50 "others" (some (.array ⟨originAt 52,
        [some ⟨originAt 53, some (reference 54 "store")⟩,
          some ⟨originAt 56, some (reference 57 "pool")⟩,
          some ⟨originAt 59, some (member 60 "pool" 1)⟩]⟩)))], []⟩)

def poolSymbol : Symbol := ⟨⟨1, 1⟩, .resource, some "pool", some (.resourceDecl pool)⟩

def pooled : Model where
  maker := 1
  program := .program ⟨originAt 0, [some (.resourceDecl store), some (.resourceDecl pool)]⟩
  bindings := [⟨⟨0, 61⟩, poolSymbol⟩, ⟨⟨0, 57⟩, poolSymbol⟩, ⟨⟨0, 54⟩, storeSymbol⟩,
    ⟨⟨0, 47⟩, storeSymbol⟩, ⟨⟨0, 40⟩, poolSymbol⟩, ⟨⟨0, 10⟩, storeSymbol⟩]
  issued := 2

end Sample

/-- The set has the first reference to the other resource, and of those to itself the second. -/
theorem scan_finds_first_references_sample :
    Sample.pooled.program.Keyed ∧
      (∀ x ∈ Sample.pooled.resources, ¬ Unsearchable Sample.pooled false x) ∧
      Sample.pooled.SourcesApart ∧
      (scan Sample.pooled false).outcome.map (List.map fun e =>
          (e.1.id, e.2.map fun d => (d.target.id, d.index.map Node.id))) =
        .ok [(⟨1, 1⟩, [(⟨1, 0⟩, some ⟨0, 49⟩), (⟨1, 1⟩, some ⟨0, 63⟩)])] ∧
      ∃ map, (scan Sample.pooled false).outcome = .ok map ∧
        MapOfReferences Sample.pooled false map := by
  have hc : Sample.pooled.program.Complete := by decide +kernel
  have hgap : ∀ x ∈ Sample.pooled.resources, ¬ Unsearchable Sample.pooled false x := by
    decide +kernel
  have ha : Sample.pooled.SourcesApart := Model.sourcesApart_of_nodup (by decide +kernel)
  exact ⟨hc.keyed, hgap, ha, by decide +kernel,
    scan_finds_first_references Sample.pooled false hc.keyed hgap ha⟩

end ReferenceScan

end InfraLint
