import InfraLint.Proofs.FirstReferences

/-!
Sources that depend on themselves. What a node is bound to itself counts only if it is another
source, but for a member of a collection nothing is compared. Main statement: whenever a scan gives
a map, a source has itself as a target just if a member of itself is referred to in the body that
gives it its set.
-/
namespace InfraLint

namespace ReferenceScan

variable {m : Model} {ignoreExplicit : Bool}

/-- In the body a member is referred to of the resource or module of identity `id`. -/
def RefersToMember (m : Model) (ignoreExplicit : Bool) (body : Object) (id : Identity) : Prop :=
  ∃ a, .arrayAccess a ∈ body.visited ignoreExplicit ∧ ∃ t, m.symbolOf a.base = some t ∧
    (t.kind = .resource ∨ t.kind = .module) ∧ t.id = id

/-- A body refers to its own source only for a member of it. -/
theorem dependsOn_self_iff {own : Symbol} {body : Object} :
    DependsOn m ignoreExplicit own body own.id ↔
      RefersToMember m ignoreExplicit body own.id := by
  constructor
  · intro h
    obtain ⟨n, hn, target, index, hrefers, hid⟩ := h
    cases hrefers with
    | member a _ hbase hkind => exact ⟨a, hn, target, hbase, hkind, hid⟩
    | plain _ _ _ _ _ hother => exact absurd hid hother
  · intro h
    obtain ⟨a, ha, t, hbase, hkind, hid⟩ := h
    exact ⟨.arrayAccess a, ha, t, a.index, .member a t hbase hkind, hid⟩

/-- Whenever a scan gives a map, a source is its own target in it just if the last resource that
gives it a set refers to a member of it. -/
theorem scan_infers_self_iff_refers_to_member (m : Model) (ignoreExplicit : Bool)
    (map : DependencyMap) (h : (scan m ignoreExplicit).outcome = .ok map) (s : Symbol) :
    (∃ set, map.get? s = some set ∧ ∃ d ∈ set, d.target.id = s.id) ↔
      ∃ x own body, GivesLast m ignoreExplicit s.id x own body ∧
        RefersToMember m ignoreExplicit body s.id := by
  rw [eq_mapOf_of_outcome_scan h]
  simp only [get?_mapOf_eq_some_iff]
  constructor
  · intro hself
    obtain ⟨_, ⟨x, own, body, hgives, rfl⟩, htarget⟩ := hself
    refine ⟨x, own, body, hgives, ?_⟩
    rw [← hgives.same] at htarget ⊢
    exact dependsOn_self_iff.mp (exists_target_setIn_iff.mp htarget)
  · intro hmember
    obtain ⟨x, own, body, hgives, hmember⟩ := hmember
    refine ⟨_, ⟨x, own, body, hgives, rfl⟩, exists_target_setIn_iff.mpr ?_⟩
    rw [← hgives.same] at hmember ⊢
    exact dependsOn_self_iff.mpr hmember

namespace Sample

open Redundancy.Sample

def ring : Resource :=
  resource 40 "ring"
    (.object ⟨originAt 43, [some (property 44 "x" (some (member 46 "ring" 0)))], []⟩)

def ringSymbol : Symbol := ⟨⟨1, 0⟩, .resource, some "ring", some (.resourceDecl ring)⟩

def ringed : Model where
  maker := 1
  program := .program ⟨originAt 0, [some (.resourceDecl ring)]⟩
  bindings := [⟨⟨0, 47⟩, ringSymbol⟩, ⟨⟨0, 40⟩, ringSymbol⟩]
  issued := 1

end Sample

/-- The resource refers to its first member, and so it depends on itself. -/
theorem scan_infers_self_iff_refers_to_member_sample :
    ∃ map, (scan Sample.ringed true).outcome = .ok map ∧
      (∃ set, DependencyMap.get? map Sample.ringSymbol = some set ∧
        ∃ d ∈ set, d.target.id = Sample.ringSymbol.id) ∧
      ∃ x own body, GivesLast Sample.ringed true Sample.ringSymbol.id x own body ∧
        RefersToMember Sample.ringed true body Sample.ringSymbol.id := by
  have hrun : (scan Sample.ringed true).outcome.map (fun map =>
      (DependencyMap.get? map Sample.ringSymbol).any fun set =>
        set.any fun d => d.target.is Sample.ringSymbol) = .ok true := by decide +kernel
  cases hscan : (scan Sample.ringed true).outcome with
  | error f =>
    rw [hscan] at hrun
    exact nomatch hrun
  | ok map =>
    rw [hscan] at hrun
    obtain ⟨set, hset, hany⟩ := (Option.any_eq_true _ _).mp (Except.ok.inj hrun)
    obtain ⟨d, hd, his⟩ := List.any_eq_true.mp hany
    have hself : ∃ set, DependencyMap.get? map Sample.ringSymbol = some set ∧
        ∃ d ∈ set, d.target.id = Sample.ringSymbol.id :=
      ⟨set, hset, d, hd, by simpa [Symbol.is] using his⟩
    exact ⟨map, rfl, hself, (scan_infers_self_iff_refers_to_member Sample.ringed true map hscan
      Sample.ringSymbol).mp hself⟩

end ReferenceScan

end InfraLint
