import InfraLint.Proofs.Maps

/-!
References in a body, and what they leave in the map of a scan. The nodes that a scan meets and
what a node refers to are said here without the functions that scan. Main statements: a set has
for each target the first reference to it, and of the resources that stand for one source the last
one with references gives the set that is found by look-up.
-/
namespace InfraLint

/-- The nodes that a scan meets in a body: property by property, and within the value of a property
in document order. -/
def Object.visited (ignoreExplicit : Bool) (body : Object) : List Node :=
  (body.searched ignoreExplicit).flatMap fun p => p.value.elim [] Node.preorder

theorem Object.mem_visited_iff {ignoreExplicit : Bool} {body : Object} {n : Node} :
    n ∈ body.visited ignoreExplicit ↔
      ∃ p ∈ body.searched ignoreExplicit, ∃ v, p.value = some v ∧ n ∈ v.preorder := by
  unfold visited
  rw [List.mem_flatMap]
  refine exists_congr fun p => and_congr_right fun _ => ?_
  cases p.value <;> simp

/-- The resource has the body, and is bound to the symbol `s`. -/
structure Resource.IsSource (m : Model) (x : Resource) (s : Symbol) (body : Object) : Prop where
  symbol : m.symbolOf (some (.resourceDecl x)) = some s
  hasBody : HasBody x.value body

namespace ReferenceScan

/-- What a node of the body of `source` refers to, and with which index: the resource or module
that it is bound to itself, unless that is `source`, or for a member of something the resource or
module that this is bound to. -/
inductive Refers (m : Model) (source : Symbol) : Node → Symbol → Option Node → Prop
  | member (a : ArrayAccess) (target : Symbol) (hbase : m.symbolOf a.base = some target)
      (hkind : target.kind = .resource ∨ target.kind = .module) :
      Refers m source (.arrayAccess a) target a.index
  | plain (n : Node) (target : Symbol) (hplain : ∀ a, n ≠ .arrayAccess a)
      (hbound : m.symbolOf (some n) = some target)
      (hkind : target.kind = .resource ∨ target.kind = .module)
      (hother : target.id ≠ source.id) : Refers m source n target none

variable {m : Model} {ignoreExplicit : Bool} {source : Symbol}

private theorem record_member_iff {a : ArrayAccess} {d : Dependency} :
    record m source (.arrayAccess a) = some d ↔
      d.source = source ∧ Refers m source (.arrayAccess a) d.target d.index := by
  unfold record
  simp only [Option.bind_eq_some_iff, Option.ite_none_right_eq_some, Symbol.isEntity_iff,
    Option.some.injEq]
  constructor
  · intro h
    obtain ⟨target, hbase, hkind, rfl⟩ := h
    exact ⟨rfl, .member a target hbase hkind⟩
  · intro h
    obtain ⟨s, target, index⟩ := d
    obtain ⟨rfl, hrefers⟩ := h
    cases hrefers with
    | member _ _ hbase hkind => exact ⟨target, hbase, hkind, rfl⟩
    | plain _ _ hplain => exact absurd rfl (hplain a)

private theorem record_plain_iff {n : Node} (hplain : ∀ a, n ≠ .arrayAccess a)
    {d : Dependency} :
    record m source n = some d ↔ d.source = source ∧ Refers m source n d.target d.index := by
  rw [record_of_not_arrayAccess hplain]
  unfold plainRecord
  simp only [Option.bind_eq_some_iff, Option.ite_none_right_eq_some, Bool.and_eq_true,
    Symbol.isEntity_iff, Symbol.is, Bool.not_eq_true', beq_eq_false_iff_ne, Option.some.injEq]
  constructor
  · intro h
    obtain ⟨target, hbound, ⟨hkind, hother⟩, rfl⟩ := h
    exact ⟨rfl, .plain n target hplain hbound hkind hother⟩
  · intro h
    obtain ⟨s, target, index⟩ := d
    obtain ⟨rfl, hrefers⟩ := h
    cases hrefers with
    | member a => exact absurd rfl (hplain a)
    | plain _ _ _ hbound hkind hother => exact ⟨target, hbound, ⟨hkind, hother⟩, rfl⟩

theorem record_eq_some_iff {n : Node} {d : Dependency} :
    record m source n = some d ↔ d.source = source ∧ Refers m source n d.target d.index := by
  by_cases hmember : ∃ a, n = .arrayAccess a
  · obtain ⟨a, rfl⟩ := hmember
    exact record_member_iff
  · exact record_plain_iff fun a ha => hmember ⟨a, ha⟩

theorem records_eq_filterMap (body : Object) :
    records m ignoreExplicit source body =
      (body.visited ignoreExplicit).filterMap (record m source) := by
  unfold records Object.visited
  rw [List.filterMap_flatMap]

/-- Somewhere in the body the symbol of identity `t` is referred to. -/
def DependsOn (m : Model) (ignoreExplicit : Bool) (source : Symbol) (body : Object)
    (t : Identity) : Prop :=
  ∃ n ∈ body.visited ignoreExplicit, ∃ target index, Refers m source n target index ∧ target.id = t

def Depends (m : Model) (ignoreExplicit : Bool) (source : Symbol) (body : Object) : Prop :=
  ∃ t, DependsOn m ignoreExplicit source body t

/-- Of some nodes the first that refers to `target` does so with `index`. -/
def FirstReference (m : Model) (source : Symbol) (nodes : List Node) (target : Symbol)
    (index : Option Node) : Prop :=
  ∃ before n after, nodes = before ++ n :: after ∧ Refers m source n target index ∧
    ∀ k ∈ before, ∀ other i, Refers m source k other i → other.id ≠ target.id

/-- The set of records that the body of a source comes to. -/
def setIn (m : Model) (ignoreExplicit : Bool) (source : Symbol) (body : Object) :
    List Dependency :=
  Dependency.ofList (records m ignoreExplicit source body)

section Sets

variable {body : Object}

theorem exists_target_setIn_iff {t : Identity} :
    (∃ d ∈ setIn m ignoreExplicit source body, d.target.id = t) ↔
      DependsOn m ignoreExplicit source body t := by
  unfold setIn DependsOn
  rw [Dependency.exists_target_ofList_iff, records_eq_filterMap]
  simp only [List.mem_filterMap, record_eq_some_iff]
  constructor
  · intro h
    obtain ⟨d, ⟨n, hn, _, hrefers⟩, ht⟩ := h
    exact ⟨n, hn, d.target, d.index, hrefers, ht⟩
  · intro h
    obtain ⟨n, hn, target, index, hrefers, ht⟩ := h
    exact ⟨⟨source, target, index⟩, ⟨n, hn, rfl, hrefers⟩, ht⟩

theorem setIn_ne_nil_iff :
    setIn m ignoreExplicit source body ≠ [] ↔ Depends m ignoreExplicit source body := by
  unfold Depends
  simp only [← exists_target_setIn_iff]
  rw [Ne, List.eq_nil_iff_forall_not_mem]
  push Not
  constructor
  · intro h
    obtain ⟨d, hd⟩ := h
    exact ⟨d.target.id, d, hd, rfl⟩
  · intro h
    obtain ⟨_, d, hd, _⟩ := h
    exact ⟨d, hd⟩

private theorem exists_split_filterMap_iff {α β : Type} {f : α → Option β} {l : List α} {b : β}
    {P : β → Prop} :
    (∃ before after, l.filterMap f = before ++ b :: after ∧ ∀ c ∈ before, P c) ↔
      ∃ before a after, l = before ++ a :: after ∧ f a = some b ∧
        ∀ a' ∈ before, ∀ c, f a' = some c → P c := by
  constructor
  · intro h
    obtain ⟨before, after, heq, hbefore⟩ := h
    obtain ⟨l₁, l₂, rfl, rfl, hrest⟩ := List.filterMap_eq_append_iff.mp heq
    obtain ⟨skipped, a, l₃, rfl, hskipped, ha, _⟩ := List.filterMap_eq_cons_iff.mp hrest
    refine ⟨l₁ ++ skipped, a, l₃, (List.append_assoc ..).symm, ha, ?_⟩
    intro a' ha' c hc
    rcases List.mem_append.mp ha' with hmem | hmem
    · exact hbefore c (List.mem_filterMap.mpr ⟨a', hmem, hc⟩)
    · exact nomatch (hskipped a' hmem).symm.trans hc
  · intro h
    obtain ⟨before, a, after, rfl, ha, hbefore⟩ := h
    refine ⟨before.filterMap f, after.filterMap f, ?_, ?_⟩
    · rw [List.filterMap_append, List.filterMap_cons_some ha]
    · intro c hc
      obtain ⟨a', ha', hc⟩ := List.mem_filterMap.mp hc
      exact hbefore a' ha' c hc

/-- A set has for each target the first reference to it. -/
theorem mem_setIn_iff {d : Dependency} :
    d ∈ setIn m ignoreExplicit source body ↔
      d.source = source ∧
        FirstReference m source (body.visited ignoreExplicit) d.target d.index := by
  unfold setIn FirstReference
  rw [Dependency.mem_ofList_iff, records_eq_filterMap, exists_split_filterMap_iff]
  simp only [record_eq_some_iff]
  constructor
  · intro h
    obtain ⟨before, n, after, heq, ⟨hsource, hrefers⟩, hbefore⟩ := h
    refine ⟨hsource, before, n, after, heq, hrefers, ?_⟩
    intro k hk other i hother htarget
    have hno := hbefore k hk ⟨source, other, i⟩ ⟨rfl, hother⟩
    have hsame : Dependency.same ⟨source, other, i⟩ d = true :=
      Dependency.same_iff.mpr ⟨by rw [hsource], htarget⟩
    exact nomatch hsame.symm.trans hno
  · intro h
    obtain ⟨hsource, before, n, after, heq, hrefers, hbefore⟩ := h
    refine ⟨before, n, after, heq, ⟨hsource, hrefers⟩, ?_⟩
    intro k hk e he
    rw [← Bool.not_eq_true, Dependency.same_iff]
    intro hsame
    exact hbefore k hk e.target e.index he.2 hsame.2

theorem nodup_targets_setIn (m : Model) (ignoreExplicit : Bool) (source : Symbol) (body : Object) :
    ((setIn m ignoreExplicit source body).map fun d => d.target.id).Nodup := by
  refine List.pairwise_map.mpr ?_
  refine (Dependency.pairwise_ofList _).imp_of_mem fun {d e} hd he hno htarget => ?_
  have hsource : d.source.id = e.source.id := by
    rw [(mem_setIn_iff.mp hd).1, (mem_setIn_iff.mp he).1]
  exact nomatch (Dependency.same_iff.mpr ⟨hsource, htarget⟩).symm.trans hno

end Sets

theorem setOf_eq_some_iff {x : Resource} {s : Symbol} {set : List Dependency} :
    setOf m ignoreExplicit x = some (s, set) ↔
      ∃ body, x.IsSource m s body ∧ set = setIn m ignoreExplicit s body := by
  unfold setOf
  simp only [Option.bind_eq_some_iff, Option.map_eq_some_iff, Prod.mk.injEq]
  constructor
  · intro h
    obtain ⟨s, hs, body, hbody, rfl, rfl⟩ := h
    exact ⟨body, ⟨hs, body_eq_some_iff.mp hbody⟩, rfl⟩
  · intro h
    obtain ⟨body, hsource, rfl⟩ := h
    exact ⟨s, hsource.symbol, body, hsource.hasBody.body_eq, rfl, rfl⟩

/-- The resource stands for the source of identity `id`, as `own`, and its body has references. -/
structure Gives (m : Model) (ignoreExplicit : Bool) (id : Identity) (x : Resource) (own : Symbol)
    (body : Object) : Prop where
  source : x.IsSource m own body
  same : own.id = id
  depends : Depends m ignoreExplicit own body

/-- Of the resources of the document that give the source of identity `id` a set, `x` is the
last. -/
structure GivesLast (m : Model) (ignoreExplicit : Bool) (id : Identity) (x : Resource)
    (own : Symbol) (body : Object) : Prop extends Gives m ignoreExplicit id x own body where
  last : ∃ k, m.resources[k]? = some x ∧ ∀ (i : Nat) (y : Resource), k < i →
    m.resources[i]? = some y → ∀ other body', ¬ Gives m ignoreExplicit id y other body'

private def offers (m : Model) (ignoreExplicit : Bool) (s : Symbol) (x : Resource) : Bool :=
  (setOf m ignoreExplicit x).any fun e => !e.2.isEmpty && e.1.is s

private theorem offers_iff {s : Symbol} {x : Resource} :
    offers m ignoreExplicit s x = true ↔
      ∃ own body, Gives m ignoreExplicit s.id x own body := by
  unfold offers
  simp only [Option.any_eq_true, Prod.exists, setOf_eq_some_iff, Bool.and_eq_true,
    Bool.not_eq_true', List.isEmpty_eq_false_iff, Symbol.is, beq_iff_eq]
  constructor
  · intro h
    obtain ⟨own, set, ⟨body, hsource, rfl⟩, hne, hid⟩ := h
    exact ⟨own, body, hsource, hid, setIn_ne_nil_iff.mp hne⟩
  · intro h
    obtain ⟨own, body, hsource, hid, hdepends⟩ := h
    exact ⟨own, _, ⟨body, hsource, rfl⟩, setIn_ne_nil_iff.mpr hdepends, hid⟩

private theorem get?_mapOf_eq (s : Symbol) :
    (mapOf m ignoreExplicit).get? s =
      ((m.resources.reverse.find? (offers m ignoreExplicit s)).bind
        (setOf m ignoreExplicit)).map Prod.snd := by
  unfold mapOf
  rw [DependencyMap.get?_foldl_put, DependencyMap.get?, ← List.filter_reverse,
    ← List.filterMap_reverse, List.find?_filter, List.find?_filterMap]
  simp only [Bool.decide_and, Bool.decide_eq_true]
  rfl

/-- What is found for a source is the set of the last resource that gives it one. -/
theorem get?_mapOf_eq_some_iff {s : Symbol} {set : List Dependency} :
    (mapOf m ignoreExplicit).get? s = some set ↔
      ∃ x own body, GivesLast m ignoreExplicit s.id x own body ∧
        set = setIn m ignoreExplicit own body := by
  rw [get?_mapOf_eq]
  simp only [Option.map_eq_some_iff, Option.bind_eq_some_iff, find?_reverse_eq_some_iff,
    offers_iff, Prod.exists, setOf_eq_some_iff]
  constructor
  · intro h
    obtain ⟨own, _, ⟨x, ⟨k, hk, ⟨own', body', hgives⟩, hlast⟩, body, hsource, rfl⟩, rfl⟩ := h
    obtain rfl : own' = own := Option.some.inj (hgives.source.symbol.symm.trans hsource.symbol)
    obtain rfl : body' = body :=
      Option.some.inj (hgives.source.hasBody.body_eq.symm.trans hsource.hasBody.body_eq)
    refine ⟨x, own', body', ⟨hgives, k, hk, ?_⟩, rfl⟩
    intro i y hi hy other body'' hother
    exact hlast i y hi hy ⟨other, body'', hother⟩
  · intro h
    obtain ⟨x, own, body, ⟨hgives, k, hk, hlast⟩, rfl⟩ := h
    refine ⟨own, _, ⟨x, ⟨k, hk, ⟨own, body, hgives⟩, ?_⟩, body, hgives.source, rfl⟩, rfl⟩
    intro i y hi hy hoffers
    obtain ⟨other, body', hother⟩ := hoffers
    exact hlast i y hi hy other body' hother

theorem exists_get?_mapOf_iff {s : Symbol} :
    (∃ set, (mapOf m ignoreExplicit).get? s = some set) ↔
      ∃ x, .resourceDecl x ∈ m.program.preorder ∧
        ∃ own body, Gives m ignoreExplicit s.id x own body := by
  constructor
  · intro h
    obtain ⟨set, hset⟩ := h
    obtain ⟨x, own, body, ⟨hgives, k, hk, _⟩, _⟩ := get?_mapOf_eq_some_iff.mp hset
    exact ⟨x, Model.mem_resources_iff.mp (List.mem_of_getElem? hk), own, body, hgives⟩
  · intro h
    obtain ⟨x, hx, hgives⟩ := h
    have hfound : (m.resources.reverse.find? (offers m ignoreExplicit s)).isSome := by
      rw [List.find?_isSome]
      exact ⟨x, List.mem_reverse.mpr (Model.mem_resources_iff.mpr hx), offers_iff.mpr hgives⟩
    obtain ⟨y, hy⟩ := Option.isSome_iff_exists.mp hfound
    have hyoffers : offers m ignoreExplicit s y = true := List.find?_some hy
    obtain ⟨e, he, _⟩ := (Option.any_eq_true _ _).mp hyoffers
    refine ⟨e.2, ?_⟩
    rw [get?_mapOf_eq, hy, Option.bind_some, he, Option.map_some]

end ReferenceScan

end InfraLint
