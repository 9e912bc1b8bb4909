import InfraLint.Proofs.Findings

/-!
Where an audit stops. Parts of a document may be absent at any place, and almost everywhere that
does no harm: what has no body, no list or no symbol is passed over. Main statement: an audit fails
just if some resource has in its body a property that cannot be read where its list is searched
for, or a list with an absent entry that the audit has a reason to go through.
-/
namespace InfraLint

/-- Something is asked of a property, of a key or of an entry that is absent. -/
def Fault.OfAbsentPart (f : Fault) : Prop :=
  f = .absentProperty ∨ f = .absentKey ∨ f = .absentHolder

theorem Fault.OfAbsentPart.message_eq {f : Fault} (h : f.OfAbsentPart) :
    ∃ member, f.message = lackMessage Node.absentName member := by
  rcases h with rfl | rfl | rfl
  · exact ⟨"try_get_key_text", rfl⟩
  · exact ⟨"value", rfl⟩
  · exact ⟨"value", rfl⟩

/-- An audit cannot get past the resource. -/
inductive Resource.Obstructs (m : Model) (map : DependencyMap) (x : Resource) : Prop
  /-- An absent property, or one without key, comes before the list. -/
  | property (body : Object) (hbody : HasBody x.value body)
      (hblocked : Property.Blocked dependsOnKey body.properties)
  /-- An entry of the list is absent, and the map has a set for the resource. -/
  | entry (a : ArrayLiteral) (hlist : x.HasList a) (habsent : none ∈ a.items) (s : Symbol)
      (hs : m.symbolOf (some (.resourceDecl x)) = some s) (records : List Dependency)
      (hrecords : map.get? s = some records)

namespace Resource

variable {x : Resource} {m : Model} {map : DependencyMap}

theorem not_readable_iff :
    ¬ x.Readable ↔
      ∃ body, HasBody x.value body ∧ Property.Blocked dependsOnKey body.properties := by
  unfold Readable
  push Not
  rfl

theorem explicitEntries_of_not_readable (h : ¬ x.Readable) :
    ∃ f, explicitEntries x.body = .error f ∧ f.OfAbsentPart := by
  obtain ⟨body, hbody, hblocked⟩ := not_readable_iff.mp h
  obtain ⟨f, hf⟩ := Property.exists_first_eq_error_iff.mpr hblocked
  have hbody' : x.body = some body := hbody.body_eq
  refine ⟨f, ?_, (Property.first_eq_error hf).imp_right Or.inl⟩
  simp only [explicitEntries, hbody', Object.property, hf]

theorem HasList.items_eq {a b : ArrayLiteral} (hr : x.Readable) (ha : x.HasList a)
    (hb : x.HasList b) : a.items = b.items := by
  have heq := (explicitEntries_of_hasList hr ha).symm.trans (explicitEntries_of_hasList hr hb)
  exact Option.some.inj (Except.ok.inj heq)

theorem obstructs_of_not_readable (h : ¬ x.Readable) : x.Obstructs m map := by
  obtain ⟨body, hbody, hblocked⟩ := not_readable_iff.mp h
  exact .property body hbody hblocked

theorem Obstructs.entries (h : x.Obstructs m map) (hr : x.Readable) :
    ∃ a, x.HasList a ∧ none ∈ a.items ∧ ∃ s records,
      m.symbolOf (some (.resourceDecl x)) = some s ∧ map.get? s = some records := by
  cases h with
  | property body hbody hblocked => exact absurd hblocked (hr body hbody)
  | entry a hlist habsent s hs records hrecords =>
    exact ⟨a, hlist, habsent, s, records, hs, hrecords⟩

end Resource

namespace Redundancy

variable {m : Model} {map : DependencyMap} {x : Resource}

theorem outcome_places_eq_error_iff {source : Symbol} {records : List Dependency}
    {places : List (Option Item)} {f : Fault} :
    (Journal.forEach (ofPlace m source records) places).outcome = .error f ↔
      none ∈ places ∧ f = .absentHolder := by
  have hplaces : ∀ place ∈ places,
      (ofPlace m source records place).outcome = .error .absentHolder ∨
        ∃ found, (ofPlace m source records place).outcome = .ok found := by
    intro place _
    cases place with
    | none => exact Or.inl rfl
    | some item => exact Or.inr ⟨_, outcome_ofItem source records item⟩
  constructor
  · intro h
    obtain ⟨place, hmem, hplace⟩ := Journal.exists_of_outcome_forEach_error h
    cases place with
    | none => exact ⟨hmem, (Except.error.inj hplace).symm⟩
    | some item => exact nomatch (outcome_ofItem source records item).symm.trans hplace
  · rintro ⟨habsent, rfl⟩
    exact Journal.outcome_forEach_error hplaces ⟨none, habsent, rfl⟩

/-- What becomes of a resource with a list: nothing, unless the map has a set for it. -/
theorem outcome_ofResource_of_hasList (hr : x.Readable) {a : ArrayLiteral} (ha : x.HasList a) :
    (∃ s records, m.symbolOf (some (.resourceDecl x)) = some s ∧ map.get? s = some records ∧
        (ofResource m map x).outcome =
          (Journal.forEach (ofPlace m s records) a.items).outcome) ∨
      ((∀ s, m.symbolOf (some (.resourceDecl x)) = some s → map.get? s = none) ∧
        (ofResource m map x).outcome = .ok []) := by
  have hentries := Resource.explicitEntries_of_hasList hr ha
  unfold ofResource Audit.ask
  cases hs : m.symbolOf (some (.resourceDecl x)) with
  | none =>
    refine Or.inr ⟨nofun, ?_⟩
    simp [hentries, hs, Except.bind]
  | some s =>
    cases hrecords : map.get? s with
    | none =>
      refine Or.inr ⟨fun t ht => ?_, ?_⟩
      · rw [← Option.some.inj ht, hrecords]
      · simp [hentries, hs, hrecords, Except.bind]
    | some records =>
      refine Or.inl ⟨s, records, rfl, hrecords, ?_⟩
      simp [hentries, hs, hrecords, Except.bind]

theorem outcome_ofResource_of_not_hasList (hr : x.Readable) (hno : ∀ a, ¬ x.HasList a) :
    (ofResource m map x).outcome = .ok [] := by
  unfold ofResource
  simp [Resource.explicitEntries_of_not_hasList hr hno, Except.bind]

theorem outcome_ofResource_listing (hr : x.Readable) {a : ArrayLiteral} (ha : x.HasList a) :
    (x.Obstructs m map ∧ (ofResource m map x).outcome = .error .absentHolder) ∨
      (¬ x.Obstructs m map ∧ ∃ found, (ofResource m map x).outcome = .ok found) := by
  rcases outcome_ofResource_of_hasList hr ha with ⟨s, records, hs, hrecords, heq⟩ | ⟨hno, heq⟩
  · rw [heq]
    by_cases habsent : none ∈ a.items
    · exact Or.inl ⟨.entry a ha habsent s hs records hrecords,
        outcome_places_eq_error_iff.mpr ⟨habsent, rfl⟩⟩
    · refine Or.inr ⟨fun h => ?_, ?_⟩
      · obtain ⟨b, hb, hnone, _⟩ := h.entries hr
        exact habsent (ha.items_eq hr hb ▸ hnone)
      · cases hplaces : (Journal.forEach (ofPlace m s records) a.items).outcome with
        | error f => exact absurd (outcome_places_eq_error_iff.mp hplaces).1 habsent
        | ok found => exact ⟨found, rfl⟩
  · refine Or.inr ⟨fun h => ?_, [], heq⟩
    obtain ⟨_, _, _, s, records, hs, hrecords⟩ := h.entries hr
    exact nomatch (hno s hs).symm.trans hrecords

/-- The audit of a resource fails if the resource obstructs it, and succeeds otherwise. -/
theorem outcome_ofResource_cases (m : Model) (map : DependencyMap) (x : Resource) :
    (x.Obstructs m map ∧ ∃ f, (ofResource m map x).outcome = .error f ∧ f.OfAbsentPart) ∨
      (¬ x.Obstructs m map ∧ ∃ found, (ofResource m map x).outcome = .ok found) := by
  by_cases hr : x.Readable
  · by_cases hlist : ∃ a, x.HasList a
    · obtain ⟨a, ha⟩ := hlist
      refine (outcome_ofResource_listing hr ha).imp_left fun h => ⟨h.1, .absentHolder, h.2, ?_⟩
      exact Or.inr (Or.inr rfl)
    · refine Or.inr ⟨fun h => ?_, [],
        outcome_ofResource_of_not_hasList hr fun a ha => hlist ⟨a, ha⟩⟩
      obtain ⟨a, ha, _⟩ := h.entries hr
      exact hlist ⟨a, ha⟩
  · obtain ⟨f, hf, hkind⟩ := Resource.explicitEntries_of_not_readable hr
    refine Or.inl ⟨Resource.obstructs_of_not_readable hr, f, ?_, hkind⟩
    unfold ofResource
    simp [hf, Except.bind]

theorem find_eq_outcome (m : Model) (map : DependencyMap) :
    find m map = (Journal.forEach (ofResource m map) m.resources).outcome := by
  unfold find audit Audit.ask
  simp [Except.bind]

theorem exists_lists_of_mem_ofResource {found : List Redundancy}
    (hfound : (ofResource m map x).outcome = .ok found) {r : Redundancy} (hr : r ∈ found) :
    ∃ k, x.Lists k r.entry := by
  have hreadable : x.Readable := by
    by_contra hno
    obtain ⟨f, hf, _⟩ := Resource.explicitEntries_of_not_readable hno
    unfold ofResource at hfound
    simp [hf, Except.bind] at hfound
  by_cases hlist : ∃ a, x.HasList a
  · obtain ⟨a, ha⟩ := hlist
    rcases @outcome_ofResource_of_hasList m map x hreadable a ha with
      ⟨s, records, _, _, heq⟩ | ⟨_, heq⟩
    · rw [heq] at hfound
      obtain ⟨place, hplace, bs, hbs, hrbs⟩ :=
        Journal.exists_of_mem_outcome_forEach_ok hfound hr
      cases place with
      | none => cases hbs
      | some item =>
        obtain rfl := Except.ok.inj ((outcome_ofItem s records item).symm.trans hbs)
        obtain rfl := (ofEntry_eq_some_iff.mp (Option.mem_toList.mp hrbs)).1
        obtain ⟨k, hk⟩ := List.mem_iff_getElem?.mp hplace
        exact ⟨k, a, ha, hk⟩
    · obtain rfl := Except.ok.inj (heq.symm.trans hfound)
      exact absurd hr List.not_mem_nil
  · rw [outcome_ofResource_of_not_hasList hreadable fun a ha => hlist ⟨a, ha⟩] at hfound
    obtain rfl := Except.ok.inj hfound
    exact absurd hr List.not_mem_nil

/-- Whatever is absent from a document, an audit that succeeds finds entries of its resources. -/
theorem exists_lists_of_mem_found {found : List Redundancy} (hfound : find m map = .ok found)
    {r : Redundancy} (hr : r ∈ found) :
    ∃ x k, .resourceDecl x ∈ m.program.preorder ∧ x.Lists k r.entry := by
  rw [find_eq_outcome] at hfound
  obtain ⟨x, hx, found', hfound', hr'⟩ := Journal.exists_of_mem_outcome_forEach_ok hfound hr
  obtain ⟨k, hk⟩ := exists_lists_of_mem_ofResource hfound' hr'
  exact ⟨x, k, Model.mem_resources_iff.mp hx, hk⟩

/-- An audit fails just if some resource obstructs it; it fails then because something is asked of
a part that is absent. -/
theorem find_fails_iff_obstructed (m : Model) (map : DependencyMap) :
    ((∃ f, find m map = .error f) ↔
      ∃ x, .resourceDecl x ∈ m.program.preorder ∧ x.Obstructs m map) ∧
    ((∃ found, find m map = .ok found) ↔
      ¬ ∃ x, .resourceDecl x ∈ m.program.preorder ∧ x.Obstructs m map) ∧
    ∀ f, find m map = .error f →
      f.OfAbsentPart ∧ ∃ member, f.message = Fault.lackMessage Node.absentName member := by
  have hfails : (∃ f, find m map = .error f) ↔
      ∃ x, .resourceDecl x ∈ m.program.preorder ∧ x.Obstructs m map := by
    rw [find_eq_outcome, Journal.exists_outcome_forEach_error_iff]
    refine exists_congr fun x => and_congr Model.mem_resources_iff ?_
    rcases outcome_ofResource_cases m map x with ⟨hyes, f, hf, _⟩ | ⟨hno, found, hfound⟩
    · exact ⟨fun _ => hyes, fun _ => ⟨f, hf⟩⟩
    · refine ⟨fun h => ?_, fun h => absurd h hno⟩
      obtain ⟨f, hf⟩ := h
      exact nomatch hfound.symm.trans hf
  refine ⟨hfails, ?_, fun f hf => ?_⟩
  · rw [← hfails]
    cases find m map with
    | error f => simp
    | ok found => simp
  · rw [find_eq_outcome] at hf
    obtain ⟨x, _, hx⟩ := Journal.exists_of_outcome_forEach_error hf
    rcases outcome_ofResource_cases m map x with ⟨_, f', hf', hkind⟩ | ⟨_, found, hfound⟩
    · obtain rfl := Except.error.inj (hx.symm.trans hf')
      exact ⟨hkind, hkind.message_eq⟩
    · exact nomatch hx.symm.trans hfound

end Redundancy

end InfraLint
