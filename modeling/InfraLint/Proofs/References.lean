import InfraLint.Inference.ReferenceScan
import InfraLint.Proofs.Findings

/-!
What a scan of references comes to. In a complete document a scan fails in one way only: a value
that it is to search is not there. Otherwise its map can be written down node by node, property
by property and resource by resource.
-/
namespace InfraLint

namespace ReferenceScan

variable {m : Model}

/-- What a node refers to by what it stands for itself. -/
def plainRecord (m : Model) (source : Symbol) (n : Node) : Option Dependency :=
  (m.symbolOf (some n)).bind fun target =>
    if target.isEntity && !target.is source then some ⟨source, target, none⟩ else none

/-- What one node below a searched property refers to. -/
def record (m : Model) (source : Symbol) (n : Node) : Option Dependency :=
  match n with
  | .arrayAccess x =>
    (m.symbolOf x.base).bind fun target =>
      if target.isEntity then some ⟨source, target, x.index⟩ else none
  | n => plainRecord m source n

theorem record_of_not_arrayAccess {source : Symbol} {n : Node}
    (h : ∀ x, n = .arrayAccess x → False) : record m source n = plainRecord m source n := by
  unfold record
  split
  · rename_i x
    exact absurd rfl (h x)
  · rfl

theorem outcome_ofNode (source : Symbol) (n : Node) :
    (ofNode m source n).outcome = .ok (record m source n).toList := by
  unfold ofNode Audit.ask
  split
  · rename_i x
    unfold record
    cases ht : m.symbolOf x.base with
    | none => simp [ht, Except.bind]
    | some target => cases he : target.isEntity <;> simp [ht, he, Except.bind]
  · rename_i hno
    rw [record_of_not_arrayAccess hno]
    unfold plainRecord
    cases ht : m.symbolOf (some n) with
    | none => simp [Except.bind]
    | some target =>
      cases he : target.isEntity <;> cases hs : target.is source <;> simp [he, hs, Except.bind]

theorem outcome_ofValue (source : Symbol) (n : Node) :
    (ofValue m source (some n)).outcome = .ok (n.preorder.filterMap (record m source)) := by
  unfold ofValue
  rw [Journal.outcome_forEach_ok fun k _ => outcome_ofNode source k, Node.walk_eq_preorder,
    List.filterMap_eq_flatMap_toList]

theorem outcome_ofValue_none (source : Symbol) :
    (ofValue m source none).outcome = .error .absentTree := rfl

end ReferenceScan

instance (name : String) (p : Property) : Decidable (p.Named name) :=
  decidable_of_iff (p.key.map Key.text = some (some name)) (by simp [Property.Named])

namespace Property

/-- Whether a scan searches the property. -/
def Searched (ignoreExplicit : Bool) (p : Property) : Prop :=
  ¬ (ignoreExplicit = true ∧ p.Named dependsOnKey)

instance (ignoreExplicit : Bool) (p : Property) : Decidable (p.Searched ignoreExplicit) :=
  inferInstanceAs (Decidable (¬ _))

end Property

/-- The properties of a body that a scan searches. -/
def Object.searched (ignoreExplicit : Bool) (body : Object) : List Property :=
  body.properties.reduceOption.filter fun p => p.Searched ignoreExplicit

theorem Object.mem_searched_iff {ignoreExplicit : Bool} {body : Object} {p : Property} :
    p ∈ body.searched ignoreExplicit ↔ some p ∈ body.properties ∧ p.Searched ignoreExplicit := by
  unfold searched
  rw [List.mem_filter, List.reduceOption_mem_iff, decide_eq_true_iff]

namespace ReferenceScan

variable {m : Model} {ignoreExplicit : Bool}

theorem passesOver_eq {p : Property} {k : Key} (hk : p.key = some k) :
    passesOver ignoreExplicit (some p) = .ok (!decide (p.Searched ignoreExplicit)) := by
  cases ignoreExplicit with
  | false => simp [passesOver, Property.Searched]
  | true =>
    unfold passesOver Property.Searched
    rw [if_pos rfl, Property.keyTextAt_eq_ok hk]
    by_cases hname : k.text = some dependsOnKey <;>
      simp [Property.named_iff hk, hname, Except.map]

theorem outcome_ofProperty (source : Symbol) {p : Property} {k : Key} (hk : p.key = some k) :
    (ofProperty m ignoreExplicit source (some p)).outcome =
      if p.Searched ignoreExplicit then
        match p.value with
        | some n => .ok (n.preorder.filterMap (record m source))
        | none => .error .absentTree
      else .ok [] := by
  unfold ofProperty
  rw [passesOver_eq hk]
  by_cases hs : p.Searched ignoreExplicit
  · cases hv : p.value with
    | none => simp [hs, hv, Except.bind, outcome_ofValue_none]
    | some n => simp [hs, hv, Except.bind, outcome_ofValue]
  · simp [hs, Except.bind]

/-- The records of the references in the searched properties of a body. -/
def records (m : Model) (ignoreExplicit : Bool) (source : Symbol) (body : Object) :
    List Dependency :=
  (body.searched ignoreExplicit).flatMap fun p =>
    (p.value.elim [] Node.preorder).filterMap (record m source)

/-- The value of a property that a scan is to search is not there. -/
def Gap (ignoreExplicit : Bool) (body : Object) : Prop :=
  ∃ p ∈ body.searched ignoreExplicit, p.value = none

instance (ignoreExplicit : Bool) (body : Object) : Decidable (Gap ignoreExplicit body) :=
  inferInstanceAs (Decidable (∃ p ∈ body.searched ignoreExplicit, p.value = none))

private theorem flatMap_searched {β : Type} (g : Property → List β)
    (properties : List (Option Property)) :
    (properties.flatMap fun place => place.elim [] fun p =>
        if p.Searched ignoreExplicit then g p else []) =
      (properties.reduceOption.filter fun p => p.Searched ignoreExplicit).flatMap g := by
  induction properties with
  | nil => rfl
  | cons place rest ih =>
    cases place with
    | none => exact ih
    | some p =>
      rw [List.flatMap_cons, ih, List.reduceOption_cons_of_some, List.filter_cons]
      by_cases hs : p.Searched ignoreExplicit
      · simp [hs]
      · simp [hs]

theorem outcome_properties_ok (source : Symbol) {body : Object}
    (hkeyed : Property.AllKeyed body.properties) (hgap : ¬ Gap ignoreExplicit body) :
    (Journal.forEach (ofProperty m ignoreExplicit source) body.properties).outcome =
      .ok (records m ignoreExplicit source body) := by
  have hplaces : ∀ place ∈ body.properties, (ofProperty m ignoreExplicit source place).outcome =
      .ok (place.elim [] fun p => if p.Searched ignoreExplicit then
        (p.value.elim [] Node.preorder).filterMap (record m source) else []) := by
    intro place hplace
    obtain ⟨p, k, rfl, hk⟩ := hkeyed place hplace
    rw [outcome_ofProperty source hk]
    by_cases hs : p.Searched ignoreExplicit
    · cases hv : p.value with
      | none => exact absurd ⟨p, Object.mem_searched_iff.mpr ⟨hplace, hs⟩, hv⟩ hgap
      | some n => simp [hs, hv]
    · simp [hs]
  rw [Journal.outcome_forEach_ok hplaces, flatMap_searched]
  rfl

theorem outcome_properties_error (source : Symbol) {body : Object}
    (hkeyed : Property.AllKeyed body.properties) (hgap : Gap ignoreExplicit body) :
    (Journal.forEach (ofProperty m ignoreExplicit source) body.properties).outcome =
      .error .absentTree := by
  apply Journal.outcome_forEach_error
  · intro place hplace
    obtain ⟨p, k, rfl, hk⟩ := hkeyed place hplace
    rw [outcome_ofProperty source hk]
    split
    · split
      · exact Or.inr ⟨_, rfl⟩
      · exact Or.inl rfl
    · exact Or.inr ⟨_, rfl⟩
  · obtain ⟨p, hp, hv⟩ := hgap
    obtain ⟨hmem, hs⟩ := Object.mem_searched_iff.mp hp
    obtain ⟨p', k, heq, hk⟩ := hkeyed _ hmem
    obtain rfl := Option.some.inj heq
    refine ⟨some p, hmem, ?_⟩
    rw [outcome_ofProperty source hk, if_pos hs, hv]

/-- The set of records of one resource, under its symbol, if it has a symbol and a body. -/
def setOf (m : Model) (ignoreExplicit : Bool) (x : Resource) :
    Option (Symbol × List Dependency) :=
  (m.symbolOf (some (.resourceDecl x))).bind fun source =>
    x.body.map fun body =>
      (source, Dependency.ofList (records m ignoreExplicit source body))

/-- The map that gives each source the last nonempty one of its sets. -/
def mapOf (m : Model) (ignoreExplicit : Bool) : DependencyMap :=
  ((m.resources.filterMap (setOf m ignoreExplicit)).filter fun e => !e.2.isEmpty).foldl
    (fun map e => map.put e.1 e.2) []

/-- A scan cannot search the resource: it has a symbol, and a value to be searched in its body is
not there. -/
def Unsearchable (m : Model) (ignoreExplicit : Bool) (x : Resource) : Prop :=
  (m.symbolOf (some (.resourceDecl x))).isSome ∧
    ∃ body, HasBody x.value body ∧ Gap ignoreExplicit body

theorem unsearchable_iff {x : Resource} : Unsearchable m ignoreExplicit x ↔
    (m.symbolOf (some (.resourceDecl x))).isSome ∧ ∃ body ∈ x.body, Gap ignoreExplicit body := by
  unfold Unsearchable
  simp only [← body_eq_some_iff]
  rfl

instance (m : Model) (ignoreExplicit : Bool) (x : Resource) :
    Decidable (Unsearchable m ignoreExplicit x) :=
  decidable_of_iff _ unsearchable_iff.symm

theorem outcome_ofResource_ok (hk : m.program.Keyed) {x : Resource}
    (hx : .resourceDecl x ∈ m.program.preorder) (hgap : ¬ Unsearchable m ignoreExplicit x) :
    (ofResource m ignoreExplicit x).outcome = .ok (setOf m ignoreExplicit x).toList := by
  unfold ofResource setOf Audit.ask
  cases hsource : m.symbolOf (some (.resourceDecl x)) with
  | none => simp [hsource, Except.bind]
  | some source =>
    cases hbody : x.body with
    | none => simp [hsource, Except.bind]
    | some body =>
      have hhas : HasBody x.value body := body_eq_some_iff.mp hbody
      have hkeyed := hk _ (Resource.body_mem_preorder hx hhas)
      have hno : ¬ Gap ignoreExplicit body := by
        intro h
        exact hgap ⟨by rw [hsource]; rfl, body, hhas, h⟩
      simp [hsource, Except.bind, outcome_properties_ok source hkeyed hno]

theorem outcome_ofResource_error (hc : m.program.Complete) {x : Resource}
    (hx : .resourceDecl x ∈ m.program.preorder) (hgap : Unsearchable m ignoreExplicit x) :
    (ofResource m ignoreExplicit x).outcome = .error .absentTree := by
  obtain ⟨hsome, body, hhas, hno⟩ := hgap
  obtain ⟨source, hsource⟩ := Option.isSome_iff_exists.mp hsome
  have hbody : x.body = some body := hhas.body_eq
  have hkeyed := hc.allKeyed (Resource.body_mem_preorder hx hhas)
  unfold ofResource Audit.ask
  simp [Except.bind, hsource, hbody, outcome_properties_error source hkeyed hno]

/-- A scan of a document with keys whose resources can all be searched gives its map. -/
theorem outcome_scan_of_keyed (hk : m.program.Keyed)
    (hgap : ∀ x ∈ m.resources, ¬ Unsearchable m ignoreExplicit x) :
    (scan m ignoreExplicit).outcome = .ok (mapOf m ignoreExplicit) := by
  have hall : ∀ x ∈ m.resources, (ofResource m ignoreExplicit x).outcome =
      .ok (setOf m ignoreExplicit x).toList :=
    fun x hx => outcome_ofResource_ok hk (Model.mem_resources_iff.mp hx) (hgap x hx)
  unfold scan Audit.ask mapOf
  rw [List.filterMap_eq_flatMap_toList]
  simp [Except.bind, Journal.outcome_forEach_ok hall]

theorem outcome_scan_ok (hc : m.program.Complete)
    (hgap : ∀ x ∈ m.resources, ¬ Unsearchable m ignoreExplicit x) :
    (scan m ignoreExplicit).outcome = .ok (mapOf m ignoreExplicit) :=
  outcome_scan_of_keyed hc.keyed hgap

/-- One resource that cannot be searched makes the whole scan fail. -/
theorem outcome_scan_error (hc : m.program.Complete)
    (hgap : ∃ x ∈ m.resources, Unsearchable m ignoreExplicit x) :
    (scan m ignoreExplicit).outcome = .error .absentTree := by
  have hall : (Journal.forEach (ofResource m ignoreExplicit) m.resources).outcome =
      .error .absentTree := by
    apply Journal.outcome_forEach_error
    · intro x hx
      have hmem := Model.mem_resources_iff.mp hx
      by_cases h : Unsearchable m ignoreExplicit x
      · exact Or.inl (outcome_ofResource_error hc hmem h)
      · exact Or.inr ⟨_, outcome_ofResource_ok hc.keyed hmem h⟩
    · obtain ⟨x, hx, h⟩ := hgap
      exact ⟨x, hx, outcome_ofResource_error hc (Model.mem_resources_iff.mp hx) h⟩
  unfold scan Audit.ask
  simp [Except.bind, hall]

/-- A property that is looked at is passed over just if it is not searched. -/
theorem eq_of_passesOver {p : Property} {passed : Bool}
    (h : passesOver ignoreExplicit (some p) = .ok passed) :
    passed = !decide (p.Searched ignoreExplicit) := by
  cases hk : p.key with
  | some k =>
    rw [passesOver_eq hk] at h
    exact (Except.ok.inj h).symm
  | none =>
    cases ignoreExplicit with
    | false => simpa [passesOver, Property.Searched] using h.symm
    | true =>
      simp only [passesOver, Property.keyTextAt, Property.keyText, hk] at h
      cases h

theorem eq_of_outcome_ofProperty {source : Symbol} {place : Option Property}
    {found : List Dependency}
    (h : (ofProperty m ignoreExplicit source place).outcome = .ok found) :
    found = place.elim [] fun p => if p.Searched ignoreExplicit then
      (p.value.elim [] Node.preorder).filterMap (record m source) else [] := by
  unfold ofProperty at h
  simp only [Journal.outcome_bind, Journal.outcome_lift] at h
  cases hpass : passesOver ignoreExplicit place with
  | error f =>
    rw [hpass] at h
    exact nomatch h
  | ok passed =>
    rw [hpass] at h
    cases place with
    | none =>
      -- Nothing is passed over unread, and what is not there cannot be searched.
      cases ignoreExplicit with
      | true => exact nomatch hpass
      | false =>
        obtain rfl := Except.ok.inj hpass
        exact nomatch h
    | some p =>
      rw [eq_of_passesOver hpass] at h
      by_cases hs : p.Searched ignoreExplicit
      · cases hv : p.value with
        | none => simp [hs, hv, Except.bind, outcome_ofValue_none] at h
        | some n => simpa [hs, hv, Except.bind, outcome_ofValue] using h.symm
      · simpa [hs, Except.bind] using h.symm

theorem eq_of_outcome_ofResource {x : Resource} {sets : List (Symbol × List Dependency)}
    (h : (ofResource m ignoreExplicit x).outcome = .ok sets) :
    sets = (setOf m ignoreExplicit x).toList := by
  unfold ofResource Audit.ask at h
  unfold setOf
  cases hsource : m.symbolOf (some (.resourceDecl x)) with
  | none => simpa [hsource, Except.bind] using h.symm
  | some source =>
    cases hbody : x.body with
    | none => simpa [hsource, hbody, Except.bind] using h.symm
    | some body =>
      cases hproperties :
          (Journal.forEach (ofProperty m ignoreExplicit source) body.properties).outcome with
      | error f => simp [hsource, hbody, hproperties, Except.bind] at h
      | ok found =>
        have hfound := Journal.eq_flatMap_of_outcome_forEach_ok
          (fun place _ _ hplace => eq_of_outcome_ofProperty hplace) hproperties
        have hrecords : found = records m ignoreExplicit source body :=
          hfound.trans (flatMap_searched _ body.properties)
        simpa [hsource, hbody, hproperties, Except.bind, hrecords] using h.symm

/-- Whatever is absent from a document, a scan that succeeds gives its map. -/
theorem eq_mapOf_of_outcome_scan {map : DependencyMap}
    (h : (scan m ignoreExplicit).outcome = .ok map) : map = mapOf m ignoreExplicit := by
  unfold scan Audit.ask at h
  unfold mapOf
  cases hsets : (Journal.forEach (ofResource m ignoreExplicit) m.resources).outcome with
  | error f => simp [hsets, Except.bind] at h
  | ok sets =>
    have hall := Journal.eq_flatMap_of_outcome_forEach_ok
      (fun x _ _ hx => eq_of_outcome_ofResource hx) hsets
    rw [List.filterMap_eq_flatMap_toList, ← hall]
    simpa [hsets, Except.bind] using h.symm

end ReferenceScan

end InfraLint
