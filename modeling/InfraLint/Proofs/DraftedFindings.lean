import InfraLint.Proofs.Analysis
import InfraLint.Proofs.DraftedResources
import InfraLint.Proofs.Maps

/-!
What an analysis reports on a document made by calls, said by names alone. A listed name is
redundant if its last declaration is a single resource or module and an expression used in the
listing declaration starts from the name, where expressions without an index count only if they
lead to another declaration. Main statement: the document can be built, its analysis with
references scanned returns diagnostics, and they are one for each redundant name, in the order of
the declarations and, within a declaration, of its list.
-/
namespace InfraLint

namespace Draft

/-- The declaration of index `p.1` lists the name at index `p.2`, where this is redundant. -/
def RedundantAt (doc : List (Entered × List Made)) (p : Nat × Nat) (name : String) : Prop :=
  ∃ x used k y, doc[p.1]? = some (x, used) ∧ x.listedNames[p.2]? = some name ∧
    LastDeclared doc name k ∧ doc[k]? = some y ∧
    (y.1.kind = .resource ∨ y.1.kind = .module) ∧ y.1.isLoop = false ∧
    ∃ e ∈ used, e.expression.root = name ∧ (e.expression.isElement = true ∨ k ≠ p.1)

/-- The diagnostic is about the entry of index `p.2` in the list of the declaration of index
`p.1`, which is a reference to the name, and it names the name. -/
structure Reports (settings : RuleSettings) (d : Draft) (p : Nat × Nat) (name : String)
    (x : Diagnostic) : Prop where
  entry : ∃ r item, d.declarations[p.1]? = some (.resourceDecl r) ∧ r.Lists p.2 item ∧
    References name item ∧ x.span = item.origin.span ∧
    x.fixes = [Fix.removal Rule.removalTitle item.origin.span]
  level : x.level = settings.level
  code : x.code = Rule.redundancyTitle.code
  message : x.message = Rule.redundancyMessage name
  docUri : x.docUri = some (Rule.redundancy (.fixed []) settings []).docUri

theorem Declares.isCollection {x : Entered} {n : Node} (h : Declares x n) (id : Identity) :
    (n.symbol id).isCollection = x.isLoop :=
  h.collection (n.symbol id) (h.symbol_kind id) rfl

variable {doc : List (Entered × List Made)} {d : Draft} {maker : Nat} {m : Model}

/-- Where the last declaration of a name is looked for, a mention leads there if it is of that
name and may lead there. -/
theorem Sound.exists_refer_iff (h : Sound doc [] d) {k j : Nat} {n : Node} {name : String}
    (hn : d.declarations[k]? = some n) (hlast : LastDeclared doc name k) {source : Symbol}
    (hsource : source.id = ⟨maker, j⟩) {mention : String × Bool} :
    (∃ target, refer (d.latestFirst maker) source mention = some target ∧
        target.id = ⟨maker, k⟩) ↔
      (n.symbol ⟨maker, k⟩).isEntity = true ∧ mention.1 = name ∧ (mention.2 = true ∨ k ≠ j) := by
  simp only [refer_eq_some_iff, h.latest?_eq_some_iff]
  constructor
  · intro h'
    obtain ⟨_, ⟨⟨k', n', hn', rfl, ⟨e, he, hname⟩, hlast'⟩, hentity, hother⟩, hid⟩ := h'
    obtain rfl : k' = k := (Identity.mk.inj hid).2
    obtain rfl := Option.some.inj (hn'.symm.trans hn)
    obtain ⟨⟨e', he', hname'⟩, _⟩ := hlast
    obtain rfl := Option.some.inj (he.symm.trans he')
    refine ⟨hentity, hname.symm.trans hname', hother.imp_right ?_⟩
    rintro hne rfl
    exact hne (by rw [hsource]; rfl)
  · intro h'
    obtain ⟨hentity, rfl, hother⟩ := h'
    refine ⟨n.symbol ⟨maker, k⟩, ⟨⟨k, n, hn, rfl, hlast⟩, hentity, hother.imp_right ?_⟩, rfl⟩
    intro hne heq
    exact hne (Identity.mk.inj (heq.trans hsource)).2

private theorem symbolOf_of_setOf {x : Resource} {e : Symbol × List Dependency}
    (h : ReferenceScan.setOf m true x = some e) :
    m.symbolOf (some (.resourceDecl x)) = some e.1 := by
  obtain ⟨s, hs, hset⟩ := Option.bind_eq_some_iff.mp h
  obtain ⟨_, _, rfl⟩ := Option.map_eq_some_iff.mp hset
  exact hs

/-- The sets of a scan have sources with different identities. -/
theorem Built.nodup_sources (hb : Built d maker m) (h : Sound doc [] d) :
    ((m.resources.filterMap (ReferenceScan.setOf m true)).map fun e => e.1.id).Nodup := by
  have hserial : ∀ (i : Nat) (n : Node) (e : Symbol × List Dependency),
      d.declarations[i]? = some n → n.resource?.bind (ReferenceScan.setOf m true) = some e →
        e.1.id = ⟨maker, i⟩ := by
    intro i n e hn he
    obtain ⟨x, hx, hset⟩ := Option.bind_eq_some_iff.mp he
    obtain rfl := Node.resource?_eq_some_iff.mp hx
    rw [Option.some.inj ((symbolOf_of_setOf hset).symm.trans (hb.declaration i _ hn))]
    rfl
  rw [h.resources_eq hb.program, List.filterMap_filterMap, List.Nodup, List.pairwise_map,
    List.pairwise_filterMap, List.pairwise_iff_getElem]
  intro i j hi hj hlt e he e' he' hid
  rw [hserial i _ e (List.getElem?_eq_getElem hi) he,
    hserial j _ e' (List.getElem?_eq_getElem hj) he'] at hid
  exact absurd (Identity.mk.inj hid).2 hlt.ne

/-- The map of a scan has a target for a resource just where the scan finds it there. -/
theorem Built.inferred_iff (hb : Built d maker m) (h : Sound doc [] d) {r : Resource} {j : Nat}
    (hr : d.declarations[j]? = some (.resourceDecl r)) {body : Object}
    (hbody : HasBody r.value body) {source : Symbol}
    (hsource : m.symbolOf (some (.resourceDecl r)) = some source) {t : Identity} :
    (∃ records, (ReferenceScan.mapOf m true).get? source = some records ∧
        ∃ e ∈ records, e.target.id = t) ↔
      ∃ e ∈ ReferenceScan.records m true source body, e.target.id = t := by
  have hset : ReferenceScan.setOf m true r =
      some (source, Dependency.ofList (ReferenceScan.records m true source body)) := by
    have hbody' : r.body = some body := hbody.body_eq
    rw [ReferenceScan.setOf, hsource, hbody']
    rfl
  have hmem : r ∈ m.resources := by
    rw [h.resources_eq hb.program]
    exact List.mem_filterMap.mpr ⟨_, List.mem_of_getElem? hr, rfl⟩
  rw [← Dependency.exists_target_ofList_iff]
  simp only [ReferenceScan.get?_mapOf (hb.nodup_sources h)]
  constructor
  · intro h'
    obtain ⟨records, ⟨_, x, hx, s, hs, hid⟩, htarget⟩ := h'
    have heq := List.inj_on_of_nodup_map (hb.nodup_sources h) (List.mem_filterMap.mpr ⟨x, hx, hs⟩)
      (List.mem_filterMap.mpr ⟨r, hmem, hset⟩) hid
    rw [(Prod.mk.inj heq).2] at htarget
    exact htarget
  · intro h'
    obtain ⟨e, he, htarget⟩ := h'
    exact ⟨_, ⟨List.ne_nil_of_mem he, r, hmem, source, hset, rfl⟩, e, he, htarget⟩

/-- A scan finds the last declaration of a name in a resource just where an expression used there
refers to it. -/
theorem Built.finds_iff (hb : Built d maker m) (h : Sound doc [] d) {r : Resource} {j k : Nat}
    {e : Entered × List Made} {n : Node} {name : String}
    (hr : d.declarations[j]? = some (.resourceDecl r)) (he : EnteredAs e (.resourceDecl r))
    (hn : d.declarations[k]? = some n) (hlast : LastDeclared doc name k) {body : Object}
    (hbody : HasBody r.value body) {source : Symbol}
    (hsource : m.symbolOf (some (.resourceDecl r)) = some source) :
    (∃ x ∈ ReferenceScan.records m true source body, x.target.id = ⟨maker, k⟩) ↔
      (n.symbol ⟨maker, k⟩).isEntity = true ∧
        ∃ x ∈ e.2, x.expression.root = name ∧ (x.expression.isElement = true ∨ k ≠ j) := by
  have hid : source.id = ⟨maker, j⟩ := by
    rw [Option.some.inj (hsource.symm.trans (hb.declaration j _ hr))]
    rfl
  have htargets := hb.records_targets (List.mem_of_getElem? hr) he hbody source
  calc (∃ x ∈ ReferenceScan.records m true source body, x.target.id = ⟨maker, k⟩)
      ↔ ∃ target ∈ (ReferenceScan.records m true source body).map Dependency.target,
          target.id = ⟨maker, k⟩ := by
        simp
    _ ↔ ∃ mention ∈ e.2.flatMap fun x => x.expression.mentions, ∃ target,
          refer (d.latestFirst maker) source mention = some target ∧
            target.id = ⟨maker, k⟩ := by
        simp only [htargets.mem_iff, List.mem_filterMap]
        constructor
        · intro h'
          obtain ⟨target, ⟨mention, hmention, htarget⟩, hk⟩ := h'
          exact ⟨mention, hmention, target, htarget, hk⟩
        · intro h'
          obtain ⟨mention, hmention, target, htarget, hk⟩ := h'
          exact ⟨target, ⟨mention, hmention, htarget⟩, hk⟩
    _ ↔ (n.symbol ⟨maker, k⟩).isEntity = true ∧ ∃ x ∈ e.2, ∃ mention ∈ x.expression.mentions,
          mention.1 = name ∧ (mention.2 = true ∨ k ≠ j) := by
        simp only [h.exists_refer_iff hn hlast hid, List.mem_flatMap]
        constructor
        · intro h'
          obtain ⟨mention, ⟨x, hx, hmention⟩, hentity, hok⟩ := h'
          exact ⟨hentity, x, hx, mention, hmention, hok⟩
        · intro h'
          obtain ⟨hentity, x, hx, mention, hmention, hok⟩ := h'
          exact ⟨mention, ⟨x, hx, hmention⟩, hentity, hok⟩
    _ ↔ _ := by
        simp only [Expression.exists_mention_iff]

/-- A declaration that lists names is a resource. -/
theorem Declares.exists_resource {x : Entered} {n : Node} (h : Declares x n) {i : Nat}
    {name : String} (hname : x.listedNames[i]? = some name) : ∃ r, n = .resourceDecl r := by
  cases x with
  | resource _ _ _ _ _ =>
    obtain ⟨r, hr, _⟩ := h.resource _ _ _ _ _ rfl
    exact ⟨r, hr⟩
  | _ => exact nomatch hname

/-- A resource of the document lists a bare reference for each name that it was entered with. -/
theorem Sound.listed (h : Sound doc [] d) {r : Resource} {e : Entered × List Made}
    (hr : .resourceDecl r ∈ d.declarations) (he : EnteredAs e (.resourceDecl r)) :
    List.Forall₂ References e.1.listedNames r.listed := by
  obtain ⟨properties, dependsOn, hresource, hnames, _⟩ := he.declares.resourceOf
  rw [hnames]
  exact hresource.listed h.complete (mem_program hr)

section Entry

variable {r : Resource} {e : Entered × List Made} {i j : Nat} {name : String} {item : Item}

/-- An entry comes to a finding just where its name is redundant. -/
theorem Built.exists_finding_iff (hb : Built d maker m) (h : Sound doc [] d)
    (hr : d.declarations[j]? = some (.resourceDecl r)) (hdoc : doc[j]? = some e)
    (he : EnteredAs e (.resourceDecl r)) (hlisted : e.1.listedNames[i]? = some name)
    (hitem : r.listed[i]? = some item) (hname : References name item) :
    (∃ c, Redundancy.ofEntryOf m (ReferenceScan.mapOf m true) r item = some c) ↔
      RedundantAt doc (j, i) name := by
  have hvalue := hb.symbolOf_listed h (List.mem_of_getElem? hr) (List.mem_of_getElem? hitem) hname
  have hsource := hb.declaration j _ hr
  obtain ⟨_, _, hresource, _⟩ := he.declares.resourceOf
  obtain ⟨body, hbody⟩ := hresource.exists_body
  simp only [Redundancy.ofEntryOf_eq_some_iff, Redundancy.ofEntry_eq_some_iff, hvalue,
    h.latest?_eq_some_iff]
  constructor
  · intro h'
    obtain ⟨c, hs, records, hget, _, _, ⟨k, n, hn, htarget, hlast⟩, hkind, hsingle, hmem⟩ := h'
    obtain ⟨y, hy, hentered⟩ := h.exists_entered hn
    rw [htarget] at hmem hkind hsingle
    have hfound := (hb.inferred_iff h hr hbody hs).mp ⟨records, hget, hmem⟩
    obtain ⟨_, hused⟩ := (hb.finds_iff h hr he hn hlast hbody hs).mp hfound
    rw [hentered.declares.symbol_kind] at hkind
    rw [← Symbol.isCollection_iff, hentered.declares.isCollection, Bool.not_eq_true] at hsingle
    exact ⟨e.1, e.2, k, y, hdoc, hlisted, hlast, hy, hkind, hsingle, hused⟩
  · intro h'
    obtain ⟨x, used, k, y, hdoc', _, hlast, hy, hkind, hsingle, hused⟩ := h'
    obtain rfl : e = (x, used) := Option.some.inj (hdoc.symm.trans hdoc')
    obtain ⟨n, hn, hentered⟩ := h.exists_declaration hy
    rw [← hentered.declares.symbol_kind ⟨maker, k⟩] at hkind
    rw [← hentered.declares.isCollection ⟨maker, k⟩, ← Bool.not_eq_true,
      Symbol.isCollection_iff] at hsingle
    have hentity := Symbol.isEntity_iff.mpr hkind
    have hfound := (hb.finds_iff h hr he hn hlast hbody hsource).mpr ⟨hentity, hused⟩
    obtain ⟨records, hget, hmem⟩ := (hb.inferred_iff h hr hbody hsource).mpr hfound
    exact ⟨⟨item, _, n.symbol ⟨maker, k⟩⟩, hsource, records, hget, rfl, trivial,
      ⟨k, n, hn, rfl, hlast⟩, hkind, hsingle, hmem⟩

/-- The finding is reported with the entry and its name. -/
theorem Built.reports (hb : Built d maker m) (h : Sound doc [] d) (settings : RuleSettings)
    (hr : d.declarations[j]? = some (.resourceDecl r)) (hitem : r.listed[i]? = some item)
    (hname : References name item) {map : DependencyMap} {c : Redundancy}
    (hc : Redundancy.ofEntryOf m map r item = some c) :
    Reports settings d (j, i) name (Rule.diagnosticOf settings c) := by
  obtain ⟨_, _, _, hentry⟩ := Redundancy.ofEntryOf_eq_some_iff.mp hc
  obtain ⟨rfl, _, htarget, _⟩ := Redundancy.ofEntry_eq_some_iff.mp hentry
  have hmem := List.mem_of_getElem? hr
  have hlists := (Resource.listed_getElem?_eq_some_iff h.complete (mem_program hmem)).mp hitem
  rw [hb.symbolOf_listed h hmem (List.mem_of_getElem? hitem) hname] at htarget
  have hnamed : c.target.name = some name := by
    have hfound := List.find?_some htarget
    simpa using hfound
  refine ⟨⟨r, c.entry, hr, hlists, hname, rfl, rfl⟩, rfl, rfl, ?_, rfl⟩
  show Rule.redundancyMessage (c.target.name.getD Text.absent) = _
  rw [hnamed]
  rfl

end Entry

/-- Some entry of a resource of the document comes to the finding. -/
def FoundAt (d : Draft) (m : Model) (p : Nat × Nat) (c : Redundancy) : Prop :=
  ∃ r item, d.declarations[p.1]? = some (.resourceDecl r) ∧ r.listed[p.2]? = some item ∧
    Redundancy.ofEntryOf m (ReferenceScan.mapOf m true) r item = some c

theorem FoundAt.redundantAt {p : Nat × Nat} {c : Redundancy} (hfound : FoundAt d m p c)
    (hb : Built d maker m) (h : Sound doc [] d) (settings : RuleSettings) :
    ∃ name, RedundantAt doc p name ∧ Reports settings d p name (Rule.diagnosticOf settings c) := by
  obtain ⟨r, item, hr, hitem, hc⟩ := hfound
  obtain ⟨e, hdoc, he⟩ := h.exists_entered hr
  obtain ⟨name, hlisted, hname⟩ :=
    forall₂_getElem?_right (h.listed (List.mem_of_getElem? hr) he) hitem
  exact ⟨name, (hb.exists_finding_iff h hr hdoc he hlisted hitem hname).mp ⟨c, hc⟩,
    hb.reports h settings hr hitem hname hc⟩

theorem RedundantAt.exists_foundAt {p : Nat × Nat} {name : String} (hp : RedundantAt doc p name)
    (hb : Built d maker m) (h : Sound doc [] d) : ∃ c, FoundAt d m p c := by
  obtain ⟨x, used, _, _, hdoc, hlisted, _⟩ := id hp
  obtain ⟨n, hn, he⟩ := h.exists_declaration hdoc
  obtain ⟨r, rfl⟩ := he.declares.exists_resource hlisted
  obtain ⟨item, hitem, hname⟩ :=
    forall₂_getElem?_left (h.listed (List.mem_of_getElem? hn) he) hlisted
  obtain ⟨c, hc⟩ := (hb.exists_finding_iff h hn hdoc he hlisted hitem hname).mpr hp
  exact ⟨c, r, item, hn, hitem, hc⟩

/-- A scan can search all resources of the document. -/
theorem Sound.searchable (h : Sound doc [] d) {r : Resource}
    (hr : .resourceDecl r ∈ d.declarations) : ¬ ReferenceScan.Unsearchable m true r := by
  intro h'
  obtain ⟨_, body, hbody, p, hp, hv⟩ := h'
  obtain ⟨e, _, he⟩ := forall₂_right h.declarations hr
  obtain ⟨_, _, hresource, _⟩ := he.declares.resourceOf
  obtain ⟨values, hvalues, _⟩ := hresource.searched hbody
  have hmem : p.value ∈ values.map some := by
    rw [← hvalues]
    exact List.mem_map.mpr ⟨p, hp, rfl⟩
  rw [hv] at hmem
  obtain ⟨_, _, heq⟩ := List.mem_map.mp hmem
  exact nomatch heq

/-- An analysis of a built document reports what is found at places of the draft, in order. -/
theorem Built.outcome_analyze (hb : Built d maker m) (h : Sound doc [] d)
    {settings : RuleSettings} (hon : settings.level ≠ .off) (consultations : List Bool) :
    ∃ found, ListsInOrder (FoundAt d m) found ∧
      ((Rule.redundancy .scan settings consultations).analyze m).outcome =
        .ok (found.map (Rule.diagnosticOf settings)) := by
  have hc : m.program.Complete := by
    rw [hb.program]
    exact h.complete
  have hresources := h.resources_eq hb.program
  have hgap : ∀ r ∈ m.resources, ¬ ReferenceScan.Unsearchable m true r := by
    intro r hr
    rw [hresources, List.mem_filterMap] at hr
    obtain ⟨n, hn, hnr⟩ := hr
    obtain rfl := Node.resource?_eq_some_iff.mp hnr
    exact h.searchable hn
  obtain ⟨found, hfind, hanalyze⟩ :=
    @Rule.outcome_analyze_scan_ok settings consultations hon m hc hgap
  obtain rfl := Except.ok.inj ((Redundancy.find_eq hc).symm.trans hfind)
  refine ⟨_, ?_, hanalyze⟩
  rw [hresources]
  exact Redundancy.lists_entries m (ReferenceScan.mapOf m true) d.declarations

/-- For every document made by calls that enter declarations, with expressions used at one place
each: the document can be built, and an analysis of it with references scanned reports each
redundant name in the list of a resource, once and in order, and nothing else. -/
theorem analyze_reports_redundant_names {maker : Nat} {doc : List (Entered × List Made)}
    {d : Draft} (h : Drafted maker doc [] d) (builder : Nat) (settings : RuleSettings)
    (hon : settings.level ≠ .off) (consultations : List Bool) :
    ∃ m diagnostics, (d.build builder).2 = .ok m ∧
      ((Rule.redundancy .scan settings consultations).analyze m).outcome = .ok diagnostics ∧
      ∃ places : List (Nat × Nat), places.Pairwise (Prod.Lex (· < ·) (· < ·)) ∧
        (∀ p, p ∈ places ↔ ∃ name, RedundantAt doc p name) ∧
        List.Forall₂ (fun p x => ∃ name, RedundantAt doc p name ∧ Reports settings d p name x)
          places diagnostics := by
  obtain ⟨m, hm, hb⟩ := h.sound.exists_built builder
  obtain ⟨found, ⟨places, hsorted, hplaces, hfound⟩, hanalyze⟩ :=
    hb.outcome_analyze h.sound hon consultations
  refine ⟨m, _, hm, hanalyze, places, hsorted, ?_, ?_⟩
  · intro p
    rw [hplaces]
    constructor
    · intro h'
      obtain ⟨c, hc⟩ := h'
      obtain ⟨name, hname, _⟩ := hc.redundantAt hb h.sound settings
      exact ⟨name, hname⟩
    · intro h'
      obtain ⟨name, hname⟩ := h'
      exact hname.exists_foundAt hb h.sound
  · rw [List.forall₂_map_right_iff]
    exact hfound.imp fun p c hc => hc.redundantAt hb h.sound settings

/-!
A document of two resources, the second of them in a loop. It uses a property of the first one and
lists it twice.
-/
namespace Sample

def plan : Entered := .resource "plan" none none false false

def planId : Expression := .member "plan" ["id"]

def web (site : Node) : Entered :=
  .resource "web" (some [("site", .node site)]) (some ["plan", "plan"]) true false

def document (site : Node) : List (Entered × List Made) :=
  [(plan, []), (web site, [⟨planId, site⟩])]

theorem exists_drafted : ∃ site d, Drafted 0 (document site) [] d := by
  have hplan : plan.Placeable := by
    intro l hl
    exact nomatch hl
  have hstart : Drafted 0 [] [] (Draft.start 0) := Drafted.start
  have hunused : [].map Made.node = plan.nodes := rfl
  obtain ⟨_, d₁, _, h₁⟩ := hstart.exists_enter hplan (List.Perm.refl []) hunused
  obtain ⟨site, d₂, _, h₂⟩ := h₁.exists_make (x := planId) trivial
  have hweb : (web site).Placeable := by
    intro l hl
    rw [← Option.some.inj hl]
    exact ⟨trivial, trivial⟩
  have hused : [Made.mk planId site].map Made.node = (web site).nodes := rfl
  obtain ⟨_, d₃, _, h₃⟩ := h₂.exists_enter hweb (List.Perm.refl ([Made.mk planId site] ++ [])) hused
  exact ⟨site, d₃, h₃⟩

theorem redundantAt_web (site : Node) : RedundantAt (document site) (1, 0) "plan" := by
  refine ⟨web site, [⟨planId, site⟩], 0, (plan, []), rfl, rfl, ⟨⟨_, rfl, rfl⟩, ?_⟩, rfl, Or.inl rfl,
    rfl, ⟨planId, site⟩, List.mem_singleton_self _, rfl, Or.inr Nat.zero_ne_one⟩
  rintro (_ | _ | l) e hl he
  · exact absurd hl (Nat.lt_irrefl 0)
  · rw [← Option.some.inj he]
    show "web" ≠ "plan"
    decide
  · exact nomatch he

end Sample

theorem analyze_reports_redundant_names_sample :
    RuleSettings.standard.level ≠ .off ∧ ∃ site d, Drafted 0 (Sample.document site) [] d ∧
      ∃ m diagnostics, (d.build 1).2 = .ok m ∧
        ((Rule.redundancy .scan .standard []).analyze m).outcome = .ok diagnostics ∧
        ∃ x ∈ diagnostics, x.message = Rule.redundancyMessage "plan" := by
  have hon : RuleSettings.standard.level ≠ .off := by decide
  obtain ⟨site, d, h⟩ := Sample.exists_drafted
  obtain ⟨m, diagnostics, hm, hanalyze, places, _, hplaces, hreports⟩ :=
    analyze_reports_redundant_names h 1 .standard hon []
  have hfirst : (1, 0) ∈ places := (hplaces _).mpr ⟨"plan", Sample.redundantAt_web site⟩
  obtain ⟨x, hx, name, ⟨_, _, _, _, hdoc, hlisted, _⟩, hreport⟩ := forall₂_left hreports hfirst
  obtain ⟨rfl, rfl⟩ := Prod.mk.inj (Option.some.inj hdoc)
  obtain rfl := Option.some.inj hlisted
  exact ⟨hon, site, d, h, m, diagnostics, hm, hanalyze, x, hx, hreport.message⟩

end Draft

end InfraLint
