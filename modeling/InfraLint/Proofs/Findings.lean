import InfraLint.Proofs.Body
import InfraLint.Proofs.Listing
import InfraLint.Proofs.Outcome
import InfraLint.Redundancy

/-!
What an audit finds. In a complete document an audit never fails, and what it finds can be
written down resource by resource and entry by entry. Main statement: the findings are one for
each redundant entry, in the order of the resources in the document and of the entries in their
lists, where redundancy is said without any of the functions that look for it.
-/
namespace InfraLint

/-- Declared with `for`, by a declaration of the symbol's own kind. -/
def Symbol.DeclaredWithFor (s : Symbol) : Prop :=
  (s.kind = .resource ∧ ∃ x l, s.declaring = some (.resourceDecl x) ∧ x.value = some (.loop l)) ∨
    (s.kind = .module ∧ ∃ x l, s.declaring = some (.moduleDecl x) ∧ x.value = some (.loop l))

theorem Symbol.isEntity_iff {s : Symbol} :
    s.isEntity = true ↔ s.kind = .resource ∨ s.kind = .module := by
  unfold isEntity
  cases s.kind <;> simp [SymbolKind.isEntity]

theorem Node.isLoop_iff {value : Option Node} :
    Node.isLoop value = true ↔ ∃ l, value = some (.loop l) := by
  unfold Node.isLoop
  split
  · rename_i l
    exact ⟨fun _ => ⟨l, rfl⟩, fun _ => rfl⟩
  · rename_i hno
    constructor
    · intro h
      exact nomatch h
    · intro h'
      obtain ⟨l, rfl⟩ := h'
      exact absurd rfl (hno l)

theorem Symbol.isCollection_iff {s : Symbol} : s.isCollection = true ↔ s.DeclaredWithFor := by
  unfold Symbol.isCollection Symbol.DeclaredWithFor
  split
  · rename_i x hkind hdecl
    simp [hkind, hdecl, Resource.isCollection, Node.isLoop_iff]
  · rename_i x hkind hdecl
    simp [hkind, hdecl, Module.isCollection, Node.isLoop_iff]
  · rename_i hresource hmodule
    constructor
    · intro h
      exact nomatch h
    · intro h'
      rcases h' with ⟨hkind, x, l, hdecl, _⟩ | ⟨hkind, x, l, hdecl, _⟩
      · exact absurd hdecl (hresource x hkind)
      · exact absurd hdecl (hmodule x hkind)

/-- The resource that a node declares, if it declares one. -/
def Node.resource? : Node → Option Resource
  | .resourceDecl x => some x
  | _ => none

theorem Node.resource?_eq_some_iff {n : Node} {x : Resource} :
    n.resource? = some x ↔ n = .resourceDecl x := by
  unfold Node.resource?
  split <;> simp_all

theorem Model.resources_eq (m : Model) :
    m.resources = m.program.preorder.filterMap Node.resource? := by
  unfold Model.resources
  rw [Node.walk_eq_preorder]
  rfl

theorem Model.mem_resources_iff {m : Model} {x : Resource} :
    x ∈ m.resources ↔ .resourceDecl x ∈ m.program.preorder := by
  rw [m.resources_eq, List.mem_filterMap]
  simp [Node.resource?_eq_some_iff]

namespace Redundancy

variable {m : Model} {map : DependencyMap}

/-- What one entry comes to in the list of a source with some records. -/
def ofEntry (m : Model) (source : Symbol) (records : List Dependency) (item : Item) :
    Option Redundancy :=
  (m.symbolOf item.value).bind fun target =>
    if target.isEntity && !target.isCollection && implied records target then
      some ⟨item, source, target⟩
    else none

/-- What one entry comes to in the list of a resource. -/
def ofEntryOf (m : Model) (map : DependencyMap) (x : Resource) (item : Item) :
    Option Redundancy :=
  (m.symbolOf (some (.resourceDecl x))).bind fun source =>
    (map.get? source).bind fun records => ofEntry m source records item

theorem outcome_ofItem (source : Symbol) (records : List Dependency) (item : Item) :
    (ofItem m source records item).outcome = .ok (ofEntry m source records item).toList := by
  unfold ofItem ofEntry Audit.ask
  cases m.symbolOf item.value with
  | none => rfl
  | some target =>
    cases he : target.isEntity <;> cases hc : target.isCollection <;>
      cases hi : implied records target <;> simp [he, hc, hi, Except.bind]

theorem outcome_entries (source : Symbol) (records : List Dependency) (items : List Item) :
    (Journal.forEach (ofPlace m source records) (items.map some)).outcome =
      .ok (items.filterMap (ofEntry m source records)) := by
  have hplaces : ∀ place ∈ items.map some, (ofPlace m source records place).outcome =
      .ok (place.elim [] fun item => (ofEntry m source records item).toList) := by
    intro place hplace
    obtain ⟨item, _, rfl⟩ := List.mem_map.mp hplace
    exact outcome_ofItem source records item
  rw [Journal.outcome_forEach_ok hplaces, List.flatMap_map, List.filterMap_eq_flatMap_toList]
  rfl

theorem outcome_ofResource {x : Resource} (h : x.Legible) :
    (ofResource m map x).outcome = .ok (x.listed.filterMap (ofEntryOf m map x)) := by
  unfold ofResource Audit.ask
  rcases h with ⟨hnone, hlisted⟩ | hsome
  · simp [hnone, hlisted, Except.bind]
  · unfold ofEntryOf
    cases hsource : m.symbolOf (some (.resourceDecl x)) with
    | none => simp [hsome, hsource, Except.bind]
    | some source =>
      cases hrecords : map.get? source with
      | none => simp [hsome, hsource, hrecords, Except.bind]
      | some records => simp [hsome, hsource, hrecords, Except.bind, outcome_entries]

theorem find_eq_of_legible (h : ∀ x ∈ m.resources, x.Legible) :
    find m map =
      .ok (m.resources.flatMap fun x => x.listed.filterMap (ofEntryOf m map x)) := by
  unfold find audit Audit.ask
  have hall : ∀ x ∈ m.resources, (ofResource m map x).outcome =
      .ok (x.listed.filterMap (ofEntryOf m map x)) := fun x hx => outcome_ofResource (h x hx)
  simp [Except.bind, Journal.outcome_forEach_ok hall]

/-- In a complete document an audit finds what the entries of its resources come to. -/
theorem find_eq (hc : m.program.Complete) :
    find m map =
      .ok (m.resources.flatMap fun x => x.listed.filterMap (ofEntryOf m map x)) :=
  find_eq_of_legible fun _ hx => Resource.legible_of_complete hc (Model.mem_resources_iff.mp hx)

/-- At place `p.1` of the document stands a resource whose entry of index `p.2` is implied by the
map, and `r` says so: the entry, the resource's symbol and the symbol that the entry refers to. -/
structure ImpliedAt (m : Model) (map : DependencyMap) (p : Nat × Nat) (r : Redundancy) : Prop where
  entry : ∃ x, m.program.preorder[p.1]? = some (.resourceDecl x) ∧ x.Lists p.2 r.entry ∧
    m.symbolOf (some (.resourceDecl x)) = some r.source
  target : m.symbolOf r.entry.value = some r.target
  entity : r.target.kind = .resource ∨ r.target.kind = .module
  single : ¬ r.target.DeclaredWithFor
  inferred : ∃ records, map.get? r.source = some records ∧ ∃ d ∈ records, d.target.id = r.target.id

theorem implied_iff {records : List Dependency} {target : Symbol} :
    implied records target = true ↔ ∃ d ∈ records, d.target.id = target.id := by
  unfold implied Symbol.is
  simp

private theorem accepts_iff {records : List Dependency} {target : Symbol} :
    (target.isEntity && !target.isCollection && implied records target) = true ↔
      (target.kind = .resource ∨ target.kind = .module) ∧ ¬ target.DeclaredWithFor ∧
        ∃ d ∈ records, d.target.id = target.id := by
  rw [Bool.and_eq_true, Bool.and_eq_true, Bool.not_eq_true', ← Bool.not_eq_true,
    Symbol.isEntity_iff, Symbol.isCollection_iff, implied_iff, and_assoc]

theorem ofEntry_eq_some_iff {source : Symbol} {records : List Dependency} {item : Item}
    {r : Redundancy} :
    ofEntry m source records item = some r ↔
      r.entry = item ∧ r.source = source ∧ m.symbolOf item.value = some r.target ∧
        (r.target.kind = .resource ∨ r.target.kind = .module) ∧ ¬ r.target.DeclaredWithFor ∧
        ∃ d ∈ records, d.target.id = r.target.id := by
  unfold ofEntry
  rw [Option.bind_eq_some_iff]
  simp only [Option.ite_none_right_eq_some, accepts_iff]
  constructor
  · intro h
    obtain ⟨target, htarget, hok, heq⟩ := h
    rw [← Option.some.inj heq]
    exact ⟨rfl, rfl, htarget, hok⟩
  · intro h
    obtain ⟨rfl, rfl, htarget, hok⟩ := h
    exact ⟨r.target, htarget, hok, rfl⟩

theorem ofEntryOf_eq_some_iff {x : Resource} {item : Item} {r : Redundancy} :
    ofEntryOf m map x item = some r ↔
      m.symbolOf (some (.resourceDecl x)) = some r.source ∧
        ∃ records, map.get? r.source = some records ∧
          ofEntry m r.source records item = some r := by
  unfold ofEntryOf
  simp only [Option.bind_eq_some_iff]
  constructor
  · intro h
    obtain ⟨source, hsource, records, hrecords, hentry⟩ := h
    have heq := (ofEntry_eq_some_iff.mp hentry).2.1
    subst heq
    exact ⟨hsource, records, hrecords, hentry⟩
  · intro h
    obtain ⟨hsource, records, hrecords, hentry⟩ := h
    exact ⟨r.source, hsource, records, hrecords, hentry⟩

theorem entry_of_ofEntryOf {x : Resource} {item : Item} {r : Redundancy}
    (h : ofEntryOf m map x item = some r) : r.entry = item := by
  obtain ⟨_, _, _, hentry⟩ := ofEntryOf_eq_some_iff.mp h
  exact (ofEntry_eq_some_iff.mp hentry).1

/-- The identities of the entries that some findings are about. -/
def entryIds (found : List Redundancy) : List Identity := found.map fun r => r.entry.origin.id

private theorem flatMap_resources (g : Resource → List Redundancy) (l : List Node) :
    (l.filterMap Node.resource?).flatMap g = l.flatMap fun n => n.resource?.elim [] g := by
  induction l with
  | nil => rfl
  | cons n rest ih =>
    rw [List.filterMap_cons, List.flatMap_cons, ← ih]
    cases n.resource? with
    | none => rfl
    | some x => rfl

/-- What the entries of the resources among some nodes come to is listed in their order. -/
theorem lists_entries (m : Model) (map : DependencyMap) (nodes : List Node) :
    ListsInOrder
      (fun p r => ∃ x item, nodes[p.1]? = some (.resourceDecl x) ∧ x.listed[p.2]? = some item ∧
        ofEntryOf m map x item = some r)
      ((nodes.filterMap Node.resource?).flatMap fun x =>
        x.listed.filterMap (ofEntryOf m map x)) := by
  have hlisting := ListsInOrder.flatMap_filterMap
    (fun n : Node => n.resource?.elim [] Resource.listed)
    (fun n item => n.resource?.bind fun x => ofEntryOf m map x item) nodes
  have hrows : (fun n : Node => n.resource?.elim []
        fun x => x.listed.filterMap (ofEntryOf m map x)) =
      fun n => (n.resource?.elim [] Resource.listed).filterMap fun item =>
        n.resource?.bind fun x => ofEntryOf m map x item := by
    funext n
    cases n.resource? with
    | none => rfl
    | some x => rfl
  rw [flatMap_resources, hrows]
  refine hlisting.imp fun p r => ?_
  constructor
  · intro h
    obtain ⟨n, item, hn, hitem, hfind⟩ := h
    obtain ⟨x, hx, hfind⟩ := Option.bind_eq_some_iff.mp hfind
    rw [Node.resource?_eq_some_iff] at hx
    subst hx
    exact ⟨x, item, hn, hitem, hfind⟩
  · intro h
    obtain ⟨x, item, hn, hitem, hfind⟩ := h
    exact ⟨.resourceDecl x, item, hn, hitem, hfind⟩

private theorem impliedAt_iff (hc : m.program.Complete) {p : Nat × Nat} {r : Redundancy} :
    (∃ x item, m.program.preorder[p.1]? = some (.resourceDecl x) ∧ x.listed[p.2]? = some item ∧
        ofEntryOf m map x item = some r) ↔ ImpliedAt m map p r := by
  constructor
  · intro h
    obtain ⟨x, item, hn, hitem, hfind⟩ := h
    obtain ⟨hsource, records, hrecords, hentry⟩ := ofEntryOf_eq_some_iff.mp hfind
    obtain ⟨rfl, _, htarget, hentity, hsingle, hmem⟩ := ofEntry_eq_some_iff.mp hentry
    have hlists : x.Lists p.2 r.entry :=
      (Resource.listed_getElem?_eq_some_iff hc (List.mem_of_getElem? hn)).mp hitem
    exact ⟨⟨x, hn, hlists, hsource⟩, htarget, hentity, hsingle, records, hrecords, hmem⟩
  · intro h
    obtain ⟨⟨x, hn, hlists, hsource⟩, htarget, hentity, hsingle, records, hrecords, hmem⟩ := h
    refine ⟨x, r.entry, hn, ?_, ?_⟩
    · exact (Resource.listed_getElem?_eq_some_iff hc (List.mem_of_getElem? hn)).mpr hlists
    · refine ofEntryOf_eq_some_iff.mpr ⟨hsource, records, hrecords, ?_⟩
      exact ofEntry_eq_some_iff.mpr ⟨rfl, rfl, htarget, hentity, hsingle, hmem⟩

/-- An audit of a complete document lists the implied entries of all its resources, nested and
wrapped ones included: each of them once, and in the order of the document. -/
theorem find_lists_implied_entries (m : Model) (map : DependencyMap)
    (hc : m.program.Complete) :
    ∃ found, find m map = .ok found ∧ ListsInOrder (ImpliedAt m map) found := by
  refine ⟨_, find_eq hc, ?_⟩
  rw [m.resources_eq]
  exact (lists_entries m map m.program.preorder).imp fun p r => impliedAt_iff hc

/-!
A document with two resources, the second of them in a loop and behind a condition. It refers to
the first one in a property and lists it twice.
-/
namespace Sample

def originAt (serial : Nat) : Origin := ⟨⟨0, serial⟩, ⟨serial, 1⟩⟩

def word (serial : Nat) (name : String) : Identifier := ⟨originAt serial, some name⟩

def reference (serial : Nat) (name : String) : Node :=
  .variableAccess ⟨originAt serial, some (word (serial + 1) name)⟩

def property (serial : Nat) (key : String) (value : Option Node) : Property :=
  ⟨originAt serial, some (.identifier (word (serial + 1) key)), value⟩

def resource (serial : Nat) (name : String) (value : Node) : Resource :=
  ⟨originAt serial, some (word (serial + 1) name), some ⟨originAt (serial + 2), some "type"⟩,
    some value⟩

def store : Resource := resource 10 "store" (.object ⟨originAt 13, [], []⟩)

def entry (serial : Nat) : Item := ⟨originAt serial, some (reference (serial + 1) "store")⟩

def list : ArrayLiteral := ⟨originAt 27, [some (entry 30), some (entry 33)]⟩

def body : Object :=
  ⟨originAt 20, [some (property 21 "site" (some (reference 23 "store"))),
    some (property 25 dependsOnKey (some (.array list)))], []⟩

def web : Resource :=
  resource 40 "web" (.loop ⟨originAt 43, some (word 44 "i"), some (reference 45 "range"),
    some (.conditional ⟨originAt 47, some (.boolean ⟨originAt 48, some true⟩),
      some (.object body)⟩)⟩)

def storeSymbol : Symbol := ⟨⟨1, 0⟩, .resource, some "store", some (.resourceDecl store)⟩

def webSymbol : Symbol := ⟨⟨1, 1⟩, .resource, some "web", some (.resourceDecl web)⟩

def model : Model where
  maker := 1
  program := .program ⟨originAt 0, [some (.resourceDecl store), some (.resourceDecl web)]⟩
  bindings := [⟨⟨0, 34⟩, storeSymbol⟩, ⟨⟨0, 31⟩, storeSymbol⟩, ⟨⟨0, 23⟩, storeSymbol⟩,
    ⟨⟨0, 40⟩, webSymbol⟩, ⟨⟨0, 10⟩, storeSymbol⟩]
  issued := 2

def inferred : DependencyMap := [(webSymbol, [⟨webSymbol, storeSymbol, none⟩])]

end Sample

theorem find_lists_implied_entries_sample :
    Sample.model.program.Complete ∧
      (find Sample.model Sample.inferred).map entryIds = .ok [⟨0, 30⟩, ⟨0, 33⟩] ∧
      ∃ found, find Sample.model Sample.inferred = .ok found ∧
        ListsInOrder (ImpliedAt Sample.model Sample.inferred) found := by
  have hc : Sample.model.program.Complete := by decide +kernel
  exact ⟨hc, by decide +kernel, find_lists_implied_entries Sample.model Sample.inferred hc⟩

end Redundancy

end InfraLint
