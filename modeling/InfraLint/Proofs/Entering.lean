import InfraLint.Proofs.Placing

/-!
Declarations entered into a draft. Each has a kind, a name and values, and may list names as its
explicit dependencies. What is entered has its values in its body, in the shape that loops and
conditions give it, and its list holds one reference for each name.
-/
namespace InfraLint

/-- A call that enters a declaration; dependencies are listed by name. -/
inductive Entered where
  | resource (name : String) (properties : Option (Entries Literal))
      (dependsOn : Option (List String)) (loop condition : Bool)
  | module (name : String) (params : Option (Entries Literal))
      (dependsOn : Option (List String)) (loop : Bool)
  | variable (name : String) (value : Literal)
  | parameter (name typeName : String)
  | output (name : String) (value : Literal)

namespace Entered

def name : Entered → String
  | .resource name _ _ _ _ | .module name _ _ _ | .variable name _ | .parameter name _
  | .output name _ => name

def kind : Entered → SymbolKind
  | .resource _ _ _ _ _ => .resource
  | .module _ _ _ _ => .module
  | .variable _ _ => .variable
  | .parameter _ _ => .parameter
  | .output _ _ => .output

def isLoop : Entered → Bool
  | .resource _ _ _ loop _ => loop
  | .module _ _ _ loop => loop
  | _ => false

/-- The names that a resource lists. -/
def listedNames : Entered → List String
  | .resource _ _ dependsOn _ _ => dependsOn.getD []
  | _ => []

/-- What is written in the declaration. -/
def literal? : Entered → Option Literal
  | .resource _ properties _ _ _ => properties.map Literal.ofEntries
  | .module _ params _ _ => params.map Literal.ofEntries
  | .variable _ value => some value
  | .parameter _ _ => none
  | .output _ value => some value

/-- The nodes that are used in what is written. -/
def nodes (x : Entered) : List Node := x.literal?.elim [] Literal.nodes

/-- Nodes can be made of what is written. -/
def Placeable (x : Entered) : Prop := ∀ l, x.literal? = some l → l.Placeable

def explicit (names : List String) : Draft.Explicit := .entries (names.map .text)

def declare : Entered → Drafting Node
  | .resource name properties dependsOn loop condition =>
    Draft.declareResource
      ⟨name, properties, dependsOn.map explicit, none, loop, condition, true, true, []⟩
  | .module name params dependsOn loop =>
    Draft.declareModule ⟨name, params, dependsOn.map explicit, loop⟩
  | .variable name value => Draft.declareVariable name value
  | .parameter name typeName => Draft.declareParameter name typeName
  | .output name value => Draft.declareOutput name value

end Entered

namespace Draft

/-- The place holds an item that is a reference to the name. -/
def EntryOf (name : String) (place : Option Item) : Prop :=
  ∃ i v, place = some i ∧ i.value = some v ∧ v.named? = some name

theorem readEntries_grows (names : List String) (d : Draft) :
    ∃ nodes d' fresh, Yields (readEntries (names.map .text)) d (nodes.map .node) d' ∧
      Grows d d' [] nodes fresh ∧ (∀ k ∈ fresh, k.Bare) ∧
      List.Forall₂ (fun name n => n.named? = some name) names nodes := by
  induction names generalizing d with
  | nil => exact ⟨[], d, [], Yields.pure _ d, Grows.refl d [], by simp, .nil⟩
  | cons name rest ih =>
    obtain ⟨n, d₁, fresh₁, hyields₁, hgrows₁, hname, hbare₁, _⟩ := reference_grows d name
    obtain ⟨nodes, d₂, fresh₂, hyields₂, hgrows₂, hbare₂, hrest⟩ := ih d₁
    refine ⟨n :: nodes, d₂, fresh₁ ++ fresh₂, ?_, hgrows₁.append hgrows₂, ?_, .cons hname hrest⟩
    · exact Yields.bind (hyields₁.bind (Yields.pure _ _)) (hyields₂.bind (Yields.pure _ _))
    · intro k hk
      exact (List.mem_append.mp hk).elim (hbare₁ k) (hbare₂ k)

private theorem nodesAll_nodes (nodes : List Node) :
    Literal.nodesAll (nodes.map .node) = nodes := by
  induction nodes with
  | nil => rfl
  | cons n rest ih =>
    rw [List.map_cons, Literal.nodesAll, Literal.nodes, ih]
    rfl

private theorem placeableAll_nodes (nodes : List Node) :
    Literal.PlaceableAll (nodes.map .node) := by
  induction nodes with
  | nil => trivial
  | cons n rest ih => exact ⟨trivial, ih⟩

private theorem entries_of_items {names : List String} {nodes : List Node}
    {places : List (Option Item)}
    (hnames : List.Forall₂ (fun name n => n.named? = some name) names nodes)
    (hitems : List.Forall₂ ItemOf (nodes.map .node) places) :
    List.Forall₂ EntryOf names places := by
  induction hnames generalizing places with
  | nil =>
    cases hitems
    exact .nil
  | cons hname _ ih =>
    cases hitems with
    | cons hitem hrest =>
      obtain ⟨i, v, rfl, hv, hnode⟩ := hitem
      refine .cons ⟨i, v, rfl, hv, ?_⟩ (ih hrest)
      rw [hnode _ rfl]
      exact hname

/-- A list of names becomes an array of references. -/
theorem explicitNode_grows (names : List String) (d : Draft) :
    ∃ a d' fresh, Yields (explicitNode (Entered.explicit names)) d (.array a) d' ∧
      Grows d d' [] [.array a] fresh ∧ (∀ k ∈ fresh, k.Bare) ∧
      List.Forall₂ EntryOf names a.items := by
  obtain ⟨nodes, d₁, fresh₁, hyields₁, hgrows₁, hbare, hnames⟩ := readEntries_grows names d
  obtain ⟨a, d₂, fresh₂, hyields₂, hgrows₂, hinert, hitems⟩ :=
    array_grows (nodes.map .node) (placeableAll_nodes nodes) d₁
  rw [nodesAll_nodes] at hgrows₂
  refine ⟨a, d₂, fresh₁ ++ fresh₂, ?_, hgrows₁.trans hgrows₂, ?_, entries_of_items hnames hitems⟩
  · exact hyields₁.bind (hyields₂.bind (Yields.pure _ _))
  · intro k hk
    exact (List.mem_append.mp hk).elim (hbare k) fun hk => (hinert k hk).1

/-- The entry of a body for listed names: none, or an array of references. -/
inductive ListOf : Option (List String) → Entries Literal → Prop
  | none : ListOf none []
  | some (names : List String) (a : ArrayLiteral) (h : List.Forall₂ EntryOf names a.items) :
      ListOf (some names) [(dependsOnKey, .node (.array a))]

theorem ListOf.placeable {dependsOn : Option (List String)} {listed : Entries Literal}
    (h : ListOf dependsOn listed) : Literal.PlaceableIn listed := by
  cases h with
  | none => trivial
  | some names a h => exact ⟨trivial, trivial⟩

theorem explicitEntry_grows (dependsOn : Option (List String)) (d : Draft) :
    ∃ listed d' fresh, Yields (explicitEntry (dependsOn.map Entered.explicit)) d listed d' ∧
      Grows d d' [] (Literal.nodesIn listed) fresh ∧ (∀ k ∈ fresh, k.Bare) ∧
      ListOf dependsOn listed := by
  cases dependsOn with
  | none => exact ⟨[], d, [], Yields.pure _ d, Grows.refl d [], by simp, .none⟩
  | some names =>
    obtain ⟨a, d', fresh, hyields, hgrows, hbare, hentries⟩ := explicitNode_grows names d
    exact ⟨_, d', fresh, hyields.bind (Yields.pure _ _), hgrows, hbare, .some names a hentries⟩

private theorem repeat_grows (v : Node) (loop : Bool) (d : Draft) :
    ∃ n d' fresh, Yields (if loop = true then do
          let origin ← place "for"
          let variableName ← identifier "i"
          let range ← array [.integer 1, .integer 2, .integer 3]
          pure (.loop ⟨origin, some variableName, some (.array range), some v⟩)
        else pure v) d n d' ∧
      Grows d d' [v] [n] fresh ∧ (∀ k ∈ fresh, k.Inert) ∧
      if loop then ∃ l, n = .loop l ∧ l.body = some v else n = v := by
  cases loop with
  | false => exact ⟨v, d, [], Yields.pure v d, Grows.refl d [v], by simp, rfl⟩
  | true =>
    let name : Identifier := ⟨(d.placed "for").nextOrigin "i", some "i"⟩
    have hrange : Literal.PlaceableAll [.integer 1, .integer 2, .integer 3] :=
      ⟨show Text.Spellable 1 by decide, show Text.Spellable 2 by decide,
        show Text.Spellable 3 by decide, trivial⟩
    obtain ⟨range, d', fresh, hyields, hgrows, hinert, _⟩ :=
      array_grows _ hrange ((d.placed "for").placed "i")
    let l : Loop := ⟨d.nextOrigin "for", some name, some (.array range), some v⟩
    have hword : Grows (d.placed "for") ((d.placed "for").placed "i") [] [.identifier name]
        [.identifier name] := Grows.leaf _ "i" rfl rfl rfl
    have hchildren : Grows (d.placed "for") d' [v] [.identifier name, .array range, v]
        ([.identifier name] ++ (fresh ++ [])) :=
      hword.append (hgrows.append (Grows.refl d' [v]))
    refine ⟨.loop l, d', _, ?_, hchildren.before (n := .loop l) rfl rfl rfl, ?_, l, rfl, rfl⟩
    · exact (yields_place d "for").bind ((yields_identifier _ "i").bind
        (hyields.bind (Yields.pure _ _)))
    · intro k hk
      simp only [List.append_nil, List.cons_append, List.nil_append, List.mem_cons] at hk
      rcases hk with rfl | rfl | hk
      · exact ⟨⟨trivial, rfl⟩, rfl⟩
      · exact inert_identifier name
      · exact hinert k hk

private theorem hasBody_of_repeat {x : Object} {v n : Node} {loop : Bool}
    (hv : v = .object x ∨ ∃ c, v = .conditional c ∧ c.body = some (.object x))
    (hn : if loop then ∃ l, n = .loop l ∧ l.body = some v else n = v) :
    HasBody (some n) x ∧ Node.isLoop (some n) = loop := by
  cases loop with
  | false =>
    obtain rfl : n = v := hn
    rcases hv with rfl | ⟨c, rfl, hc⟩
    · exact ⟨.plain x, rfl⟩
    · exact ⟨.guarded c x hc, rfl⟩
  | true =>
    obtain ⟨l, rfl, hl⟩ := hn
    rcases hv with rfl | ⟨c, rfl, hc⟩
    · exact ⟨.repeated l x hl, rfl⟩
    · exact ⟨.repeatedGuarded l c x hl hc, rfl⟩

/-- Loops and conditions leave the body what it is. -/
theorem wrap_grows (x : Object) (loop condition : Bool) (d : Draft) :
    ∃ n d' fresh, Yields (wrap (.object x) loop condition) d n d' ∧
      Grows d d' [.object x] [n] fresh ∧ (∀ k ∈ fresh, k.Inert) ∧ HasBody (some n) x ∧
      Node.isLoop (some n) = loop := by
  cases condition with
  | false =>
    obtain ⟨n, d', fresh, hyields, hgrows, hinert, hloop⟩ := repeat_grows (.object x) loop d
    have hbody := hasBody_of_repeat (Or.inl rfl) hloop
    exact ⟨n, d', fresh, (Yields.pure _ d).bind hyields, hgrows, hinert, hbody⟩
  | true =>
    let truth : Node := .boolean ⟨(d.placed "if").nextOrigin "true", some true⟩
    let c : Conditional := ⟨d.nextOrigin "if", some truth, some (.object x)⟩
    have hchildren : Grows (d.placed "if") ((d.placed "if").placed "true") [.object x]
        [truth, .object x] [truth] :=
      (Grows.leaf _ "true" rfl rfl rfl).append (Grows.refl _ [.object x])
    have hguard := hchildren.before (n := .conditional c) rfl rfl rfl
    obtain ⟨n, d', fresh, hyields, hgrows, hinert, hloop⟩ :=
      repeat_grows (.conditional c) loop ((d.placed "if").placed "true")
    have hbody := hasBody_of_repeat (Or.inr ⟨c, rfl, rfl⟩) hloop
    refine ⟨n, d', _, ?_, hguard.trans hgrows, ?_, hbody⟩
    · exact (yields_place d "if").bind ((yields_place _ "true").bind
        ((Yields.pure _ _).bind hyields))
    · intro k hk
      simp only [List.cons_append, List.nil_append, List.mem_cons] at hk
      rcases hk with rfl | rfl | hk
      · exact ⟨⟨trivial, rfl⟩, rfl⟩
      · exact ⟨⟨trivial, rfl⟩, rfl⟩
      · exact hinert k hk

private theorem nodesIn_append (own listed : Entries Literal) :
    Literal.nodesIn (own ++ listed) = Literal.nodesIn own ++ Literal.nodesIn listed := by
  induction own with
  | nil => rfl
  | cons entry rest ih =>
    obtain ⟨key, x⟩ := entry
    rw [List.cons_append, Literal.nodesIn, Literal.nodesIn, ih, List.append_assoc]

private theorem placeableIn_append {own listed : Entries Literal}
    (hown : Literal.PlaceableIn own) (hlisted : Literal.PlaceableIn listed) :
    Literal.PlaceableIn (own ++ listed) := by
  induction own with
  | nil => exact hlisted
  | cons entry rest ih =>
    obtain ⟨key, x⟩ := entry
    exact ⟨hown.1, ih hown.2⟩

/-- What is written under a key of its own, if anything is. -/
def ownEntries (key : String) (written : Option (Entries Literal)) : Entries Literal :=
  written.elim [] fun entries => [(key, Literal.ofEntries entries)]

theorem nodesIn_ownEntries (key : String) (written : Option (Entries Literal)) :
    Literal.nodesIn (ownEntries key written) =
      (written.map Literal.ofEntries).elim [] Literal.nodes := by
  cases written with
  | none => rfl
  | some entries => exact List.append_nil _

private theorem placeableIn_ownEntries {key : String} {written : Option (Entries Literal)}
    (h : ∀ l, written.map Literal.ofEntries = some l → l.Placeable) :
    Literal.PlaceableIn (ownEntries key written) := by
  cases written with
  | none => trivial
  | some entries => exact ⟨h _ rfl, trivial⟩

private theorem putAll_own_listed {key : String} (hkey : key ≠ dependsOnKey)
    {written : Option (Entries Literal)} {dependsOn : Option (List String)}
    {listed : Entries Literal} (h : ListOf dependsOn listed) :
    Entries.putAll [] (ownEntries key written ++ listed) = ownEntries key written ++ listed := by
  cases written <;> cases h <;> simp [ownEntries, Entries.putAll, Entries.put, hkey]

/-- The nodes of a list of names, grown beside what is there already. -/
private theorem beside {d d' : Draft} {listed : Entries Literal} {fresh : List Node}
    (own : List Node) (h : Grows d d' [] (Literal.nodesIn listed) fresh) :
    Grows d d' own (own ++ Literal.nodesIn listed) fresh := by
  simpa using (Grows.refl d own).append h

/-- The resource has the written properties and the list of names in its body. -/
def ResourceOf (properties : Option (Entries Literal)) (dependsOn : Option (List String))
    (r : Resource) : Prop :=
  ∃ body listed, HasBody r.value body ∧ ListOf dependsOn listed ∧
    List.Forall₂ PropertyOf (ownEntries "properties" properties ++ listed) body.properties

theorem resourceValue_grows (name : String) (properties : Option (Entries Literal))
    (dependsOn : Option (List String)) (loop condition : Bool)
    (hx : ∀ l, properties.map Literal.ofEntries = some l → l.Placeable) (d : Draft) :
    ∃ v d' fresh, Yields (resourceValue ⟨name, properties, dependsOn.map Entered.explicit, none,
        loop, condition, true, true, []⟩) d v d' ∧
      Grows d d' ((properties.map Literal.ofEntries).elim [] Literal.nodes) [v] fresh ∧
      (∀ k ∈ fresh, k.Bare) ∧ Node.isLoop (some v) = loop ∧
      ∀ r : Resource, r.value = some v → ResourceOf properties dependsOn r := by
  obtain ⟨listed, d₁, fresh₁, hyields₁, hgrows₁, hbare, hlist⟩ := explicitEntry_grows dependsOn d
  obtain ⟨body, d₂, fresh₂, hyields₂, hgrows₂, hinert₂, hproperties⟩ :=
    object_grows (ownEntries "properties" properties ++ listed)
      (putAll_own_listed (by decide) hlist)
      (placeableIn_append (placeableIn_ownEntries hx) hlist.placeable) d₁
  obtain ⟨v, d₃, fresh₃, hyields₃, hgrows₃, hinert₃, hbody, hloop⟩ :=
    wrap_grows body loop condition d₂
  rw [nodesIn_append, nodesIn_ownEntries] at hgrows₂
  refine ⟨v, d₃, _, ?_, ((beside _ hgrows₁).trans hgrows₂).trans hgrows₃, ?_, hloop, ?_⟩
  · exact hyields₁.bind (hyields₂.bind hyields₃)
  · intro k hk
    simp only [List.append_assoc, List.mem_append] at hk
    rcases hk with hk | hk | hk
    · exact hbare k hk
    · exact (hinert₂ k hk).1
    · exact (hinert₃ k hk).1
  · intro r hr
    rw [← hr] at hbody
    exact ⟨body, listed, hbody, hlist, hproperties⟩

/-- The node is what the call enters. -/
structure Declares (x : Entered) (n : Node) : Prop where
  kind : n.declares? = some x.kind
  name : ∃ o, n.declaredName? = some ⟨o, some x.name⟩
  collection : ∀ s : Symbol, s.kind = x.kind → s.declaring = some n → s.isCollection = x.isLoop
  resource : ∀ name properties dependsOn loop condition,
    x = .resource name properties dependsOn loop condition →
      ∃ r, n = .resourceDecl r ∧ ResourceOf properties dependsOn r

theorem Declares.partsPresent {x : Entered} {n : Node} (h : Declares x n) : n.PartsPresent := by
  have hkind := h.kind
  cases n with
  | resourceDecl _ => trivial
  | moduleDecl _ => trivial
  | variableDecl _ => trivial
  | parameterDecl _ => trivial
  | outputDecl _ => trivial
  | _ => exact nomatch hkind

/-- The draft with one more declaration. -/
def entered (d : Draft) (n : Node) : Draft := { d with declarations := d.declarations ++ [n] }

/-- The call leads to `d'` and then enters the node `n`, a new declaration of what the call enters.
The nodes that it was given are now below `n`, beside the nodes `fresh`. -/
structure Enters (x : Entered) (d : Draft) (n : Node) (d' : Draft) (fresh : List Node) : Prop where
  yields : Yields x.declare d n (d'.entered n)
  grows : Grows d d' x.nodes [n] fresh
  bare : ∀ k ∈ fresh, k.Bare ∨ k = n
  declares : Declares x n

theorem yields_enter (d : Draft) (n : Node) : Yields (enter n) d n (d.entered n) := rfl

private theorem bare_append {l l' : List Node} {n : Node} (hl : ∀ k ∈ l, k.Bare)
    (hl' : ∀ k ∈ l', k.Bare ∨ k = n) : ∀ k ∈ l ++ l', k.Bare ∨ k = n := by
  intro k hk
  exact (List.mem_append.mp hk).elim (fun hk => Or.inl (hl k hk)) (hl' k)

/-- A declaration takes its place in front of its name, of one more leaf and of what has grown
behind these. -/
private theorem header_grows {d d' : Draft} {name text : String} (leaf : Node) {n : Node}
    {rest parts fresh : List Node}
    (hrest : Grows (((d.placed name).placed name).placed text) d' parts rest fresh)
    (hbare : ∀ k ∈ fresh, k.Bare)
    (hn : n.children = .identifier ⟨(d.placed name).nextOrigin name, some name⟩ :: leaf :: rest)
    (hid : n.id = (d.nextOrigin name).id) (hname : n.named? = none)
    (hleaf : leaf.children = []) (hinert : leaf.Inert)
    (hleafId : leaf.id = (((d.placed name).placed name).nextOrigin text).id) :
    ∃ fresh', Grows d d' parts [n] fresh' ∧ ∀ k ∈ fresh', k.Bare ∨ k = n := by
  let word : Identifier := ⟨(d.placed name).nextOrigin name, some name⟩
  have hword : Grows (d.placed name) ((d.placed name).placed name) [] [.identifier word]
      [.identifier word] := Grows.leaf _ name rfl rfl rfl
  have hchildren := hword.append ((Grows.leaf _ text hleaf hleafId hinert.named?).append hrest)
  refine ⟨_, hchildren.before hn hid hname, ?_⟩
  intro k hk
  simp only [List.cons_append, List.nil_append, List.mem_cons] at hk
  rcases hk with rfl | rfl | rfl | hk
  · exact Or.inr rfl
  · exact Or.inl (inert_identifier word).1
  · exact Or.inl hinert.1
  · exact Or.inl (hbare k hk)

private theorem inert_string (x : StringLiteral) : (Node.string x).Inert := ⟨⟨trivial, rfl⟩, rfl⟩

private theorem declareResource_grows (name : String) (properties : Option (Entries Literal))
    (dependsOn : Option (List String)) (loop condition : Bool) {x : Entered}
    (hx : x = .resource name properties dependsOn loop condition) (hplaceable : x.Placeable)
    (d : Draft) :
    ∃ n d' fresh, Enters x d n d' fresh := by
  subst hx
  let typeText := "Microsoft.Fake/things@2024-01-01"
  obtain ⟨v, d₁, fresh₁, hyields₁, hgrows₁, hbare, hloop, hresource⟩ :=
    resourceValue_grows name properties dependsOn loop condition hplaceable d
  let word : Identifier := ⟨(d₁.placed name).nextOrigin name, some name⟩
  let kind : StringLiteral :=
    ⟨((d₁.placed name).placed name).nextOrigin typeText, some typeText⟩
  let r : Resource := ⟨d₁.nextOrigin name, some word, some kind, some v⟩
  obtain ⟨fresh₂, hgrows₂, hfresh₂⟩ := header_grows (.string kind) (n := .resourceDecl r)
    (Grows.refl _ [v]) (by simp) rfl rfl rfl rfl (inert_string kind) rfl
  refine ⟨.resourceDecl r, _, _, ?_, hgrows₁.trans hgrows₂, bare_append hbare hfresh₂, ?_⟩
  · exact hyields₁.bind ((yields_place d₁ name).bind ((yields_identifier _ name).bind
      ((yields_string _ typeText).bind (yields_enter _ _))))
  · refine ⟨rfl, ⟨_, rfl⟩, ?_, ?_⟩
    · rintro ⟨_, _, _, _⟩ rfl rfl
      exact hloop
    · rintro _ _ _ _ _ heq
      cases heq
      exact ⟨r, rfl, hresource r rfl⟩

private theorem declareModule_grows (name : String) (params : Option (Entries Literal))
    (dependsOn : Option (List String)) (loop : Bool) {x : Entered}
    (hx : x = .module name params dependsOn loop) (hplaceable : x.Placeable) (d : Draft) :
    ∃ n d' fresh, Enters x d n d' fresh := by
  subst hx
  let pathText := "./" ++ name ++ ".bicep"
  obtain ⟨listed, d₁, fresh₁, hyields₁, hgrows₁, hbare, hlist⟩ := explicitEntry_grows dependsOn d
  let word : Identifier := ⟨(d₁.placed name).nextOrigin name, some name⟩
  let path : StringLiteral :=
    ⟨((d₁.placed name).placed name).nextOrigin pathText, some pathText⟩
  let own := ("name", Literal.text name) :: ownEntries "params" params
  have hkeys : Entries.putAll [] (own ++ listed) = own ++ listed := by
    cases params <;> cases hlist <;>
      simp [own, ownEntries, Entries.putAll, Entries.put, dependsOnKey]
  obtain ⟨body, d₂, fresh₂, hyields₂, hgrows₂, hinert₂, _⟩ := object_grows (own ++ listed) hkeys
    (placeableIn_append ⟨trivial, placeableIn_ownEntries hplaceable⟩ hlist.placeable)
    (((d₁.placed name).placed name).placed pathText)
  obtain ⟨v, d₃, fresh₃, hyields₃, hgrows₃, hinert₃, _, hloop⟩ := wrap_grows body loop false d₂
  rw [nodesIn_append, show Literal.nodesIn own = _ from nodesIn_ownEntries "params" params]
    at hgrows₂
  have hbare' : ∀ k ∈ fresh₂ ++ fresh₃, k.Bare := by
    intro k hk
    exact (List.mem_append.mp hk).elim (fun hk => (hinert₂ k hk).1) fun hk => (hinert₃ k hk).1
  let y : Module := ⟨d₁.nextOrigin name, some word, some path, some v⟩
  obtain ⟨fresh₄, hgrows₄, hfresh₄⟩ := header_grows (.string path) (n := .moduleDecl y)
    (hgrows₂.trans hgrows₃) hbare' rfl rfl rfl rfl (inert_string path) rfl
  refine ⟨.moduleDecl y, _, _, ?_, (beside _ hgrows₁).trans hgrows₄, bare_append hbare hfresh₄, ?_⟩
  · exact hyields₁.bind ((yields_place d₁ name).bind ((yields_identifier _ name).bind
      ((yields_string _ pathText).bind (hyields₂.bind (hyields₃.bind (yields_enter _ _))))))
  · refine ⟨rfl, ⟨_, rfl⟩, ?_, fun _ _ _ _ _ hx => by cases hx⟩
    rintro ⟨_, _, _, _⟩ rfl rfl
    exact hloop

private theorem declareVariable_grows (name : String) (value : Literal) {x : Entered}
    (hx : x = .variable name value) (hplaceable : x.Placeable) (d : Draft) :
    ∃ n d' fresh, Enters x d n d' fresh := by
  subst hx
  let word : Identifier := ⟨(d.placed name).nextOrigin name, some name⟩
  obtain ⟨v, d', fresh, hyields, hgrows, hinert, _⟩ :=
    placeValue_grows value (hplaceable value rfl) ((d.placed name).placed name)
  let y : Variable := ⟨d.nextOrigin name, some word, some v⟩
  have hword : Grows (d.placed name) ((d.placed name).placed name) [] [.identifier word]
      [.identifier word] := Grows.leaf _ name rfl rfl rfl
  refine ⟨.variableDecl y, d', _, ?_,
    (hword.append hgrows).before (n := .variableDecl y) rfl rfl rfl, ?_, ?_⟩
  · exact (yields_place d name).bind ((yields_identifier _ name).bind
      (hyields.bind (yields_enter _ _)))
  · intro k hk
    simp only [List.cons_append, List.nil_append, List.mem_cons] at hk
    rcases hk with rfl | rfl | hk
    · exact Or.inr rfl
    · exact Or.inl (inert_identifier word).1
    · exact Or.inl (hinert k hk).1
  · refine ⟨rfl, ⟨_, rfl⟩, ?_, fun _ _ _ _ _ hx => by cases hx⟩
    rintro ⟨_, _, _, _⟩ rfl rfl
    rfl

private theorem declareParameter_grows (name typeName : String) {x : Entered}
    (hx : x = .parameter name typeName) (d : Draft) :
    ∃ n d' fresh, Enters x d n d' fresh := by
  subst hx
  let word : Identifier := ⟨(d.placed name).nextOrigin name, some name⟩
  let typeWord : Identifier := ⟨((d.placed name).placed name).nextOrigin typeName, some typeName⟩
  let y : Parameter := ⟨d.nextOrigin name, some word, some typeWord⟩
  obtain ⟨fresh, hgrows, hfresh⟩ := header_grows (.identifier typeWord)
    (n := .parameterDecl y) (Grows.refl _ []) (by simp) rfl rfl rfl rfl
    (inert_identifier typeWord) rfl
  refine ⟨.parameterDecl y, _, fresh, ?_, hgrows, hfresh, ?_⟩
  · exact (yields_place d name).bind ((yields_identifier _ name).bind
      ((yields_identifier _ typeName).bind (yields_enter _ _)))
  · refine ⟨rfl, ⟨_, rfl⟩, ?_, fun _ _ _ _ _ hx => by cases hx⟩
    rintro ⟨_, _, _, _⟩ rfl rfl
    rfl

private theorem declareOutput_grows (name : String) (value : Literal) {x : Entered}
    (hx : x = .output name value) (hplaceable : x.Placeable) (d : Draft) :
    ∃ n d' fresh, Enters x d n d' fresh := by
  subst hx
  let word : Identifier := ⟨(d.placed name).nextOrigin name, some name⟩
  let typeWord : Identifier := ⟨((d.placed name).placed name).nextOrigin "string", some "string"⟩
  obtain ⟨v, d', fresh, hyields, hgrows, hinert, _⟩ :=
    placeValue_grows value (hplaceable value rfl) (((d.placed name).placed name).placed "string")
  let y : Output := ⟨d.nextOrigin name, some word, some typeWord, some v⟩
  obtain ⟨fresh', hgrows', hfresh⟩ := header_grows (.identifier typeWord)
    (n := .outputDecl y) hgrows (fun k hk => (hinert k hk).1) rfl rfl rfl rfl
    (inert_identifier typeWord) rfl
  refine ⟨.outputDecl y, d', fresh', ?_, hgrows', hfresh, ?_⟩
  · exact (yields_place d name).bind ((yields_identifier _ name).bind
      ((yields_identifier _ "string").bind (hyields.bind (yields_enter _ _))))
  · refine ⟨rfl, ⟨_, rfl⟩, ?_, fun _ _ _ _ _ hx => by cases hx⟩
    rintro ⟨_, _, _, _⟩ rfl rfl
    rfl

/-- A call puts the nodes it is given into one new declaration, which it enters. -/
theorem declare_grows : (x : Entered) → x.Placeable → (d : Draft) →
    ∃ n d' fresh, Enters x d n d' fresh
  | .resource _ _ _ _ _, hx, d => declareResource_grows _ _ _ _ _ rfl hx d
  | .module _ _ _ _, hx, d => declareModule_grows _ _ _ _ rfl hx d
  | .variable _ _, hx, d => declareVariable_grows _ _ rfl hx d
  | .parameter _ _, _, d => declareParameter_grows _ _ rfl d
  | .output _ _, hx, d => declareOutput_grows _ _ rfl hx d

end Draft

end InfraLint
