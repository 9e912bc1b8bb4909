import InfraLint.Proofs.Keeping

/-!
Calls of a draft, and what is left of them. A call is given nodes that the draft has handed out
before and gives one node, unless it fails. The draft remembers of a call the references that it
has made, the declaration that it has entered and the one that it has spared from getting a
symbol; invariant: between calls it remembers just that.
-/
namespace InfraLint

namespace Draft

def ResourceForm.nodes (form : ResourceForm) : List Node :=
  match form.value with
  | some n => [n]
  | none =>
    form.properties.elim [] (fun p => (Literal.ofEntries p).nodes) ++
      form.dependsOn.elim [] Explicit.nodes ++ form.children.reduceOption.map .resourceDecl

/-- A given right-hand side stands for the listed dependencies too. -/
def ResourceForm.names (form : ResourceForm) : List String :=
  match form.value with
  | some _ => []
  | none => form.dependsOn.elim [] Explicit.names

def ModuleForm.nodes (form : ModuleForm) : List Node :=
  form.params.elim [] (fun p => (Literal.ofEntries p).nodes) ++
    form.dependsOn.elim [] Explicit.nodes

def ModuleForm.names (form : ModuleForm) : List String := form.dependsOn.elim [] Explicit.names

inductive Call where
  | expression (x : Expression)
  | string (value : String)
  | object (entries : Entries Literal) (resources : List (Option Resource))
  | array (values : List Literal)
  | resource (form : ResourceForm)
  | module (form : ModuleForm)
  | variable (name : String) (value : Literal)
  | parameter (name typeName : String)
  | output (name : String) (value : Literal)

namespace Call

def make : Call → Drafting Node
  | .expression x => x.make
  | .string value => return .string (← Draft.string value)
  | .object entries resources => return .object (← Draft.object entries resources)
  | .array values => return .array (← Draft.array values)
  | .resource form => declareResource form
  | .module form => declareModule form
  | .variable name value => declareVariable name value
  | .parameter name typeName => declareParameter name typeName
  | .output name value => declareOutput name value

def nodes : Call → List Node
  | .object entries resources =>
    (Literal.ofEntries entries).nodes ++ resources.reduceOption.map .resourceDecl
  | .array values => Literal.nodesAll values
  | .resource form => form.nodes
  | .module form => form.nodes
  | .variable _ value | .output _ value => value.nodes
  | .expression _ | .string _ | .parameter _ _ => []

def names : Call → List String
  | .expression x => x.names
  | .resource form => form.names
  | .module form => form.names
  | _ => []

/-- The node of the call becomes a declaration of the document. -/
def enters : Call → Bool
  | .resource form => form.topLevel
  | .module _ | .variable _ _ | .parameter _ _ | .output _ _ => true
  | _ => false

/-- The node of the call is a declaration that gets no symbol. -/
def spares : Call → Bool
  | .resource form => !form.declared
  | _ => false

end Call

def finished (d : Draft) (n : Node) (enters spares : Bool) : Draft :=
  { d with
    declarations := if enters then d.declarations ++ [n] else d.declarations
    undeclared := if spares then n.id :: d.undeclared else d.undeclared }

variable {d d' b : Draft} {made made' : Set Node} {names : List String}

/-- A call that began at `b` has kept the stock. If it has come to a node, this is in stock and
entered or spared, and new if it is spared; after a failure nothing is. -/
def Finishes (b : Draft) (made : Set Node) (names : List String) (enters spares : Bool)
    (outcome : Except Unplaceable Node) (d' : Draft) : Prop :=
  ∃ d made', Leads b made names d made' ∧ (∀ e, outcome = .error e → d' = d) ∧
    ∀ n, outcome = .ok n →
      n ∈ made' ∧ (spares = true → n ∉ made) ∧ d' = d.finished n enters spares

section Finishes

variable {enters spares : Bool}

theorem Leads.failed (h : Leads b made names d made') (e : Unplaceable) :
    Finishes b made names enters spares (.error e) d :=
  ⟨d, made', h, fun _ _ => rfl, fun _ heq => nomatch heq⟩

/-- The node of a call takes its place, then its children come to be, and then the node. -/
theorem Leads.finish (h : Leads b made names d made') {text : String} {d' : Draft}
    {made'' : Set Node} (h' : Leads (d.placed text) made' [] d' made'') (enters spares : Bool)
    {n : Node} {l : List Node} (horigin : n.origin = d.nextOrigin text) (hchildren : n.children = l)
    (hl : ∀ c ∈ l, c ∈ made'') (hname : n.named? = none) (hlabelled : n.Labelled) :
    Finishes b made names enters spares (.ok n) (d'.finished n enters spares) := by
  have hnode := Leads.enclose h.stock h' horigin hchildren hl hname hlabelled
  refine ⟨d', _, h.followed hnode, (fun _ heq => nomatch heq), ?_⟩
  intro n' heq
  obtain rfl := Except.ok.inj heq
  exact ⟨Set.mem_insert n _, fun _ hn => h.stock.not_mem horigin (h.kept hn), rfl⟩

theorem Ends.finishes {c : Drafting Node} (hc : Ends c d (Keeps b made names fun n => [n])) :
    Ends c d (Finishes b made names false false) := by
  obtain ⟨made', hleads, hparts⟩ := hc
  refine ⟨_, made', hleads, fun _ _ => rfl, fun n heq => ⟨hparts n heq n ?_, ?_, rfl⟩⟩
  · exact List.mem_singleton_self n
  · exact fun hspares => absurd hspares Bool.false_ne_true

end Finishes

/-- What is written under a key of its own, if anything is, and what is listed. -/
private theorem mem_own_listed {n : Node} {key : String} {written : Option (Entries Literal)}
    {listed : Entries Literal}
    (h : n ∈ Literal.nodesIn (ownEntries key written ++ listed)) :
    n ∈ written.elim [] (fun p => (Literal.ofEntries p).nodes) ∨ n ∈ Literal.nodesIn listed := by
  obtain ⟨e, he, hn⟩ := Literal.mem_nodesIn_iff.mp h
  rcases List.mem_append.mp he with he | he
  · cases written with
    | none => exact absurd he List.not_mem_nil
    | some p =>
      rw [List.mem_singleton.mp he] at hn
      exact Or.inl hn
  · exact Or.inr (Literal.mem_nodesIn_iff.mpr ⟨e, he, hn⟩)

theorem resourceValue_keeps (form : ResourceForm) (hs : d.Stock made)
    (hx : ∀ n ∈ form.nodes, n ∈ made) :
    Ends (resourceValue form) d (Keeps d made form.names fun n => [n]) := by
  obtain ⟨_, properties, dependsOn, value, loop, condition, _, _, children⟩ := form
  cases value with
  | some n => exact (Yields.pure n d).ends ((Leads.refl hs).ok hx)
  | none =>
    obtain ⟨hwritten, hchildren⟩ := List.forall_mem_append.mp hx
    obtain ⟨hproperties, hlisted⟩ := List.forall_mem_append.mp hwritten
    refine (explicitEntry_keeps dependsOn hs hlisted).bind ?_ fun e _ _ h => h.error e
    intro listed d₁ made₁ h₁ hentry
    refine (object_keeps _ children h₁.stock ?_ fun n hn => h₁.kept (hchildren n hn)).bind ?_
      fun e _ _ h => (h₁.followed h).error e
    · intro n hn
      exact (mem_own_listed (mem_nodesIn_of_ofEntries hn)).elim
        (fun hn => h₁.kept (hproperties n hn)) (hentry n)
    · intro body d₂ made₂ h₂ hbody
      exact (wrap_keeps body loop condition h₂.stock (hbody _ List.mem_cons_self)).after
        (h₁.followed h₂)

/-- The resource takes its place behind its value, and is spared before it is entered. -/
theorem declareResource_finishes (form : ResourceForm) (hs : d.Stock made)
    (hx : ∀ n ∈ form.nodes, n ∈ made) :
    Ends (declareResource form) d
      (Finishes d made form.names form.topLevel (!form.declared)) := by
  unfold declareResource
  refine (resourceValue_keeps form hs hx).bind ?_ fun e _ _ h => h.failed e
  obtain ⟨name, _, _, _, _, _, topLevel, declared, _⟩ := form
  intro v d₁ made₁ h₁ hv
  let typeText := "Microsoft.Fake/things@2024-01-01"
  let word : Identifier := ⟨(d₁.placed name).nextOrigin name, some name⟩
  let type : StringLiteral := ⟨((d₁.placed name).placed name).nextOrigin typeText, some typeText⟩
  let node : Node := .resourceDecl ⟨d₁.nextOrigin name, some word, some type, some v⟩
  have hparts := ((Leads.refl (h₁.stock.placed name)).word name).quoted typeText
  have hchildren : ∀ c ∈ [.identifier word, .string type, v], c ∈ _ :=
    List.forall_mem_cons.mpr ⟨Set.mem_insert_of_mem _ (Set.mem_insert _ _),
      List.forall_mem_cons.mpr ⟨Set.mem_insert _ _, fun c hc => hparts.kept (hv c hc)⟩⟩
  have hfinish := h₁.finish hparts topLevel (!declared) (n := node) rfl rfl hchildren rfl
    fun _ => rfl
  refine (yields_place d₁ name).ends_bind ((yields_identifier _ name).ends_bind
    ((yields_string _ typeText).ends_bind ?_))
  cases topLevel <;> cases declared <;> exact hfinish

theorem declareModule_finishes (form : ModuleForm) (hs : d.Stock made)
    (hx : ∀ n ∈ form.nodes, n ∈ made) :
    Ends (declareModule form) d (Finishes d made form.names true false) := by
  obtain ⟨name, params, dependsOn, loop⟩ := form
  obtain ⟨hparams, hlisted⟩ := List.forall_mem_append.mp hx
  unfold declareModule
  refine (explicitEntry_keeps dependsOn hs hlisted).bind ?_ fun e _ _ h => h.failed e
  intro listed d₁ made₁ h₁ hentry
  let pathText := "./" ++ name ++ ".bicep"
  let word : Identifier := ⟨(d₁.placed name).nextOrigin name, some name⟩
  let path : StringLiteral := ⟨((d₁.placed name).placed name).nextOrigin pathText, some pathText⟩
  have hparts := ((Leads.refl (h₁.stock.placed name)).word name).quoted pathText
  refine (yields_place d₁ name).ends_bind ((yields_identifier _ name).ends_bind
    ((yields_string _ pathText).ends_bind ?_))
  refine (object_keeps _ [] hparts.stock ?_ ?_).bind ?_
    fun e _ _ h => (h₁.followed ((Leads.place h₁.stock name).followed (hparts.followed h))).failed e
  · intro n hn
    have hall := mem_nodesIn_of_ofEntries hn
    have hmem : n ∈ Literal.nodesIn (ownEntries "params" params ++ listed) := hall
    exact (mem_own_listed hmem).elim (fun hn => hparts.kept (h₁.kept (hparams n hn)))
      fun hn => hparts.kept (hentry n hn)
  · exact fun n hn => absurd hn List.not_mem_nil
  intro body d₂ made₂ h₂ hbody
  have h₃ := hparts.followed h₂
  refine (wrap_keeps body loop false h₂.stock (hbody _ List.mem_cons_self)).bind ?_ fun e _ _ h =>
    (h₁.followed ((Leads.place h₁.stock name).followed (h₃.followed h))).failed e
  intro v d₄ made₄ h₄ hv
  have hkept := h₂.kept.trans h₄.kept
  have hchildren : ∀ c ∈ [.identifier word, .string path, v], c ∈ made₄ :=
    List.forall_mem_cons.mpr ⟨hkept (Set.mem_insert_of_mem _ (Set.mem_insert _ _)),
      List.forall_mem_cons.mpr ⟨hkept (Set.mem_insert _ _), hv⟩⟩
  have hfinish := h₁.finish (h₃.followed h₄) true false
    (n := .moduleDecl ⟨d₁.nextOrigin name, some word, some path, some v⟩) rfl rfl hchildren rfl
    fun _ => rfl
  exact (yields_enter d₄ _).ends hfinish

theorem declareVariable_finishes (name : String) (x : Literal) (hs : d.Stock made)
    (hx : ∀ n ∈ x.nodes, n ∈ made) :
    Ends (declareVariable name x) d (Finishes d made [] true false) := by
  let word : Identifier := ⟨(d.placed name).nextOrigin name, some name⟩
  have hword := (Leads.refl (hs.placed name)).word name
  refine (yields_place d name).ends_bind ((yields_identifier _ name).ends_bind ?_)
  refine (placeValue_keeps x hword.stock fun n hn => hword.kept (hx n hn)).bind ?_
    fun e _ _ h => ((Leads.place hs name).followed (hword.followed h)).failed e
  intro v d₁ made₁ h₁ hv
  have hchildren : ∀ c ∈ [.identifier word, v], c ∈ made₁ :=
    List.forall_mem_cons.mpr ⟨h₁.kept (Set.mem_insert _ _), hv⟩
  have hfinish := (Leads.refl hs).finish (hword.followed h₁) true false
    (n := .variableDecl ⟨d.nextOrigin name, some word, some v⟩) rfl rfl hchildren rfl fun _ => rfl
  exact (yields_enter d₁ _).ends hfinish

theorem declareParameter_finishes (name typeName : String) (hs : d.Stock made) :
    Ends (declareParameter name typeName) d (Finishes d made [] true false) := by
  let word : Identifier := ⟨(d.placed name).nextOrigin name, some name⟩
  let typeWord : Identifier := ⟨((d.placed name).placed name).nextOrigin typeName, some typeName⟩
  have hwords := ((Leads.refl (hs.placed name)).word name).word typeName
  have hchildren : ∀ c ∈ [.identifier word, .identifier typeWord],
      c ∈ insert (.identifier typeWord) (insert (Node.identifier word) made) :=
    List.forall_mem_cons.mpr ⟨Set.mem_insert_of_mem _ (Set.mem_insert _ _),
      List.forall_mem_singleton.mpr (Set.mem_insert _ _)⟩
  have hfinish := (Leads.refl hs).finish hwords true false
    (n := .parameterDecl ⟨d.nextOrigin name, some word, some typeWord⟩) rfl rfl hchildren rfl
    fun _ => rfl
  exact (yields_place d name).ends_bind ((yields_identifier _ name).ends_bind
    ((yields_identifier _ typeName).ends_bind ((yields_enter _ _).ends hfinish)))

theorem declareOutput_finishes (name : String) (x : Literal) (hs : d.Stock made)
    (hx : ∀ n ∈ x.nodes, n ∈ made) :
    Ends (declareOutput name x) d (Finishes d made [] true false) := by
  let word : Identifier := ⟨(d.placed name).nextOrigin name, some name⟩
  let typeWord : Identifier := ⟨((d.placed name).placed name).nextOrigin "string", some "string"⟩
  have hwords := ((Leads.refl (hs.placed name)).word name).word "string"
  refine (yields_place d name).ends_bind ((yields_identifier _ name).ends_bind
    ((yields_identifier _ "string").ends_bind ?_))
  refine (placeValue_keeps x hwords.stock fun n hn => hwords.kept (hx n hn)).bind ?_
    fun e _ _ h => ((Leads.place hs name).followed (hwords.followed h)).failed e
  intro v d₁ made₁ h₁ hv
  have hchildren : ∀ c ∈ [.identifier word, .identifier typeWord, v], c ∈ made₁ :=
    List.forall_mem_cons.mpr ⟨h₁.kept (Set.mem_insert_of_mem _ (Set.mem_insert _ _)),
      List.forall_mem_cons.mpr ⟨h₁.kept (Set.mem_insert _ _), hv⟩⟩
  have hfinish := (Leads.refl hs).finish (hwords.followed h₁) true false
    (n := .outputDecl ⟨d.nextOrigin name, some word, some typeWord, some v⟩) rfl rfl hchildren rfl
    fun _ => rfl
  exact (yields_enter d₁ _).ends hfinish

namespace Call

/-- Whatever the call is given, and whether it succeeds or not. -/
theorem finishes (c : Call) (hs : d.Stock made) (hc : ∀ n ∈ c.nodes, n ∈ made) :
    Ends c.make d (Finishes d made c.names c.enters c.spares) := by
  cases c with
  | expression x => exact (make_keeps x hs).finishes
  | string value =>
    have hleads := (Leads.refl hs).quoted value
    have hkeeps : Ends (Draft.string value >>= fun x => pure (.string x)) d
        (Keeps d made [] fun n => [n]) :=
      (yields_string d value).ends_bind ((Yields.pure _ _).ends (hleads.ok (by simp)))
    exact hkeeps.finishes
  | object entries resources =>
    obtain ⟨hentries, hresources⟩ := List.forall_mem_append.mp hc
    refine ((object_keeps entries resources hs hentries hresources).bind ?_
      fun e _ _ h => h.error e).finishes
    exact fun x d' made' h hx => (Yields.pure _ _).ends (h.ok hx)
  | array values =>
    refine ((array_keeps values hs hc).bind ?_ fun e _ _ h => h.error e).finishes
    exact fun a d' made' h ha => (Yields.pure _ _).ends (h.ok ha)
  | resource form => exact declareResource_finishes form hs hc
  | module form => exact declareModule_finishes form hs hc
  | «variable» name value => exact declareVariable_finishes name value hs hc
  | parameter name typeName => exact declareParameter_finishes name typeName hs
  | output name value => exact declareOutput_finishes name value hs hc

end Call

end Draft

end InfraLint
