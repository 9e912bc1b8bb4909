import InfraLint.Proofs.BindingHistory
import InfraLint.Proofs.Drafts

/-!
What names stand for when a draft is built. Each declaration gets a symbol of its own, in document
order, and each bare reference is bound to the last declaration of its name. Main statement: a
sound draft without loose expressions can be built, and then declarations and references stand for
these symbols, and nothing else stands for anything.
-/
namespace InfraLint

/-- The symbol of a declaration. -/
def Node.symbol (id : Identity) (n : Node) : Symbol :=
  ⟨id, n.declares?.getD .variable, n.declaredName?.bind Identifier.name, some n⟩

namespace Model

theorem symbolOf_eq_some {m : Model} {n : Node} {s : Symbol}
    (hmem : ∃ b ∈ m.bindings, b.node = n.id)
    (hall : ∀ b ∈ m.bindings, b.node = n.id → b.symbol = s) : m.symbolOf (some n) = some s := by
  obtain ⟨b, hb, hid⟩ := hmem
  have hsome : (m.bindings.find? fun b => b.node == n.id).isSome :=
    List.find?_isSome.mpr ⟨b, hb, by simp [hid]⟩
  obtain ⟨found, hfound⟩ := Option.isSome_iff_exists.mp hsome
  have hnode : found.node = n.id := by simpa using List.find?_some hfound
  show (m.bindings.find? fun b => b.node == n.id).map Binding.symbol = some s
  rw [hfound, Option.map_some, hall found (List.mem_of_find?_eq_some hfound) hnode]

theorem exists_binding {m : Model} {n : Node} {s : Symbol} (h : m.symbolOf (some n) = some s) :
    ∃ b ∈ m.bindings, b.node = n.id := by
  obtain ⟨b, hfind, _⟩ := Option.map_eq_some_iff.mp h
  have hid := List.find?_some hfind
  exact ⟨b, List.mem_of_find?_eq_some hfind, beq_iff_eq.mp hid⟩

theorem symbolOf_eq_none {m : Model} {n : Node} (h : ∀ b ∈ m.bindings, b.node ≠ n.id) :
    m.symbolOf (some n) = none := by
  have hnone : (m.bindings.find? fun b => b.node == n.id) = none := by
    rw [List.find?_eq_none]
    intro b hb
    simpa using h b hb
  show (m.bindings.find? fun b => b.node == n.id).map Binding.symbol = none
  rw [hnone, Option.map_none]

end Model

namespace Draft

/-- The symbols of declarations, with identities from a serial number on. -/
def symbolsFrom (maker : Nat) : Nat → List Node → List Symbol
  | _, [] => []
  | serial, n :: rest => n.symbol ⟨maker, serial⟩ :: symbolsFrom maker (serial + 1) rest

/-- The bindings of declarations to these symbols. -/
def bindingsFrom (maker : Nat) : Nat → List Node → List Binding
  | _, [] => []
  | serial, n :: rest =>
    ⟨n.id, n.symbol ⟨maker, serial⟩⟩ :: bindingsFrom maker (serial + 1) rest

theorem symbolsFrom_getElem? (maker serial : Nat) (nodes : List Node) (j : Nat) :
    (symbolsFrom maker serial nodes)[j]? =
      nodes[j]?.map (Node.symbol ⟨maker, serial + j⟩) := by
  induction nodes generalizing serial j with
  | nil => rfl
  | cons n rest ih =>
    cases j with
    | zero => rfl
    | succ j =>
      rw [symbolsFrom, List.getElem?_cons_succ, ih, List.getElem?_cons_succ]
      congr 3
      omega

theorem mem_bindingsFrom_iff {maker serial : Nat} {nodes : List Node} {b : Binding} :
    b ∈ bindingsFrom maker serial nodes ↔
      ∃ (j : Nat) (n : Node), nodes[j]? = some n ∧ b = ⟨n.id, n.symbol ⟨maker, serial + j⟩⟩ := by
  induction nodes generalizing serial with
  | nil => simp [bindingsFrom]
  | cons n rest ih =>
    rw [bindingsFrom, List.mem_cons, ih]
    constructor
    · intro h
      rcases h with rfl | ⟨j, k, hk, rfl⟩
      · exact ⟨0, n, rfl, rfl⟩
      · refine ⟨j + 1, k, hk, ?_⟩
        rw [Nat.add_right_comm, Nat.add_assoc]
    · intro h
      obtain ⟨j, k, hk, rfl⟩ := h
      cases j with
      | zero =>
        obtain rfl := Option.some.inj hk
        exact Or.inl rfl
      | succ j =>
        refine Or.inr ⟨j, k, hk, ?_⟩
        rw [Nat.add_right_comm, Nat.add_assoc]

theorem symbolsFrom_append (maker serial : Nat) (l l' : List Node) :
    symbolsFrom maker serial (l ++ l') =
      symbolsFrom maker serial l ++ symbolsFrom maker (serial + l.length) l' := by
  induction l generalizing serial with
  | nil => rfl
  | cons n rest ih =>
    rw [List.cons_append, symbolsFrom, symbolsFrom, ih, List.length_cons, Nat.add_right_comm,
      Nat.add_assoc, List.cons_append]

theorem bindingsFrom_append (maker serial : Nat) (l l' : List Node) :
    bindingsFrom maker serial (l ++ l') =
      bindingsFrom maker serial l ++ bindingsFrom maker (serial + l.length) l' := by
  induction l generalizing serial with
  | nil => rfl
  | cons n rest ih =>
    rw [List.cons_append, bindingsFrom, bindingsFrom, ih, List.length_cons, Nat.add_right_comm,
      Nat.add_assoc, List.cons_append]

theorem exists_of_mem_symbolsFrom {maker serial : Nat} {nodes : List Node} {s : Symbol}
    (h : s ∈ symbolsFrom maker serial nodes) : ∃ n ∈ nodes, ∃ id, s = n.symbol id := by
  obtain ⟨j, hj⟩ := List.getElem?_of_mem h
  rw [symbolsFrom_getElem?] at hj
  obtain ⟨n, hn, heq⟩ := Option.map_eq_some_iff.mp hj
  exact ⟨n, List.mem_of_getElem? hn, _, heq.symm⟩

theorem exists_of_mem_bindingsFrom {maker serial : Nat} {nodes : List Node} {b : Binding}
    (h : b ∈ bindingsFrom maker serial nodes) : ∃ n ∈ nodes, b.node = n.id := by
  obtain ⟨j, n, hj, rfl⟩ := mem_bindingsFrom_iff.mp h
  exact ⟨n, List.mem_of_getElem? hj, rfl⟩

theorem latest?_eq_some {symbols : List Symbol} {name : Option String} {s : Symbol}
    (h : latest? symbols name = some s) : s ∈ symbols ∧ s.name = name := by
  unfold latest? at h
  have hname := List.find?_some h
  exact ⟨List.mem_of_find?_eq_some h, beq_iff_eq.mp hname⟩

/-- The last declaration of a name has its latest symbol. -/
theorem latest?_symbolsFrom (maker : Nat) (before : List Node) {after : List Node} {n : Node}
    {name : String} (hn : n.label? = some name) (hafter : ∀ j ∈ after, j.label? ≠ some name) :
    latest? (symbolsFrom maker 0 (before ++ n :: after)).reverse (some name) =
      some (n.symbol ⟨maker, before.length⟩) := by
  rw [symbolsFrom_append, symbolsFrom, Nat.zero_add]
  refine find?_reverse_of_last (beq_iff_eq.mpr hn) ?_
  intro s hs hname
  obtain ⟨j, hj, id, rfl⟩ := exists_of_mem_symbolsFrom hs
  exact hafter j hj (beq_iff_eq.mp hname)

/-- The last place of a node decides what it is bound to. -/
theorem find?_bindingsFrom (maker : Nat) (before : List Node) {after : List Node} {n : Node}
    (hafter : ∀ j ∈ after, j.id ≠ n.id) :
    ((bindingsFrom maker 0 (before ++ n :: after)).reverse.find? fun b => b.node == n.id) =
      some ⟨n.id, n.symbol ⟨maker, before.length⟩⟩ := by
  rw [bindingsFrom_append, bindingsFrom, Nat.zero_add]
  refine find?_reverse_of_last (beq_self_eq_true n.id) ?_
  intro b hb hid
  obtain ⟨j, hj, hnode⟩ := exists_of_mem_bindingsFrom hb
  exact hafter j hj (hnode.symm.trans (beq_iff_eq.mp hid))

/-- The node is a declaration that is to get a symbol. -/
def isDeclared (d : Draft) (n : Node) : Bool := n.declares?.isSome && !d.isUndeclared n

theorem isDeclared_of_undeclared_eq_nil {d : Draft} (hu : d.undeclared = []) :
    d.isDeclared = fun n => n.declares?.isSome := by
  funext n
  rw [isDeclared, isUndeclared, hu]
  exact Bool.and_true _

/-- Only what is to get a symbol is given one. -/
theorem declareAll_filter (d : Draft) (m : Model) (nodes : List Node) :
    d.declareAll m nodes = d.declareAll m (nodes.filter d.isDeclared) := by
  induction nodes generalizing d m with
  | nil => rfl
  | cons n rest ih =>
    cases hn : d.isDeclared n with
    | false =>
      rw [List.filter_cons_of_neg (by simp [hn]), ← ih, declareAll]
      exact if_neg (by rw [← isDeclared, hn]; exact Bool.false_ne_true)
    | true =>
      rw [List.filter_cons_of_pos hn, declareAll, declareAll, ← isDeclared, hn]
      simp only [if_true]
      split
      · rfl
      · exact ih _ _

/-- Declarations of a document, named and all to be declared, get symbols one after another. -/
theorem declareAll_eq (d : Draft) (m : Model) (nodes : List Node)
    (hnodes : ∀ n ∈ nodes,
      m.program.Holds n ∧ d.isDeclared n = true ∧ n.declaredName?.isSome = true) :
    d.declareAll m nodes =
      ({ d with symbols := (symbolsFrom m.maker m.issued nodes).reverse ++ d.symbols },
        .ok { m with
          bindings := (bindingsFrom m.maker m.issued nodes).reverse ++ m.bindings
          issued := m.issued + nodes.length }) := by
  induction nodes generalizing d m with
  | nil => rfl
  | cons n rest ih =>
    obtain ⟨hholds, hdeclared, hname⟩ := hnodes n List.mem_cons_self
    have hkind : n.declares?.isSome = true := by
      rw [isDeclared, Bool.and_eq_true] at hdeclared
      exact hdeclared.1
    obtain ⟨kind, hkind'⟩ := Option.isSome_iff_exists.mp hkind
    obtain ⟨name, hname'⟩ := Option.isSome_iff_exists.mp hname
    have hsymbol : n.symbol m.fresh = ⟨m.fresh, kind, name.name, some n⟩ := by
      rw [Node.symbol, hkind', hname']
      rfl
    have hdeclare : m.declare (some n) = .ok (n.symbol m.fresh, { m with
        bindings := ⟨n.id, n.symbol m.fresh⟩ :: m.bindings
        issued := m.issued + 1 }) := by
      rw [hsymbol]
      simp only [Model.declare, hkind', hname', Model.bind_of_holds hholds]
      rfl
    rw [declareAll, ← isDeclared, hdeclared]
    simp only [if_true, hdeclare]
    rw [ih]
    · simp only [symbolsFrom, bindingsFrom, List.reverse_cons, List.append_assoc,
        List.cons_append, List.nil_append, List.length_cons, Model.fresh]
      congr 3
      omega
    · exact fun k hk => hnodes k (List.mem_cons_of_mem n hk)

/-- The bindings of references to the latest symbols of their names. -/
def referenceBindings (symbols : List Symbol) (references : List Reference) : List Binding :=
  references.filterMap fun r => (latest? symbols (some r.name)).map (Binding.mk r.node.id)

theorem bindAll_eq (symbols : List Symbol) (m : Model) (references : List Reference)
    (h : ∀ r ∈ references, (latest? symbols (some r.name)).isSome = true →
      m.program.Holds r.node) :
    bindAll symbols m references = .ok { m with
      bindings := (referenceBindings symbols references).reverse ++ m.bindings } := by
  induction references generalizing m with
  | nil => rfl
  | cons r rest ih =>
    have hrest := fun r' hr' => h r' (List.mem_cons_of_mem r hr')
    unfold bindAll
    cases hlatest : latest? symbols (some r.name) with
    | none =>
      simp only [ih m hrest, referenceBindings, List.filterMap_cons, hlatest, Option.map_none]
    | some symbol =>
      have hholds : m.program.Holds r.node := h r List.mem_cons_self (by rw [hlatest]; rfl)
      simp only [Model.bind_of_holds hholds]
      rw [ih { m with bindings := ⟨r.node.id, symbol⟩ :: m.bindings } hrest]
      simp only [referenceBindings, List.filterMap_cons, hlatest, Option.map_some,
        List.reverse_cons, List.append_assoc, List.cons_append, List.nil_append]

variable {doc : List (Entered × List Made)} {d : Draft}

theorem children_program (d : Draft) : (Node.program d.program).children = d.declarations := by
  rw [Node.children, Node.places_program]
  show (d.declarations.map some).filterMap id = _
  rw [List.filterMap_map, Function.id_comp, List.filterMap_some]

/-- In a built document the root has the next identity, so that no two nodes have one. -/
theorem Sound.distinct (h : Sound doc [] d) : (Node.program d.program).Distinct := by
  have hids := h.ids
  rw [allNodes, List.map_nil, List.append_nil] at hids
  have hnodup : ((List.range d.issued).map (Identity.mk d.maker)).Nodup := by
    refine List.Nodup.map ?_ List.nodup_range
    intro a b hab
    exact (Identity.mk.inj hab).2
  rw [Node.Distinct, Node.preorder_eq, children_program, List.map_cons, List.nodup_cons]
  refine ⟨?_, hids.nodup_iff.mpr hnodup⟩
  intro hmem
  obtain ⟨i, hi, heq⟩ := List.mem_map.mp (hids.mem_iff.mp hmem)
  have hserial : i = d.issued := (Identity.mk.inj heq).2
  rw [List.mem_range, hserial] at hi
  exact absurd hi (Nat.lt_irrefl _)

/-- The declarations of the document are those entered, in their order. -/
theorem Sound.filter_declares (h : Sound doc [] d) :
    ((Node.program d.program).preorder.filter fun n => n.declares?.isSome) = d.declarations := by
  have hone : ∀ n ∈ d.declarations, (n.preorder.filter fun k => k.declares?.isSome) = [n] := by
    intro n hmem
    obtain ⟨e, _, hn⟩ := forall₂_right h.declarations hmem
    rw [Node.preorder_eq, List.filter_cons_of_pos (by simp [hn.declares.kind])]
    refine congrArg (List.cons n) (List.filter_eq_nil_iff.mpr fun k hk => ?_)
    obtain ⟨c, hc, hkc⟩ := List.mem_flatMap.mp hk
    rw [(hn.below c hc k hkc).2]
    exact Bool.false_ne_true
  rw [Node.preorder_eq, children_program, List.filter_cons_of_neg (by exact Bool.false_ne_true),
    List.filter_flatMap, List.flatMap_congr hone]
  exact List.flatMap_singleton' _

theorem Sound.mem_references_iff (h : Sound doc [] d) {r : Reference} :
    r ∈ d.references ↔
      r.node ∈ (Node.program d.program).preorder ∧ r.node.named? = some r.name := by
  rw [h.references.mem_iff, List.mem_filterMap, Node.preorder_eq, children_program, List.mem_cons,
    allNodes, List.map_nil, List.append_nil]
  constructor
  · intro h'
    obtain ⟨n, hn, hr⟩ := h'
    obtain ⟨name, hname, rfl⟩ := Option.map_eq_some_iff.mp hr
    exact ⟨Or.inr hn, hname⟩
  · intro h'
    obtain ⟨hr | hr, hname⟩ := h'
    · rw [hr] at hname
      cases hname
    · refine ⟨r.node, hr, ?_⟩
      rw [Node.reference?, hname]
      rfl

/-- The symbols of the declarations of a draft, the latest first. -/
def latestFirst (d : Draft) (maker : Nat) : List Symbol :=
  (symbolsFrom maker 0 d.declarations).reverse

/-- The model is about the document of the draft, and in it declarations stand for symbols of
their own, references for the latest of these with their name, and other nodes for nothing. -/
structure Built (d : Draft) (maker : Nat) (m : Model) : Prop where
  program : m.program = .program d.program
  declaration : ∀ (j : Nat) (n : Node), d.declarations[j]? = some n →
    m.symbolOf (some n) = some (n.symbol ⟨maker, j⟩)
  other : ∀ k ∈ m.program.preorder, k.declares? = none → m.symbolOf (some k) =
    k.named?.bind fun name => latest? (d.latestFirst maker) (some name)

theorem exists_of_mem_referenceBindings {symbols : List Symbol} {references : List Reference}
    {b : Binding} (hb : b ∈ referenceBindings symbols references) :
    ∃ r ∈ references, latest? symbols (some r.name) = some b.symbol ∧ b.node = r.node.id := by
  obtain ⟨r, hr, hlatest⟩ := List.mem_filterMap.mp hb
  obtain ⟨s, hs, rfl⟩ := Option.map_eq_some_iff.mp hlatest
  exact ⟨r, hr, hs, rfl⟩

theorem named?_of_declares {n : Node} (h : n.declares?.isSome) : n.named? = none := by
  cases n with
  | variableAccess x => exact nomatch h
  | _ => rfl

private theorem Sound.declared (h : Sound doc [] d) {j : Nat} {n : Node}
    (hn : d.declarations[j]? = some n) :
    n ∈ (Node.program d.program).preorder ∧ n.declares?.isSome := by
  have hmem := List.mem_of_getElem? hn
  rw [← h.filter_declares] at hmem
  exact List.mem_filter.mp hmem

/-- What a reference is bound to is the latest symbol of its name. -/
private theorem Sound.reference_of_binding (h : Sound doc [] d) {maker : Nat} {b : Binding}
    (hb : b ∈ referenceBindings (d.latestFirst maker) d.references) {k : Node}
    (hk : k ∈ (Node.program d.program).preorder) (hid : b.node = k.id) :
    ∃ name, k.named? = some name ∧ latest? (d.latestFirst maker) (some name) = some b.symbol := by
  obtain ⟨r, hr, hlatest, hnode⟩ := exists_of_mem_referenceBindings hb
  obtain ⟨hr, hname⟩ := h.mem_references_iff.mp hr
  obtain rfl := h.distinct.eq_of_id hr hk (hnode.symm.trans hid)
  exact ⟨r.name, hname, hlatest⟩

/-- What a declaration is bound to is the symbol of its index. -/
private theorem Sound.declaration_of_binding (h : Sound doc [] d) {maker : Nat} {b : Binding}
    (hb : b ∈ bindingsFrom maker 0 d.declarations) {k : Node}
    (hk : k ∈ (Node.program d.program).preorder) (hid : b.node = k.id) :
    ∃ j, d.declarations[j]? = some k ∧ b.symbol = k.symbol ⟨maker, j⟩ := by
  obtain ⟨j, n, hj, rfl⟩ := mem_bindingsFrom_iff.mp hb
  obtain rfl := h.distinct.eq_of_id (h.declared hj).1 hk hid
  exact ⟨j, hj, by rw [Nat.zero_add]⟩

private theorem Sound.nodup_declarations (h : Sound doc [] d) : d.declarations.Nodup := by
  rw [← h.filter_declares]
  exact (List.Nodup.of_map Node.id h.distinct).filter _

section Bindings

variable {maker : Nat} {m : Model}

private theorem symbolOf_declaration (h : Sound doc [] d)
    (hbindings : ∀ b, b ∈ m.bindings ↔
      b ∈ referenceBindings (d.latestFirst maker) d.references ∨
        b ∈ bindingsFrom maker 0 d.declarations) {j : Nat} {n : Node}
    (hj : d.declarations[j]? = some n) : m.symbolOf (some n) = some (n.symbol ⟨maker, j⟩) := by
  obtain ⟨hn, hkind⟩ := h.declared hj
  have hbinding : ⟨n.id, n.symbol ⟨maker, j⟩⟩ ∈ bindingsFrom maker 0 d.declarations := by
    rw [mem_bindingsFrom_iff]
    exact ⟨j, n, hj, by rw [Nat.zero_add]⟩
  refine Model.symbolOf_eq_some ⟨_, (hbindings _).mpr (Or.inr hbinding), rfl⟩ ?_
  intro b hb hid
  rcases (hbindings b).mp hb with hb | hb
  · obtain ⟨name, hname, _⟩ := h.reference_of_binding hb hn hid
    exact nomatch (named?_of_declares hkind).symm.trans hname
  · obtain ⟨i, hi, hsymbol⟩ := h.declaration_of_binding hb hn hid
    obtain ⟨hlt, _⟩ := List.getElem?_eq_some_iff.mp hi
    rw [hsymbol, (List.getElem?_inj hlt h.nodup_declarations).mp (hi.trans hj.symm)]

private theorem symbolOf_other (h : Sound doc [] d)
    (hbindings : ∀ b, b ∈ m.bindings ↔
      b ∈ referenceBindings (d.latestFirst maker) d.references ∨
        b ∈ bindingsFrom maker 0 d.declarations) {k : Node}
    (hk : k ∈ (Node.program d.program).preorder) (hnone : k.declares? = none) :
    m.symbolOf (some k) =
      k.named?.bind fun name => latest? (d.latestFirst maker) (some name) := by
  have hno : ∀ b ∈ bindingsFrom maker 0 d.declarations, b.node ≠ k.id := by
    intro b hb hid
    obtain ⟨j, hj, _⟩ := h.declaration_of_binding hb hk hid
    have hkind := (h.declared hj).2
    rw [hnone] at hkind
    exact nomatch hkind
  cases hlatest : k.named?.bind fun name => latest? (d.latestFirst maker) (some name) with
  | none =>
    refine Model.symbolOf_eq_none fun b hb hid => ?_
    rcases (hbindings b).mp hb with hb | hb
    · obtain ⟨name, hname, hsome⟩ := h.reference_of_binding hb hk hid
      rw [hname, Option.bind_some] at hlatest
      exact nomatch hlatest.symm.trans hsome
    · exact hno b hb hid
  | some s =>
    obtain ⟨name, hname, hs⟩ := Option.bind_eq_some_iff.mp hlatest
    have hbinding : ⟨k.id, s⟩ ∈ referenceBindings (d.latestFirst maker) d.references := by
      refine List.mem_filterMap.mpr ⟨⟨k, name⟩, h.mem_references_iff.mpr ⟨hk, hname⟩, ?_⟩
      rw [hs]
      rfl
    refine Model.symbolOf_eq_some ⟨_, (hbindings _).mpr (Or.inl hbinding), rfl⟩ ?_
    intro b hb hid
    rcases (hbindings b).mp hb with hb | hb
    · obtain ⟨name', hname', hs'⟩ := h.reference_of_binding hb hk hid
      obtain rfl := Option.some.inj (hname.symm.trans hname')
      exact Option.some.inj (hs'.symm.trans hs)
    · exact absurd hid (hno b hb)

end Bindings

private theorem build_of_declareAll {d d' : Draft} {maker : Nat} {m : Model}
    (h : { d with issued := d.issued + 1 }.declareAll (Model.start maker (.program d.program))
      (Node.program d.program).walk = (d', .ok m)) :
    (d.build maker).2 = bindAll d'.symbols m d'.references := by
  unfold build
  simp only [h]

/-- A sound draft without loose expressions can be built. -/
theorem Sound.exists_built (h : Sound doc [] d) (maker : Nat) :
    ∃ m, (d.build maker).2 = .ok m ∧ Built d maker m := by
  let root := Node.program d.program
  let start := Model.start maker root
  let declared : Model := { start with
    bindings := (bindingsFrom maker 0 d.declarations).reverse ++ []
    issued := 0 + d.declarations.length }
  have hdeclared : { d with issued := d.issued + 1 }.isDeclared = fun n => n.declares?.isSome :=
    isDeclared_of_undeclared_eq_nil h.undeclared
  have hnodes : ∀ n ∈ d.declarations, start.program.Holds n ∧
      { d with issued := d.issued + 1 }.isDeclared n = true ∧ n.declaredName?.isSome = true := by
    intro n hn
    obtain ⟨e, _, he⟩ := forall₂_right h.declarations hn
    obtain ⟨o, hname⟩ := he.declares.name
    rw [hname, hdeclared]
    rw [← h.filter_declares] at hn
    exact ⟨Node.holds_of_mem (List.mem_filter.mp hn).1, (List.mem_filter.mp hn).2, rfl⟩
  have hdeclare : { d with issued := d.issued + 1 }.declareAll start root.walk =
      ({ d with issued := d.issued + 1, symbols := d.latestFirst maker ++ d.symbols },
        .ok declared) := by
    rw [Node.walk_eq_preorder, declareAll_filter, hdeclared, h.filter_declares]
    exact declareAll_eq _ start d.declarations hnodes
  have hreferences : ∀ r ∈ d.references, declared.program.Holds r.node :=
    fun r hr => Node.holds_of_mem (h.mem_references_iff.mp hr).1
  let built : Model := { declared with
    bindings := (referenceBindings (d.latestFirst maker) d.references).reverse ++
      declared.bindings }
  have hbind : bindAll (d.latestFirst maker) declared d.references = .ok built :=
    bindAll_eq (d.latestFirst maker) declared d.references fun r hr _ => hreferences r hr
  have hbindings : ∀ b, b ∈ built.bindings ↔
      b ∈ referenceBindings (d.latestFirst maker) d.references ∨
        b ∈ bindingsFrom maker 0 d.declarations := by
    intro b
    show b ∈ (referenceBindings (d.latestFirst maker) d.references).reverse ++
      ((bindingsFrom maker 0 d.declarations).reverse ++ []) ↔ _
    rw [List.append_nil, List.mem_append, List.mem_reverse, List.mem_reverse]
  refine ⟨built, ?_, rfl, fun _ _ hj => symbolOf_declaration h hbindings hj,
    fun _ hk hnone => symbolOf_other h hbindings hk hnone⟩
  rw [build_of_declareAll hdeclare]
  show bindAll (d.latestFirst maker ++ d.symbols) declared d.references = _
  rw [h.symbols, List.append_nil]
  exact hbind

end Draft

end InfraLint
