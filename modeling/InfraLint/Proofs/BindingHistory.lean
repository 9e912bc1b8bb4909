import InfraLint.Semantics.Model
import Mathlib.Data.List.Induction

/-!
What nodes stand for after any number of calls. A run of calls begins with a model without
bindings; a call that fails leaves the model as it is, so each call meets the model that the
successful ones before it have made. Main statement: at every moment a node stands for the symbol
of the last successful call on it, and which calls succeed depends on the document alone.
-/
namespace InfraLint

/-- A declaration, with the kind of its symbols and the name that it gives them. -/
inductive Node.Introduces : Node → SymbolKind → Option Identifier → Prop
  | resource (x : Resource) : Introduces (.resourceDecl x) .resource x.name
  | module (x : Module) : Introduces (.moduleDecl x) .module x.name
  | variable (x : Variable) : Introduces (.variableDecl x) .variable x.name
  | parameter (x : Parameter) : Introduces (.parameterDecl x) .parameter x.name
  | output (x : Output) : Introduces (.outputDecl x) .output x.name

theorem Node.introduces_iff {n : Node} {kind : SymbolKind} {name : Option Identifier} :
    n.Introduces kind name ↔ n.declares? = some kind ∧ n.declaredName? = name := by
  constructor
  · intro h
    cases h <;> exact ⟨rfl, rfl⟩
  · rintro ⟨hkind, rfl⟩
    cases n with
    | resourceDecl x => obtain rfl := Option.some.inj hkind; exact .resource x
    | moduleDecl x => obtain rfl := Option.some.inj hkind; exact .module x
    | variableDecl x => obtain rfl := Option.some.inj hkind; exact .variable x
    | parameterDecl x => obtain rfl := Option.some.inj hkind; exact .parameter x
    | outputDecl x => obtain rfl := Option.some.inj hkind; exact .output x
    | _ => exact nomatch hkind

/-- The node is, by identity, one of those that a walk of the document meets. -/
def Node.Holds (program n : Node) : Prop := ∃ x ∈ program.walk, x.id = n.id

theorem Node.holds_of_mem {program n : Node} (h : n ∈ program.preorder) : program.Holds n :=
  ⟨n, by rw [walk_eq_preorder]; exact h, rfl⟩

namespace Model

/-- A call that is to settle what a node stands for. -/
inductive Call where
  | bind (node : Option Node) (symbol : Symbol)
  | declare (node : Option Node)

def Call.node : Call → Option Node
  | .bind node _ => node
  | .declare node => node

/-- A call gives the symbol that its node stands for from now on and a new model, or fails. -/
def result (m : Model) : Call → Except ModelError (Symbol × Model)
  | .bind node symbol => (m.bind node symbol).map fun m' => (symbol, m')
  | .declare node => m.declare node

/-- The model after a call. -/
def next (m : Model) (c : Call) : Model :=
  match m.result c with
  | .ok (_, m') => m'
  | .error _ => m

def after (m : Model) (calls : List Call) : Model := calls.foldl next m

/-- A call that has been made, and how it came out. -/
structure Made where
  call : Call
  outcome : Except ModelError Symbol

/-- The calls of a run with how each of them came out. -/
def history (m : Model) : List Call → List Made
  | [] => []
  | c :: rest => ⟨c, (m.result c).map Prod.fst⟩ :: history (m.next c) rest

/-- The call succeeded, on a node of identity `id` and with the symbol `s`. -/
def Made.Sets (past : Made) (id : Identity) (s : Symbol) : Prop :=
  past.outcome = .ok s ∧ ∃ n, past.call.node = some n ∧ n.id = id

/-- The last call of a history that succeeded on the node of identity `id` had the symbol `s`. -/
def IsLatest (history : List Made) (id : Identity) (s : Symbol) : Prop :=
  ∃ (k : Nat) (past : Made), history[k]? = some past ∧ past.Sets id s ∧
    ∀ (j : Nat) (later : Made) (t : Symbol), k < j → history[j]? = some later → ¬ later.Sets id t

variable {m : Model}

theorem history_append (m : Model) (calls : List Call) (c : Call) :
    m.history (calls ++ [c]) =
      m.history calls ++ [⟨c, ((m.after calls).result c).map Prod.fst⟩] := by
  induction calls generalizing m with
  | nil => rfl
  | cons first rest ih => rw [List.cons_append, history, history, ih, List.cons_append]; rfl

theorem after_append (m : Model) (calls : List Call) (c : Call) :
    m.after (calls ++ [c]) = (m.after calls).next c := by
  unfold after
  rw [List.foldl_append]
  rfl

theorem contains_iff_holds {n : Node} : m.contains (some n) = true ↔ m.program.Holds n := by
  simp [contains, Node.Holds]

theorem bind_of_holds {n : Node} (h : m.program.Holds n) (symbol : Symbol) :
    m.bind (some n) symbol = .ok { m with bindings := ⟨n.id, symbol⟩ :: m.bindings } :=
  bind_of_contains (contains_iff_holds.mpr h) symbol

theorem bind_of_not_holds {n : Node} (h : ¬ m.program.Holds n) (symbol : Symbol) :
    m.bind (some n) symbol = .error (.outside n.kindName symbol.name) :=
  bind_of_not_contains (by rw [← Bool.not_eq_true, contains_iff_holds]; exact h) symbol

theorem declare_of_introduces {n : Node} {kind : SymbolKind} {name : Identifier}
    (h : n.Introduces kind (some name)) :
    m.declare (some n) =
      (m.bind (some n) ⟨m.fresh, kind, name.name, some n⟩).map fun m' =>
        (⟨m.fresh, kind, name.name, some n⟩, { m' with issued := m'.issued + 1 }) := by
  obtain ⟨hkind, hname⟩ := Node.introduces_iff.mp h
  simp only [declare, hkind, hname]

theorem declare_of_not_introduces {node : Option Node}
    (h : ∀ n kind name, node = some n → ¬ n.Introduces kind name) :
    m.declare node = .error (.notDeclaration (Node.kindNameAt node)) := by
  cases node with
  | none => rfl
  | some n =>
    cases hkind : n.declares? with
    | none => simp only [declare, hkind]; rfl
    | some kind => exact absurd (Node.introduces_iff.mpr ⟨hkind, rfl⟩) (h n kind _ rfl)

theorem declare_of_no_name {n : Node} {kind : SymbolKind} (h : n.Introduces kind none) :
    m.declare (some n) = .error (.fault .absentName) := by
  obtain ⟨hkind, hname⟩ := Node.introduces_iff.mp h
  simp only [declare, hkind, hname]

/-- All that a call that succeeds can do: it puts a binding of a node of the document in front,
and if it declares the node, the symbol is a new one. -/
theorem result_eq_ok {c : Call} {s : Symbol} {m' : Model} (h : m.result c = .ok (s, m')) :
    ∃ n, c.node = some n ∧ m.program.Holds n ∧ m'.program = m.program ∧ m'.maker = m.maker ∧
      m'.bindings = ⟨n.id, s⟩ :: m.bindings ∧
      ((c = .bind (some n) s ∧ m'.issued = m.issued) ∨
        (c = .declare (some n) ∧ s.id = m.fresh ∧ m'.issued = m.issued + 1)) := by
  cases c with
  | bind node symbol =>
    cases node with
    | none => exact nomatch h
    | some n =>
      by_cases hn : m.program.Holds n
      · simp only [result, bind_of_holds hn] at h
        obtain ⟨rfl, rfl⟩ := Prod.mk.inj (Except.ok.inj h)
        exact ⟨n, rfl, hn, rfl, rfl, rfl, Or.inl ⟨rfl, rfl⟩⟩
      · simp only [result, bind_of_not_holds hn] at h
        exact nomatch h
  | declare node =>
    by_cases hnode : ∃ n kind name, node = some n ∧ n.Introduces kind name
    · obtain ⟨n, kind, name, rfl, hintroduces⟩ := hnode
      cases name with
      | none =>
        simp only [result, declare_of_no_name hintroduces] at h
        exact nomatch h
      | some name =>
        by_cases hn : m.program.Holds n
        · simp only [result, declare_of_introduces hintroduces, bind_of_holds hn] at h
          obtain ⟨rfl, rfl⟩ := Prod.mk.inj (Except.ok.inj h)
          exact ⟨n, rfl, hn, rfl, rfl, rfl, Or.inr ⟨rfl, rfl, rfl⟩⟩
        · simp only [result, declare_of_introduces hintroduces, bind_of_not_holds hn] at h
          exact nomatch h
    · have hno : ∀ n kind name, node = some n → ¬ n.Introduces kind name :=
        fun n kind name hn hi => hnode ⟨n, kind, name, hn, hi⟩
      simp only [result, declare_of_not_introduces hno] at h
      exact nomatch h

theorem next_of_ok {c : Call} {s : Symbol} {m' : Model} (h : m.result c = .ok (s, m')) :
    m.next c = m' := by
  simp only [next, h]

theorem next_of_error {c : Call} {e : ModelError} (h : m.result c = .error e) : m.next c = m := by
  simp only [next, h]

theorem symbolOf_eq_of_bindings {m' : Model} {n k : Node} {s : Symbol}
    (h : m'.bindings = ⟨n.id, s⟩ :: m.bindings) :
    m'.symbolOf (some k) = if n.id = k.id then some s else m.symbolOf (some k) := by
  by_cases hid : n.id = k.id
  · simp [symbolOf, h, hid]
  · simp [symbolOf, h, hid]

theorem isLatest_append_iff {history : List Made} {past : Made} {id : Identity} {s : Symbol} :
    IsLatest (history ++ [past]) id s ↔
      past.Sets id s ∨ (IsLatest history id s ∧ ∀ t, ¬ past.Sets id t) := by
  have hlast : (history ++ [past])[history.length]? = some past := by simp
  constructor
  · rintro ⟨k, made, hk, hsets, hlater⟩
    have hlt : k < (history ++ [past]).length := (List.getElem?_eq_some_iff.mp hk).1
    rw [List.length_append, List.length_singleton] at hlt
    by_cases hend : k = history.length
    · subst hend
      obtain rfl := Option.some.inj (hlast.symm.trans hk)
      exact Or.inl hsets
    · have hbefore : k < history.length := by omega
      rw [List.getElem?_append_left hbefore] at hk
      refine Or.inr ⟨⟨k, made, hk, hsets, ?_⟩, fun t => hlater _ past t hbefore hlast⟩
      intro j later t hj hget
      refine hlater j later t hj ?_
      rw [List.getElem?_append_left (List.getElem?_eq_some_iff.mp hget).1]
      exact hget
  · rintro (hsets | ⟨⟨k, made, hk, hsets, hlater⟩, hno⟩)
    · refine ⟨history.length, past, hlast, hsets, ?_⟩
      intro j later t hj hget
      have hlt := (List.getElem?_eq_some_iff.mp hget).1
      rw [List.length_append, List.length_singleton] at hlt
      omega
    · have hbefore := (List.getElem?_eq_some_iff.mp hk).1
      refine ⟨k, made, by rw [List.getElem?_append_left hbefore, hk], hsets, ?_⟩
      intro j later t hj hget
      have hlt := (List.getElem?_eq_some_iff.mp hget).1
      rw [List.length_append, List.length_singleton] at hlt
      by_cases hend : j = history.length
      · subst hend
        obtain rfl := Option.some.inj (hlast.symm.trans hget)
        exact hno t
      · rw [List.getElem?_append_left (by omega)] at hget
        exact hlater j later t hj hget

/-- Of the calls that succeeded on a node one is the last. -/
theorem exists_isLatest {history : List Made} {id : Identity}
    (h : ∃ past ∈ history, ∃ s, past.Sets id s) : ∃ s, IsLatest history id s := by
  induction history using List.reverseRec with
  | nil =>
    obtain ⟨past, hpast, _⟩ := h
    exact absurd hpast List.not_mem_nil
  | append_singleton history last ih =>
    by_cases hlast : ∃ s, last.Sets id s
    · obtain ⟨s, hs⟩ := hlast
      exact ⟨s, isLatest_append_iff.mpr (Or.inl hs)⟩
    · have hno : ∀ t, ¬ last.Sets id t := fun t ht => hlast ⟨t, ht⟩
      obtain ⟨past, hpast, s, hs⟩ := h
      have hbefore : past ∈ history := by
        rcases List.mem_append.mp hpast with hmem | hmem
        · exact hmem
        · obtain rfl := List.mem_singleton.mp hmem
          exact absurd hs (hno s)
      obtain ⟨t, ht⟩ := ih ⟨past, hbefore, s, hs⟩
      exact ⟨t, isLatest_append_iff.mpr (Or.inr ⟨ht, hno⟩)⟩

/-- The model has come about by the calls of a history, from one without bindings. -/
structure Follows (maker : Nat) (program : Node) (history : List Made) (m : Model) : Prop where
  program_eq : m.program = program
  maker_eq : m.maker = maker
  latest : ∀ n s, m.symbolOf (some n) = some s ↔ IsLatest history n.id s
  held : ∀ past ∈ history, ∀ id s, past.Sets id s → ∃ n, n.id = id ∧ program.Holds n
  issued : ∀ past ∈ history, ∀ node s, past.call = .declare node → past.outcome = .ok s →
    s.id.maker = maker ∧ s.id.serial < m.issued

theorem follows_start (maker : Nat) (program : Node) :
    Follows maker program [] (start maker program) where
  program_eq := rfl
  maker_eq := rfl
  latest n s := by
    constructor
    · intro h
      exact nomatch h
    · rintro ⟨k, past, hk, _⟩
      exact nomatch hk
  held past hpast := absurd hpast List.not_mem_nil
  issued past hpast := absurd hpast List.not_mem_nil

variable {maker : Nat} {program : Node} {history : List Made}

theorem Follows.step (h : Follows maker program history m) (c : Call) :
    Follows maker program (history ++ [⟨c, (m.result c).map Prod.fst⟩]) (m.next c) := by
  cases hresult : m.result c with
  | error e =>
    have hno : ∀ id t, ¬ (Made.mk c (.error e)).Sets id t := fun id t hsets => nomatch hsets.1
    rw [next_of_error hresult]
    refine ⟨h.program_eq, h.maker_eq, fun n s => ?_, ?_, ?_⟩
    · rw [h.latest, isLatest_append_iff]
      exact ⟨fun hlatest => Or.inr ⟨hlatest, hno n.id⟩,
        fun hor => hor.elim (fun hsets => absurd hsets (hno _ _)) And.left⟩
    · intro past hpast
      rcases List.mem_append.mp hpast with hpast | hpast
      · exact h.held past hpast
      · obtain rfl := List.mem_singleton.mp hpast
        exact fun id s hsets => absurd hsets (hno id s)
    · intro past hpast
      rcases List.mem_append.mp hpast with hpast | hpast
      · exact h.issued past hpast
      · obtain rfl := List.mem_singleton.mp hpast
        exact fun node s _ hok => nomatch hok
  | ok made =>
    obtain ⟨s, m'⟩ := made
    obtain ⟨n, hnode, hholds, hprogram, hmaker, hbindings, hissued⟩ := result_eq_ok hresult
    rw [next_of_ok hresult]
    refine ⟨hprogram.trans h.program_eq, hmaker.trans h.maker_eq, fun k t => ?_, ?_, ?_⟩
    · have hsets : ∀ id t, (Made.mk c (.ok s)).Sets id t ↔ n.id = id ∧ s = t := by
        intro id t
        unfold Made.Sets
        simp [hnode, and_comm]
      show _ ↔ IsLatest (history ++ [⟨c, .ok s⟩]) k.id t
      rw [symbolOf_eq_of_bindings hbindings, isLatest_append_iff, ← h.latest, hsets]
      by_cases hid : n.id = k.id
      · simp [hid, hsets]
      · simp [hid, hsets]
    · intro past hpast
      rcases List.mem_append.mp hpast with hpast | hpast
      · exact h.held past hpast
      · obtain rfl := List.mem_singleton.mp hpast
        rintro id t ⟨_, k, hk, rfl⟩
        obtain rfl := Option.some.inj (hnode.symm.trans hk)
        exact ⟨n, rfl, h.program_eq ▸ hholds⟩
    · intro past hpast node t hcall hok
      rcases List.mem_append.mp hpast with hpast | hpast
      · obtain ⟨hm, hlt⟩ := h.issued past hpast node t hcall hok
        refine ⟨hm, ?_⟩
        rcases hissued with ⟨_, heq⟩ | ⟨_, _, heq⟩ <;> omega
      · obtain rfl := List.mem_singleton.mp hpast
        rcases hissued with ⟨hbind, _⟩ | ⟨_, hfresh, heq⟩
        · exact nomatch hbind.symm.trans hcall
        · obtain rfl := Except.ok.inj hok
          rw [hfresh, heq]
          exact ⟨h.maker_eq, Nat.lt_succ_self _⟩

theorem follows_after (maker : Nat) (program : Node) (calls : List Call) :
    Follows maker program ((start maker program).history calls)
      ((start maker program).after calls) := by
  induction calls using List.reverseRecOn with
  | nil => exact follows_start maker program
  | append_singleton calls c ih =>
    rw [history_append, after_append]
    exact ih.step c

/-- What is settled about a model by its document and by the calls that it has come about by. -/
structure Answers (maker : Nat) (program : Node) (history : List Made) (m : Model) : Prop where
  /-- What is bound is a node of the document, by identity. -/
  bind : ∀ node symbol, (∃ m', m.bind node symbol = .ok m') ↔ ∃ n, node = some n ∧ program.Holds n
  /-- What is no declaration is refused as such. -/
  refused : ∀ node, (∃ e c, m.declare node = .error e ∧ e.coded = .ok c ∧
      c.family = .semanticModel ∧ c.family.code = "SEMANTIC_MODEL_ERROR") ↔
    ¬ ∃ n kind name, node = some n ∧ n.Introduces kind name
  /-- A declaration is refused as unbound if the document does not hold it. -/
  outside : ∀ n kind name, n.Introduces kind (some name) →
    ((∃ e c, m.declare (some n) = .error e ∧ e.coded = .ok c ∧ c.family = .unboundNode) ↔
      ¬ program.Holds n)
  /-- A declaration of the document makes a symbol that no other model and no earlier call has. -/
  declared : ∀ n kind name, n.Introduces kind (some name) → program.Holds n →
    ∃ s m', m.declare (some n) = .ok (s, m') ∧ s.kind = kind ∧ s.name = name.name ∧
      s.declaring = some n ∧
      ∀ t : Symbol, t.id.maker ≠ maker ∨ (∃ node, ⟨.declare node, .ok t⟩ ∈ history) → t.id ≠ s.id
  latest : ∀ n s, m.symbolOf (some n) = some s ↔ IsLatest history n.id s
  unset : ∀ n, m.symbolOf (some n) = none ↔ ∀ past ∈ history, ∀ s, ¬ past.Sets n.id s
  absent : m.symbolOf none = none
  failure : ∀ c e, m.result c = .error e → ∀ node, (m.next c).symbolOf node = m.symbolOf node
  success : ∀ c s m', m.result c = .ok (s, m') → ∃ n, c.node = some n ∧
    ∀ k, (m.next c).symbolOf (some k) = if n.id = k.id then some s else m.symbolOf (some k)
  unheld : ∀ n, ¬ program.Holds n → m.symbolOf (some n) = none

theorem Follows.holds_iff (h : Follows maker program history m) {n : Node} :
    m.program.Holds n ↔ program.Holds n := by
  rw [h.program_eq]

theorem Follows.bind_iff (h : Follows maker program history m) (node : Option Node)
    (symbol : Symbol) :
    (∃ m', m.bind node symbol = .ok m') ↔ ∃ n, node = some n ∧ program.Holds n := by
  constructor
  · rintro ⟨m', hm'⟩
    have hresult : m.result (.bind node symbol) = .ok (symbol, m') := by
      simp only [result, hm']
      rfl
    obtain ⟨n, hnode, hholds, _⟩ := result_eq_ok hresult
    exact ⟨n, hnode, h.holds_iff.mp hholds⟩
  · rintro ⟨n, rfl, hholds⟩
    exact ⟨_, bind_of_holds (h.holds_iff.mpr hholds) symbol⟩

/-- No declaration of the document with a name is refused. -/
theorem Follows.declare_held (h : Follows maker program history m) {n : Node}
    {kind : SymbolKind} {name : Identifier} (hn : n.Introduces kind (some name))
    (hholds : program.Holds n) : ∃ m', m.declare (some n) =
      .ok (⟨⟨maker, m.issued⟩, kind, name.name, some n⟩, m') := by
  rw [declare_of_introduces hn, bind_of_holds (h.holds_iff.mpr hholds), fresh, h.maker_eq]
  exact ⟨_, rfl⟩

theorem Follows.declare_unheld (h : Follows maker program history m) {n : Node}
    {kind : SymbolKind} {name : Identifier} (hn : n.Introduces kind (some name))
    (hholds : ¬ program.Holds n) :
    m.declare (some n) = .error (.outside n.kindName name.name) := by
  rw [declare_of_introduces hn, bind_of_not_holds (mt h.holds_iff.mp hholds)]
  rfl

theorem Follows.refused_iff (h : Follows maker program history m) (node : Option Node) :
    (∃ e c, m.declare node = .error e ∧ e.coded = .ok c ∧ c.family = .semanticModel ∧
        c.family.code = "SEMANTIC_MODEL_ERROR") ↔
      ¬ ∃ n kind name, node = some n ∧ n.Introduces kind name := by
  constructor
  · rintro ⟨e, c, he, hc, hfamily, _⟩ ⟨n, kind, name, rfl, hn⟩
    -- A declaration fails for want of a name, which has no code, or as unbound.
    cases name with
    | none =>
      rw [declare_of_no_name hn] at he
      obtain rfl := Except.error.inj he
      exact nomatch hc
    | some name =>
      by_cases hholds : program.Holds n
      · obtain ⟨m', hok⟩ := h.declare_held hn hholds
        exact nomatch hok.symm.trans he
      · rw [h.declare_unheld hn hholds] at he
        obtain rfl := Except.error.inj he
        obtain rfl := Except.ok.inj hc
        exact nomatch hfamily
  · intro hno
    have hdeclare : m.declare node = .error (.notDeclaration (Node.kindNameAt node)) :=
      declare_of_not_introduces fun n kind name hn hi => hno ⟨n, kind, name, hn, hi⟩
    exact ⟨_, _, hdeclare, rfl, rfl, rfl⟩

theorem Follows.outside_iff (h : Follows maker program history m) {n : Node}
    {kind : SymbolKind} {name : Identifier} (hn : n.Introduces kind (some name)) :
    (∃ e c, m.declare (some n) = .error e ∧ e.coded = .ok c ∧ c.family = .unboundNode) ↔
      ¬ program.Holds n := by
  constructor
  · rintro ⟨e, _, he, _⟩ hholds
    obtain ⟨m', hok⟩ := h.declare_held hn hholds
    exact nomatch hok.symm.trans he
  · exact fun hholds => ⟨_, _, h.declare_unheld hn hholds, rfl, rfl⟩

theorem Follows.symbolOf_eq_none_iff (h : Follows maker program history m) (n : Node) :
    m.symbolOf (some n) = none ↔ ∀ past ∈ history, ∀ s, ¬ past.Sets n.id s := by
  rw [Option.eq_none_iff_forall_ne_some]
  simp only [ne_eq, h.latest]
  constructor
  · intro hnone past hpast s hsets
    obtain ⟨t, ht⟩ := exists_isLatest ⟨past, hpast, s, hsets⟩
    exact hnone t ht
  · rintro hno s ⟨k, past, hk, hsets, _⟩
    exact hno past (List.mem_of_getElem? hk) s hsets

theorem answers_after (maker : Nat) (program : Node) (calls : List Call) :
    Answers maker program ((start maker program).history calls)
      ((start maker program).after calls) := by
  have h := follows_after maker program calls
  refine ⟨h.bind_iff, h.refused_iff, fun n kind name => h.outside_iff, ?_, h.latest,
    h.symbolOf_eq_none_iff, rfl, ?_, ?_, ?_⟩
  · intro n kind name hn hholds
    obtain ⟨m', hok⟩ := h.declare_held hn hholds
    refine ⟨_, m', hok, rfl, rfl, rfl, ?_⟩
    rintro t (hmaker | ⟨node, hpast⟩) hid
    · exact hmaker (congrArg Identity.maker hid)
    · have hlt := (h.issued _ hpast node t rfl rfl).2
      have hserial := congrArg Identity.serial hid
      simp only at hserial
      omega
  · intro c e he node
    rw [next_of_error he]
  · intro c s m' hok
    obtain ⟨n, hnode, _, _, _, hbindings, _⟩ := result_eq_ok hok
    rw [next_of_ok hok]
    exact ⟨n, hnode, fun k => symbolOf_eq_of_bindings hbindings⟩
  · intro n hholds
    rw [h.symbolOf_eq_none_iff]
    intro past hpast s hsets
    obtain ⟨k, hid, x, hx, hxk⟩ := h.held past hpast n.id s hsets
    exact hholds ⟨x, hx, hxk.trans hid⟩

end Model
end InfraLint
