import InfraLint.Proofs.BindingHistory
import InfraLint.Proofs.DraftHistory
import InfraLint.Proofs.Outcome

/-!
Builds in the history of a draft. Each declaration of the program that is to get a symbol gets
one, in document order, and then the references are bound to the latest symbols of their names.
Declarations stay in a draft, so that no name has a symbol from an earlier build alone: the latest
symbol of a name is that of its last declaration in the program.
-/
namespace InfraLint

namespace Draft

variable {past : List Past} {d : Draft} {made : Set Node}

/-- The declarations of the program that get a symbol, in document order. -/
def declaredNodes (d : Draft) : List Node :=
  (Node.program d.program).preorder.filter d.isDeclared

/-- The symbols after a build, the latest first. -/
def builtSymbols (d : Draft) (k : Nat) : List Symbol :=
  (symbolsFrom k 0 d.declaredNodes).reverse ++ d.symbols

/-- The model of a build before references are bound. -/
def declaredModel (d : Draft) (k : Nat) : Model :=
  ⟨k, .program d.program, (bindingsFrom k 0 d.declaredNodes).reverse, d.declaredNodes.length⟩

/-- The node declares the name in the program, and none after it does. -/
def LastNamed (past : List Past) (program n : Node) (name : String) : Prop :=
  ∃ before after, program.preorder = before ++ n :: after ∧ Names past n name ∧
    ∀ k ∈ after, ¬ Names past k name

theorem exists_lastNamed {program : Node} {name : String}
    (h : ∃ n ∈ program.preorder, Names past n name) : ∃ n, LastNamed past program n name := by
  obtain ⟨before, n, after, heq, hn, hafter⟩ := exists_last h
  exact ⟨n, before, after, heq, hn, hafter⟩

theorem mem_preorder_program_iff {n : Node} :
    n ∈ (Node.program d.program).preorder ↔
      n = .program d.program ∨ n ∈ d.declarations.flatMap Node.preorder := by
  rw [Node.preorder_eq, children_program, List.mem_cons]

theorem declareAll_fst (d : Draft) (m : Model) (nodes : List Node) :
    ∃ symbols, (d.declareAll m nodes).1 = { d with symbols := symbols } := by
  induction nodes generalizing d m with
  | nil => exact ⟨d.symbols, rfl⟩
  | cons n rest ih =>
    unfold declareAll
    split
    · split
      · exact ⟨d.symbols, rfl⟩
      · rename_i symbol m' _
        obtain ⟨symbols, heq⟩ := ih { d with symbols := symbol :: d.symbols } m'
        exact ⟨symbols, heq⟩
    · exact ih d m

/-- A build gives out an identity and adds symbols; all else in the draft stays. -/
theorem build_fst (d : Draft) (k : Nat) :
    ∃ symbols, (d.build k).1 = { d with issued := d.issued + 1, symbols := symbols } := by
  obtain ⟨symbols, heq⟩ := declareAll_fst { d with issued := d.issued + 1 }
    (Model.start k (.program d.program)) (Node.program d.program).walk
  refine ⟨symbols, ?_⟩
  unfold build
  dsimp only
  split <;> rename_i hdeclared <;> rw [hdeclared] at heq <;> exact heq

theorem program_of_declareAll {m m' : Model} {nodes : List Node}
    (h : (d.declareAll m nodes).2 = .ok m') : m'.program = m.program := by
  induction nodes generalizing d m with
  | nil => exact congrArg Model.program (Except.ok.inj h).symm
  | cons n rest ih =>
    unfold declareAll at h
    split at h
    · split at h
      · cases h
      · rename_i symbol m₁ hdeclare
        obtain ⟨_, _, _, hprogram, _⟩ := Model.result_eq_ok (c := .declare (some n)) hdeclare
        exact (ih h).trans hprogram
    · exact ih h

theorem program_of_bindAll {symbols : List Symbol} {m m' : Model} {references : List Reference}
    (h : bindAll symbols m references = .ok m') : m'.program = m.program := by
  induction references generalizing m with
  | nil => exact congrArg Model.program (Except.ok.inj h).symm
  | cons r rest ih =>
    unfold bindAll at h
    split at h
    · exact ih h
    · rename_i symbol _
      split at h
      · cases h
      · rename_i m₁ hbind
        have hresult : m.result (.bind (some r.node) symbol) = .ok (symbol, m₁) := by
          rw [Model.result, hbind]
          rfl
        obtain ⟨_, _, _, hprogram, _⟩ := Model.result_eq_ok hresult
        exact (ih h).trans hprogram

/-- The document of a build that succeeds is the program of the draft. -/
theorem program_of_build {k : Nat} {m : Model} (h : (d.build k).2 = .ok m) :
    m.program = .program d.program := by
  unfold build at h
  dsimp only at h
  split at h
  · cases h
  · rename_i d' declared hdeclared
    refine (program_of_bindAll h).trans ?_
    exact program_of_declareAll (congrArg Prod.snd hdeclared)

/-- A build gives the program, or nothing. -/
theorem given_of_build {k : Nat} {n : Node}
    (h : (d.build k).2.toOption.map Model.program = some n) : n = .program d.program := by
  obtain ⟨m, hm, rfl⟩ := Option.map_eq_some_iff.mp h
  exact program_of_build (Journal.eq_ok_of_toOption hm)

/-- The program of a draft whose declarations are in stock joins it. It takes no place. -/
theorem Stock.program (h : d.Stock made) (hdeclarations : ∀ n ∈ d.declarations, n ∈ made) :
    { d with issued := d.issued + 1 }.Stock (Insert.insert (Node.program d.program) made) := by
  have hlater : { d with issued := d.issued + 1 }.Stock made :=
    h.later rfl (Nat.le_succ d.issued) le_rfl rfl
  have hunused : ∀ n ∈ made, (Node.program d.program).id ≠ n.id := by
    intro n hn heq
    have hlt := h.issued n hn (congrArg Identity.maker heq.symm)
    rw [← heq] at hlt
    exact absurd hlt (Nat.lt_irrefl d.issued)
  have hstock := hlater.insert (n := .program d.program) rfl (Nat.lt_succ_self d.issued) hunused
    (children_program d) hdeclarations (Node.labelled_of_bare rfl)
    fun hplaced => absurd rfl (hplaced.kind d.program)
  rw [references_of_unnamed _ rfl] at hstock
  exact hstock

namespace Recorded

/-- The root of a build is in stock with its identity given out. -/
theorem stock_program (h : Recorded past d made) :
    { d with issued := d.issued + 1 }.Stock (insert (Node.program d.program) made) :=
  h.stock.program fun _ hn => h.declaration hn

theorem own_program (h : Recorded past d made) {n : Node}
    (hn : n ∈ insert (Node.program d.program) made) : n.id.maker = d.maker := by
  rcases Set.mem_insert_iff.mp hn with rfl | hn
  · rfl
  · exact h.own n hn

theorem below_program (h : Recorded past d made) {n : Node}
    (hn : n ∈ (Node.program d.program).preorder) : n ∈ insert (Node.program d.program) made :=
  h.stock_program.below (Set.mem_insert _ _) hn

theorem eq_of_id (h : Recorded past d made) {n k : Node}
    (hn : n ∈ insert (Node.program d.program) made) (hk : k ∈ insert (Node.program d.program) made)
    (hid : n.id = k.id) : n = k :=
  h.stock_program.distinct n hn k hk (h.own_program hn) hid

theorem mem_declaredNodes_iff (h : Recorded past d made) {n : Node} :
    n ∈ d.declaredNodes ↔
      n ∈ (Node.program d.program).preorder ∧ ∃ name, Names past n name := by
  rw [declaredNodes, List.mem_filter]
  refine and_congr_right fun hn => ?_
  rcases Set.mem_insert_iff.mp (h.below_program hn) with rfl | hn
  · constructor
    · exact fun hdeclared => absurd hdeclared Bool.false_ne_true
    · exact fun hnames => absurd hnames.choose_spec.1 Bool.false_ne_true
  · exact h.isDeclared_iff hn

theorem declareAll (h : Recorded past d made) (k : Nat) :
    { d with issued := d.issued + 1 }.declareAll (Model.start k (.program d.program))
        (Node.program d.program).walk =
      ({ d with issued := d.issued + 1, symbols := d.builtSymbols k },
        .ok (d.declaredModel k)) := by
  have hnodes : ∀ n ∈ d.declaredNodes, (Node.program d.program).Holds n ∧
      d.isDeclared n = true ∧ n.declaredName?.isSome = true := by
    intro n hn
    obtain ⟨hmem, hdeclared⟩ := List.mem_filter.mp hn
    obtain ⟨_, name, _, hname, _⟩ := h.mem_declaredNodes_iff.mp hn
    obtain ⟨x, hx, _⟩ := Option.bind_eq_some_iff.mp hname
    refine ⟨Node.holds_of_mem hmem, hdeclared, ?_⟩
    rw [hx]
    rfl
  rw [Node.walk_eq_preorder, declareAll_filter]
  refine (declareAll_eq { d with issued := d.issued + 1 } (Model.start k (.program d.program))
    d.declaredNodes hnodes).trans ?_
  show (_, Except.ok (Model.mk k _ ((bindingsFrom k 0 d.declaredNodes).reverse ++ []) (0 + _))) = _
  rw [List.append_nil, Nat.zero_add]
  rfl

theorem build_eq (h : Recorded past d made) (k : Nat) :
    d.build k = ({ d with issued := d.issued + 1, symbols := d.builtSymbols k },
      bindAll (d.builtSymbols k) (d.declaredModel k) d.references) := by
  unfold build
  simp only [h.declareAll k]

/-- Among the symbols after a build those of a last declaration are the latest. -/
theorem latest?_of_lastNamed (h : Recorded past d made) (k : Nat) {n : Node} {name : String}
    (hn : LastNamed past (.program d.program) n name) :
    ∃ before after, d.declaredNodes = before ++ n :: after ∧
      latest? (d.builtSymbols k) (some name) = some (n.symbol ⟨k, before.length⟩) ∧
      ∀ j ∈ after, j.id ≠ n.id := by
  obtain ⟨before, after, heq, hnames, hafter⟩ := hn
  have hdeclared : d.declaredNodes =
      before.filter d.isDeclared ++ n :: after.filter d.isDeclared := by
    have hmem : n ∈ d.declaredNodes := by
      rw [h.mem_declaredNodes_iff, heq]
      exact ⟨List.mem_append_right _ List.mem_cons_self, name, hnames⟩
    rw [declaredNodes, heq, List.filter_append, List.filter_cons_of_pos (List.mem_filter.mp hmem).2]
  have hlater : ∀ j ∈ after.filter d.isDeclared, j.label? ≠ some name := by
    intro j hj hlabel
    have hmem : j ∈ d.declaredNodes := by
      rw [hdeclared]
      exact List.mem_append_right _ (List.mem_cons_of_mem n hj)
    obtain ⟨_, _, hkind, _, hspared⟩ := h.mem_declaredNodes_iff.mp hmem
    exact hafter j (List.mem_filter.mp hj).1 ⟨hkind, hlabel, hspared⟩
  refine ⟨_, _, hdeclared, ?_, ?_⟩
  · have hlatest := latest?_symbolsFrom k (before.filter d.isDeclared) hnames.2.1 hlater
    rw [← hdeclared] at hlatest
    unfold latest? at hlatest
    unfold latest? builtSymbols
    rw [List.find?_append, hlatest]
    rfl
  · intro j hj hid
    have hmem : ∀ i ∈ d.declaredNodes, i ∈ insert (Node.program d.program) made :=
      fun i hi => h.below_program (h.mem_declaredNodes_iff.mp hi).1
    rw [hdeclared] at hmem
    have heq := h.eq_of_id (hmem j (by simp [hj])) (hmem n (by simp)) hid
    rw [heq] at hj
    exact hlater n hj hnames.2.1

theorem latest?_isSome_iff (h : Recorded past d made) (k : Nat) (name : String) :
    (latest? (d.builtSymbols k) (some name)).isSome = true ↔
      ∃ n ∈ (Node.program d.program).preorder, Names past n name := by
  constructor
  · intro hsome
    obtain ⟨s, hs⟩ := Option.isSome_iff_exists.mp hsome
    obtain ⟨hmem, hname⟩ := latest?_eq_some hs
    rcases List.mem_append.mp hmem with hnew | hold
    · obtain ⟨n, hn, id, rfl⟩ := exists_of_mem_symbolsFrom (List.mem_reverse.mp hnew)
      obtain ⟨hmem, name', hnames⟩ := h.mem_declaredNodes_iff.mp hn
      exact ⟨n, hmem, hnames.1, hname, hnames.2.2⟩
    · obtain ⟨n, hn, name', hlabel, hnames⟩ := h.symbols s hold
      rw [← Option.some.inj (hlabel.symm.trans hname)]
      exact ⟨n, mem_preorder_program_iff.mpr (Or.inr hn), hnames⟩
  · intro hnamed
    obtain ⟨n, hn⟩ := exists_lastNamed hnamed
    obtain ⟨_, _, _, hlatest, _⟩ := h.latest?_of_lastNamed k hn
    rw [hlatest]
    rfl

end Recorded

/-- A reference outside of the program whose name has a symbol stops a build. -/
theorem bindAll_error {symbols : List Symbol} {m : Model} {references : List Reference}
    (h : ∃ r ∈ references, (latest? symbols (some r.name)).isSome = true ∧
      ¬ m.program.Holds r.node) :
    ∃ kind name, bindAll symbols m references = .error (.outside kind name) := by
  induction references generalizing m with
  | nil =>
    obtain ⟨r, hr, _⟩ := h
    exact absurd hr List.not_mem_nil
  | cons first rest ih =>
    obtain ⟨r, hr, hsome, hnot⟩ := h
    unfold bindAll
    cases hlatest : latest? symbols (some first.name) with
    | none =>
      rcases List.mem_cons.mp hr with rfl | hr
      · rw [hlatest] at hsome
        exact absurd hsome Bool.false_ne_true
      · exact ih ⟨r, hr, hsome, hnot⟩
    | some symbol =>
      by_cases hholds : m.program.Holds first.node
      · simp only [Model.bind_of_holds hholds]
        rcases List.mem_cons.mp hr with rfl | hr
        · exact absurd hholds hnot
        · exact ih ⟨r, hr, hsome, hnot⟩
      · simp only [Model.bind_of_not_holds hholds]
        exact ⟨_, _, rfl⟩

/-- A reference outside of the program has the name of a declaration of the program that gets a
symbol. -/
def Dangles (past : List Past) (d : Draft) : Prop :=
  ∃ r ∈ d.references, (∃ n ∈ (Node.program d.program).preorder, Names past n r.name) ∧
    ¬ (Node.program d.program).Holds r.node

/-- The model of a build. -/
def builtModel (d : Draft) (k : Nat) : Model :=
  { d.declaredModel k with
    bindings := (referenceBindings (d.builtSymbols k) d.references).reverse ++
      (d.declaredModel k).bindings }

namespace Recorded

theorem build_eq_ok (h : Recorded past d made) (k : Nat) (hd : ¬ Dangles past d) :
    (d.build k).2 = .ok (d.builtModel k) := by
  rw [h.build_eq]
  refine bindAll_eq _ _ _ fun r hr hsome => ?_
  by_contra hnot
  exact hd ⟨r, hr, (h.latest?_isSome_iff k r.name).mp hsome, hnot⟩

theorem build_eq_error (h : Recorded past d made) (k : Nat) (hd : Dangles past d) :
    ∃ kind name, (d.build k).2 = .error (.outside kind name) := by
  obtain ⟨r, hr, hnamed, hnot⟩ := hd
  rw [h.build_eq]
  exact bindAll_error ⟨r, hr, (h.latest?_isSome_iff k r.name).mpr hnamed, hnot⟩

theorem build (h : Recorded past d made) (k : Nat) :
    Recorded (past ++ [.build ((d.build k).2.toOption.map Model.program)]) (d.build k).1
      (insert (Node.program d.program) made) := by
  have hspared : ∀ n, Spared (past ++ [.build ((d.build k).2.toOption.map Model.program)]) n ↔
      Spared past n := by
    intro n
    rw [spared_append_iff]
    exact or_iff_left (fun hlast => nomatch hlast)
  have hstate : (d.build k).1 =
      { d with issued := d.issued + 1, symbols := d.builtSymbols k } := by rw [h.build_eq]
  rw [hstate]
  refine ⟨h.stock_program.later rfl le_rfl le_rfl rfl, fun n hn => h.own_program hn,
    ?_, ?_, ?_, ?_, ?_⟩
  · intro p hp n hn
    rcases List.mem_append.mp hp with hold | hlast
    · exact Set.mem_insert_of_mem _ (h.given p hold n hn)
    · rw [List.mem_singleton.mp hlast] at hn
      rw [given_of_build hn]
      exact Set.mem_insert _ _
  · rw [List.filterMap_append]
    exact h.entered.trans (List.append_nil _).symm
  · rw [List.flatMap_append]
    exact h.names.trans (List.Perm.of_eq (List.append_nil _).symm)
  · intro i
    simp only [hspared]
    exact h.spared i
  · intro s hs
    simp only [Names, hspared]
    rcases List.mem_append.mp hs with hnew | hold
    · obtain ⟨n, hn, id, rfl⟩ := exists_of_mem_symbolsFrom (List.mem_reverse.mp hnew)
      obtain ⟨hmem, name, hnames⟩ := h.mem_declaredNodes_iff.mp hn
      rcases mem_preorder_program_iff.mp hmem with rfl | hmem
      · exact absurd hnames.1 Bool.false_ne_true
      · exact ⟨n, hmem, name, hnames.2.1, hnames⟩
    · exact h.symbols s hold

end Recorded

/-- Every draft made by calls and builds remembers its history. -/
theorem Called.recorded {maker : Nat} (h : Called maker past d) : ∃ made, Recorded past d made := by
  induction h with
  | start => exact ⟨∅, recorded_start maker⟩
  | call _ c hc ih =>
    obtain ⟨made, hrecorded⟩ := ih
    exact hrecorded.call c hc
  | build _ k ih =>
    obtain ⟨made, hrecorded⟩ := ih
    exact ⟨_, hrecorded.build k⟩

end Draft

end InfraLint
