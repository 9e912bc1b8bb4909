import InfraLint.Proofs.Builds

/-!
What names stand for in a built document, whatever calls and builds have led to it. Nodes may be
shared, resources nested, names repeated and references left aside. Main statement: a build fails
just when a reference outside of the program has the name of a declaration in it; otherwise each
declaration that is not spared has a symbol of its own, a name stands for the symbol of its last
declaration in the program, a reference for what its name stands for, and nothing else stands for
anything.
-/
namespace InfraLint

namespace Draft

/-- In a model that a draft has built, names stand for their last declarations. -/
structure BindsNames (past : List Past) (built : Draft) (m : Model) : Prop where
  declaration : ∀ n ∈ m.program.preorder, ∀ kind, n.declares? = some kind → ¬ Spared past n →
    ∃ name s, m.symbolOf (some n) = some s ∧ s.kind = kind ∧ n.label? = some name ∧
      s.name = some name ∧ s.declaring = some n
  name : ∀ name s, built.symbolNamed (some name) = .ok s ↔
    ∃ n, LastNamed past m.program n name ∧ m.symbolOf (some n) = some s
  reference : ∀ n ∈ m.program.preorder, ∀ name, n.named? = some name →
    ∀ s, m.symbolOf (some n) = some s ↔ built.symbolNamed (some name) = .ok s
  only : ∀ n s, m.symbolOf (some n) = some s → ∃ k ∈ m.program.preorder, k.id = n.id ∧
    ((∃ name, Names past k name) ∨ ∃ name, k.named? = some name)

/-- The draft has entered what calls have entered. Its references have a node each and are those
that were asked for, known ones or not. A build fails on a reference that dangles, and on nothing
else. -/
structure BuildsByName (past : List Past) (d : Draft) (k : Nat) : Prop where
  entered : d.declarations = past.filterMap Past.entered?
  asked : (d.references.map Reference.name).Perm (past.flatMap Past.names)
  references : ∀ n, Known past n → ∀ name, n.named? = some name ↔ ⟨n, name⟩ ∈ d.references
  named : ∀ r ∈ d.references, r.node.named? = some r.name
  distinct : (d.references.map fun r => r.node.id).Nodup
  fails : (∃ e c, (d.build k).2 = .error e ∧ e.coded = .ok c ∧ c.family = .unboundNode) ↔
    Dangles past d
  binds : ¬ Dangles past d → ∃ m, (d.build k).2 = .ok m ∧ m.program = .program d.program ∧
    BindsNames past (d.build k).1 m

variable {past : List Past} {d : Draft} {made : Set Node}

theorem symbolNamed_eq_ok_iff {name : Option String} {s : Symbol} :
    d.symbolNamed name = .ok s ↔ latest? d.symbols name = some s := by
  unfold symbolNamed
  cases latest? d.symbols name with
  | none => simp
  | some t => simp

namespace Recorded

variable (h : Recorded past d made) (k : Nat)

include h

theorem mem_references_iff {r : Reference} :
    r ∈ d.references ↔
      r.node ∈ insert (Node.program d.program) made ∧ r.node.named? = some r.name := by
  refine (h.stock_program.references r).trans (and_congr_right fun hmem => ?_)
  exact and_iff_right (h.own_program hmem)

/-- What a reference is bound to is what its name stands for. -/
private theorem named_of_binding {b : Binding} {n : Node}
    (hb : b ∈ referenceBindings (d.builtSymbols k) d.references)
    (hn : n ∈ insert (Node.program d.program) made) (hid : b.node = n.id) :
    ∃ name, n.named? = some name ∧ latest? (d.builtSymbols k) (some name) = some b.symbol := by
  obtain ⟨r, hr, hlatest, hnode⟩ := exists_of_mem_referenceBindings hb
  obtain ⟨hmem, hname⟩ := h.mem_references_iff.mp hr
  obtain rfl := h.eq_of_id hmem hn (hnode.symm.trans hid)
  exact ⟨r.name, hname, hlatest⟩

private theorem declared_of_binding {b : Binding} {n : Node}
    (hb : b ∈ (d.declaredModel k).bindings) (hn : n ∈ insert (Node.program d.program) made)
    (hid : b.node = n.id) : n ∈ d.declaredNodes := by
  obtain ⟨j, hj, hnode⟩ := exists_of_mem_bindingsFrom (List.mem_reverse.mp hb)
  obtain rfl := h.eq_of_id (h.below_program (h.mem_declaredNodes_iff.mp hj).1) hn
    (hnode.symm.trans hid)
  exact hj

/-- A declaration stands for the symbol that it got at its last place. -/
theorem symbolOf_declared {n : Node} {before after : List Node}
    (heq : d.declaredNodes = before ++ n :: after) (hafter : ∀ j ∈ after, j.id ≠ n.id) :
    (d.builtModel k).symbolOf (some n) = some (n.symbol ⟨k, before.length⟩) := by
  have hmem : n ∈ d.declaredNodes := by simp [heq]
  obtain ⟨hprogram, name, hnames⟩ := h.mem_declaredNodes_iff.mp hmem
  have hnone : ((referenceBindings (d.builtSymbols k) d.references).reverse.find?
      fun b => b.node == n.id) = none := by
    rw [List.find?_eq_none]
    intro b hb hid
    obtain ⟨name', hname', _⟩ := h.named_of_binding k (List.mem_reverse.mp hb)
      (h.below_program hprogram) (beq_iff_eq.mp hid)
    exact nomatch (named?_of_declares hnames.1).symm.trans hname'
  have hfind := find?_bindingsFrom k before hafter
  rw [← heq] at hfind
  show (((referenceBindings (d.builtSymbols k) d.references).reverse ++
    (bindingsFrom k 0 d.declaredNodes).reverse).find? fun b => b.node == n.id).map _ = _
  rw [List.find?_append, hnone, Option.none_or, hfind]
  rfl

theorem symbolOf_lastNamed {n : Node} {name : String}
    (hn : LastNamed past (.program d.program) n name) :
    (d.builtModel k).symbolOf (some n) = latest? (d.builtSymbols k) (some name) := by
  obtain ⟨before, after, heq, hlatest, hafter⟩ := h.latest?_of_lastNamed k hn
  rw [hlatest]
  exact h.symbolOf_declared k heq hafter

theorem exists_symbolOf_declaration {n : Node} (hn : n ∈ d.declaredNodes) :
    ∃ id, (d.builtModel k).symbolOf (some n) = some (n.symbol id) := by
  have hmem : ∀ j ∈ d.declaredNodes, j ∈ insert (Node.program d.program) made :=
    fun j hj => h.below_program (h.mem_declaredNodes_iff.mp hj).1
  obtain ⟨before, j, after, heq, hid, hafter⟩ :=
    exists_last (P := fun j => j.id = n.id) ⟨n, hn, rfl⟩
  obtain rfl : j = n := h.eq_of_id (hmem j (by simp [heq])) (hmem n hn) hid
  exact ⟨_, h.symbolOf_declared k heq hafter⟩

/-- A reference stands for what its name stands for. -/
theorem symbolOf_reference {n : Node} (hn : n ∈ (Node.program d.program).preorder) {name : String}
    (hname : n.named? = some name) :
    (d.builtModel k).symbolOf (some n) = latest? (d.builtSymbols k) (some name) := by
  have hstock := h.below_program hn
  have hno : ∀ b ∈ (d.declaredModel k).bindings, b.node ≠ n.id := by
    intro b hb hid
    obtain ⟨_, _, hkind, _⟩ :=
      h.mem_declaredNodes_iff.mp (h.declared_of_binding k hb hstock hid)
    exact nomatch (named?_of_declares hkind).symm.trans hname
  have hall : ∀ b ∈ (d.builtModel k).bindings, b.node = n.id →
      latest? (d.builtSymbols k) (some name) = some b.symbol := by
    intro b hb hid
    rcases List.mem_append.mp hb with hb | hb
    · obtain ⟨name', hname', hlatest⟩ := h.named_of_binding k (List.mem_reverse.mp hb) hstock hid
      rw [Option.some.inj (hname.symm.trans hname')]
      exact hlatest
    · exact absurd hid (hno b hb)
  cases hlatest : latest? (d.builtSymbols k) (some name) with
  | none =>
    refine Model.symbolOf_eq_none fun b hb hid => ?_
    exact nomatch hlatest.symm.trans (hall b hb hid)
  | some s =>
    have hr : ⟨n, name⟩ ∈ d.references := h.mem_references_iff.mpr ⟨hstock, hname⟩
    have hbinding : ⟨n.id, s⟩ ∈ referenceBindings (d.builtSymbols k) d.references := by
      refine List.mem_filterMap.mpr ⟨⟨n, name⟩, hr, ?_⟩
      rw [hlatest]
      rfl
    refine Model.symbolOf_eq_some
      ⟨_, List.mem_append_left _ (List.mem_reverse.mpr hbinding), rfl⟩ ?_
    intro b hb hid
    exact Option.some.inj ((hall b hb hid).symm.trans hlatest)

/-- Whatever stands for something is, by identity, a declaration or a reference. -/
theorem exists_of_symbolOf (hd : ¬ Dangles past d) {n : Node} {s : Symbol}
    (hs : (d.builtModel k).symbolOf (some n) = some s) :
    ∃ j ∈ (Node.program d.program).preorder, j.id = n.id ∧
      ((∃ name, Names past j name) ∨ ∃ name, j.named? = some name) := by
  obtain ⟨b, hb, hid⟩ := Model.exists_binding hs
  rcases List.mem_append.mp hb with hb | hb
  · obtain ⟨r, hr, hlatest, hnode⟩ :=
      exists_of_mem_referenceBindings (List.mem_reverse.mp hb)
    have hnamed := (h.latest?_isSome_iff k r.name).mp (by rw [hlatest]; rfl)
    obtain ⟨hstock, hname⟩ := h.mem_references_iff.mp hr
    have hholds : (Node.program d.program).Holds r.node := by
      by_contra hnot
      exact hd ⟨r, hr, hnamed, hnot⟩
    obtain ⟨j, hj, heq⟩ := hholds
    rw [Node.walk_eq_preorder] at hj
    obtain rfl := h.eq_of_id (h.below_program hj) hstock heq
    exact ⟨r.node, hj, hnode.symm.trans hid, Or.inr ⟨r.name, hname⟩⟩
  · obtain ⟨j, hj, hnode⟩ := exists_of_mem_bindingsFrom (List.mem_reverse.mp hb)
    obtain ⟨hmem, hnames⟩ := h.mem_declaredNodes_iff.mp hj
    exact ⟨j, hmem, hnode.symm.trans hid, Or.inl hnames⟩

theorem bindsNames (hd : ¬ Dangles past d) : BindsNames past (d.build k).1 (d.builtModel k) where
  declaration n hn kind hkind hspared := by
    have hsome : n.declares?.isSome = true := by rw [hkind]; rfl
    obtain ⟨name, hname⟩ := Option.isSome_iff_exists.mp
      (h.stock_program.labelled n (h.below_program hn) (h.own_program (h.below_program hn)) hsome)
    have hmem : n ∈ d.declaredNodes :=
      h.mem_declaredNodes_iff.mpr ⟨hn, name, hsome, hname, hspared⟩
    obtain ⟨id, hsymbol⟩ := h.exists_symbolOf_declaration k hmem
    refine ⟨name, n.symbol id, hsymbol, ?_, hname, hname, rfl⟩
    show n.declares?.getD .variable = kind
    rw [hkind]
    rfl
  name name s := by
    rw [symbolNamed_eq_ok_iff, h.build_eq]
    constructor
    · intro hs
      have hnamed := (h.latest?_isSome_iff k name).mp (by rw [hs]; rfl)
      obtain ⟨n, hn⟩ := exists_lastNamed hnamed
      exact ⟨n, hn, (h.symbolOf_lastNamed k hn).trans hs⟩
    · intro hlast
      obtain ⟨n, hn, hs⟩ := hlast
      exact (h.symbolOf_lastNamed k hn).symm.trans hs
  reference n hn name hname s := by
    rw [symbolNamed_eq_ok_iff, h.build_eq, h.symbolOf_reference k hn hname]
  only n s hs := h.exists_of_symbolOf k hd hs

end Recorded

/-- Name binding in a build, for all sequences of calls and builds. -/
theorem build_binds_by_name {maker : Nat} (h : Called maker past d) (k : Nat) :
    BuildsByName past d k := by
  obtain ⟨made, hr⟩ := h.recorded
  refine ⟨hr.entered, hr.names, ?_, ?_, hr.stock.nodup_references, ?_, ?_⟩
  · intro n hn name
    constructor
    · exact fun hname =>
        (hr.stock.references ⟨n, name⟩).mpr ⟨hr.known hn, hr.own n (hr.known hn), hname⟩
    · exact fun hmem => ((hr.stock.references ⟨n, name⟩).mp hmem).2.2
  · exact fun r hmem => ((hr.stock.references r).mp hmem).2.2
  · constructor
    · intro hfails
      obtain ⟨e, _, herror, _⟩ := hfails
      by_contra hd
      exact nomatch herror.symm.trans (hr.build_eq_ok k hd)
    · intro hd
      obtain ⟨kind, name, herror⟩ := hr.build_eq_error k hd
      exact ⟨_, _, herror, rfl, rfl⟩
  · intro hd
    exact ⟨d.builtModel k, hr.build_eq_ok k hd, rfl, hr.bindsNames k hd⟩

namespace Sample

/-- A use of a name that is not declared yet. -/
def use : Node := (Draft.start 0).referenceNode "x"

def used : Option Node × Draft := (Call.expression (.reference "x")).perform (Draft.start 0)

def placed : Option Node × Draft := (Call.variable "y" (.node use)).perform used.2

/-- A first build, and then a declaration of the name. -/
def declared : Option Node × Draft := (Call.parameter "x" "string").perform (placed.2.build 0).1

def history : List Past :=
  [.call (.expression (.reference "x")) used.1, .call (.variable "y" (.node use)) placed.1,
    .build ((placed.2.build 0).2.toOption.map Model.program),
    .call (.parameter "x" "string") declared.1]

theorem called : Called 0 history declared.2 := by
  have hused : Called 0 [.call (.expression (.reference "x")) used.1] used.2 :=
    Called.start.call (.expression (.reference "x")) fun n hn => absurd hn List.not_mem_nil
  have hplaced : Called 0 [.call (.expression (.reference "x")) used.1,
      .call (.variable "y" (.node use)) placed.1] placed.2 := by
    refine hused.call (.variable "y" (.node use)) fun n hn => ?_
    rw [List.mem_singleton.mp hn]
    exact ⟨_, List.mem_singleton_self _, use, rfl, Node.mem_preorder_self use⟩
  exact (hplaced.build 0).call (.parameter "x" "string") fun n hn => absurd hn List.not_mem_nil

end Sample

/-- A use, a build without the name, a declaration of the name, and a second build. -/
theorem build_binds_by_name_sample :
    Called 0 Sample.history Sample.declared.2 ∧ BuildsByName Sample.history Sample.declared.2 1 :=
  ⟨Sample.called, build_binds_by_name Sample.called 1⟩

end Draft

end InfraLint
