import InfraLint.Proofs.Naming
import InfraLint.Proofs.References

/-!
What the nodes of a built draft refer to. A name stands for the last declaration of that name in
the document, wherever the name is written. So a scan finds for a node just what the mention in it
refers to: with an index every resource or module of the name, without one every such declaration
but the one that is scanned.
-/
namespace InfraLint

namespace Draft

/-- The name is declared by the declaration of index `k` and by none after it. -/
def LastDeclared (doc : List (Entered × List Made)) (name : String) (k : Nat) : Prop :=
  (∃ e, doc[k]? = some e ∧ e.1.name = name) ∧
    ∀ (l : Nat) (e : Entered × List Made), k < l → doc[l]? = some e → e.1.name ≠ name

theorem Declares.symbol_name {x : Entered} {n : Node} (h : Declares x n) (id : Identity) :
    (n.symbol id).name = some x.name := by
  obtain ⟨o, ho⟩ := h.name
  show n.declaredName?.bind Identifier.name = _
  rw [ho]
  rfl

theorem Declares.symbol_kind {x : Entered} {n : Node} (h : Declares x n) (id : Identity) :
    (n.symbol id).kind = x.kind := by
  show n.declares?.getD .variable = _
  rw [h.kind]
  rfl

variable {doc : List (Entered × List Made)} {loose : List Made} {d : Draft}

theorem Sound.exists_declaration (h : Sound doc loose d) {j : Nat} {e : Entered × List Made}
    (he : doc[j]? = some e) : ∃ n, d.declarations[j]? = some n ∧ EnteredAs e n :=
  forall₂_getElem?_left h.declarations he

theorem Sound.exists_entered (h : Sound doc loose d) {j : Nat} {n : Node}
    (hn : d.declarations[j]? = some n) : ∃ e, doc[j]? = some e ∧ EnteredAs e n :=
  forall₂_getElem?_right h.declarations hn

/-- The latest symbol of a name is the symbol of its last declaration. -/
theorem Sound.latest?_eq_some_iff (h : Sound doc loose d) {maker : Nat} {name : String}
    {s : Symbol} :
    latest? (d.latestFirst maker) (some name) = some s ↔
      ∃ k n, d.declarations[k]? = some n ∧ s = n.symbol ⟨maker, k⟩ ∧ LastDeclared doc name k := by
  have hmember : ∀ (k : Nat) (t : Symbol), (symbolsFrom maker 0 d.declarations)[k]? = some t ↔
      ∃ n, d.declarations[k]? = some n ∧ t = n.symbol ⟨maker, k⟩ := by
    intro k t
    rw [symbolsFrom_getElem?, Nat.zero_add, Option.map_eq_some_iff]
    simp only [eq_comm]
  unfold latest? latestFirst
  rw [find?_reverse_eq_some_iff]
  constructor
  · intro h'
    obtain ⟨k, hk, hname, hlast⟩ := h'
    obtain ⟨n, hn, rfl⟩ := (hmember k s).mp hk
    obtain ⟨e, he, hentered⟩ := h.exists_entered hn
    refine ⟨k, n, hn, rfl, ⟨e, he, ?_⟩, ?_⟩
    · simpa [hentered.declares.symbol_name] using hname
    · intro l e' hl he' hname'
      obtain ⟨n', hn', hentered'⟩ := h.exists_declaration he'
      refine hlast l (n'.symbol ⟨maker, l⟩) hl ((hmember l _).mpr ⟨n', hn', rfl⟩) ?_
      simp [hentered'.declares.symbol_name, hname']
  · intro h'
    obtain ⟨k, n, hn, rfl, ⟨e, he, hname⟩, hlast⟩ := h'
    obtain ⟨n', hn', hentered⟩ := h.exists_declaration he
    obtain rfl := Option.some.inj (hn'.symm.trans hn)
    refine ⟨k, (hmember k _).mpr ⟨n', hn, rfl⟩, ?_, ?_⟩
    · simp [hentered.declares.symbol_name, hname]
    · intro l t hl ht hname'
      obtain ⟨n'', hn'', rfl⟩ := (hmember l t).mp ht
      obtain ⟨e', he', hentered'⟩ := h.exists_entered hn''
      refine hlast l e' hl he' ?_
      simpa [hentered'.declares.symbol_name] using hname'

/-- What a scan for a source finds where a name is mentioned, with an index or without. -/
def refer (symbols : List Symbol) (source : Symbol) (mention : String × Bool) : Option Symbol :=
  (latest? symbols (some mention.1)).bind fun target =>
    if target.isEntity && (mention.2 || !target.is source) then some target else none

theorem refer_eq_some_iff {symbols : List Symbol} {source target : Symbol}
    {mention : String × Bool} :
    refer symbols source mention = some target ↔
      latest? symbols (some mention.1) = some target ∧ target.isEntity = true ∧
        (mention.2 = true ∨ target.id ≠ source.id) := by
  unfold refer
  rw [Option.bind_eq_some_iff]
  constructor
  · intro h
    obtain ⟨t, ht, hsome⟩ := h
    obtain ⟨hok, heq⟩ := Option.ite_none_right_eq_some.mp hsome
    obtain rfl := Option.some.inj heq
    refine ⟨ht, ?_⟩
    simpa [Symbol.is] using hok
  · intro h
    obtain ⟨ht, hok⟩ := h
    refine ⟨target, ht, if_pos ?_⟩
    simpa [Symbol.is] using hok

private theorem mention?_of_not_arrayAccess {n : Node} (h : ∀ x, n = .arrayAccess x → False) :
    n.mention? = n.named?.map fun name => (name, false) := by
  unfold Node.mention?
  split
  · rename_i x
    exact absurd rfl (h x)
  · rfl

/-- A scan finds for a node what the mention in it refers to. -/
theorem Built.target_record {maker : Nat} {m : Model} (hb : Built d maker m) (source : Symbol)
    {n : Node} (hn : n ∈ m.program.preorder) (hbare : ∀ k ∈ n.preorder, k.Bare) :
    (ReferenceScan.record m source n).map Dependency.target =
      n.mention?.bind (refer (d.latestFirst maker) source) := by
  by_cases haccess : ∃ x, n = .arrayAccess x
  · obtain ⟨x, rfl⟩ := haccess
    have hbase : m.symbolOf x.base = (x.base.bind Node.named?).bind fun name =>
        latest? (d.latestFirst maker) (some name) := by
      cases hx : x.base with
      | none => rfl
      | some base =>
        have hchild := Node.mem_children_arrayAccess hx
        exact hb.other base (Node.mem_preorder_of_child hn hchild)
          (hbare base (Node.child_mem_preorder hchild)).2
    simp only [ReferenceScan.record, hbase, Node.mention?]
    cases x.base.bind Node.named? with
    | none => rfl
    | some name =>
      simp only [Option.bind_some, Option.map_some, refer, Bool.true_or, Bool.and_true]
      cases latest? (d.latestFirst maker) (some name) with
      | none => rfl
      | some target =>
        simp only [Option.bind_some]
        split <;> rfl
  · have hplain : ∀ x, n = .arrayAccess x → False := fun x hx => haccess ⟨x, hx⟩
    have hself := hb.other n hn (hbare n (Node.mem_preorder_self n)).2
    rw [ReferenceScan.record_of_not_arrayAccess hplain, mention?_of_not_arrayAccess hplain]
    simp only [ReferenceScan.plainRecord, hself]
    cases n.named? with
    | none => rfl
    | some name =>
      simp only [Option.bind_some, Option.map_some, refer, Bool.false_or]
      cases latest? (d.latestFirst maker) (some name) with
      | none => rfl
      | some target =>
        simp only [Option.bind_some]
        split <;> rfl

/-- A scan finds below some nodes what the mentions there refer to. -/
theorem Built.targets {maker : Nat} {m : Model} (hb : Built d maker m) (source : Symbol)
    {l : List Node} (hl : ∀ n ∈ l, n ∈ m.program.preorder)
    (hbare : ∀ n ∈ l, ∀ k ∈ n.preorder, k.Bare) :
    (l.flatMap fun n => n.preorder.filterMap (ReferenceScan.record m source)).map
        Dependency.target =
      (Node.mentions l).filterMap (refer (d.latestFirst maker) source) := by
  rw [← List.filterMap_flatMap, List.map_filterMap, Node.mentions, List.filterMap_filterMap]
  refine List.filterMap_congr fun k hk => ?_
  obtain ⟨n, hn, hkn⟩ := List.mem_flatMap.mp hk
  refine hb.target_record source (Node.mem_preorder_trans _ (hl n hn) hkn) ?_
  exact fun j hj => hbare n hn j (Node.mem_preorder_trans n hkn hj)

end Draft

end InfraLint
