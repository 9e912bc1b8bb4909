import InfraLint.Proofs.Calls
import InfraLint.Proofs.Naming

/-!
The history of a draft: the calls and builds that have led to it, with the nodes that they gave. A
call may be given whatever the draft has handed out before, any number of times. Invariant: what
the draft remembers of its history is the nodes entered, the names asked for and the nodes
spared, and each symbol of an earlier build has the name of a declaration that is still there.
-/
namespace InfraLint

namespace Draft

/-- A call or a build and the node that it gave, unless it failed. -/
inductive Past where
  | call (c : Call) (given : Option Node)
  | build (program : Option Node)

namespace Past

def given : Past → Option Node
  | .call _ given => given
  | .build program => program

def names : Past → List String
  | .call c _ => c.names
  | .build _ => []

def entered? : Past → Option Node
  | .call c given => if c.enters then given else none
  | .build _ => none

def spared? : Past → Option Node
  | .call c given => if c.spares then given else none
  | .build _ => none

theorem given_of_entered? {p : Past} {n : Node} (h : p.entered? = some n) : p.given = some n := by
  cases p with
  | call c given => exact (Option.ite_none_right_eq_some.mp h).2
  | build program => exact nomatch h

theorem given_of_spared? {p : Past} {n : Node} (h : p.spared? = some n) : p.given = some n := by
  cases p with
  | call c given => exact (Option.ite_none_right_eq_some.mp h).2
  | build program => exact nomatch h

end Past

/-- The node is below one that was given. -/
def Known (past : List Past) (n : Node) : Prop :=
  ∃ p ∈ past, ∃ root, p.given = some root ∧ n ∈ root.preorder

/-- The node was given by a call that marked it as one without a symbol. -/
def Spared (past : List Past) (n : Node) : Prop := ∃ p ∈ past, p.spared? = some n

/-- The node declares the name, and is to get a symbol. -/
def Names (past : List Past) (n : Node) (name : String) : Prop :=
  n.declares?.isSome = true ∧ n.label? = some name ∧ ¬ Spared past n

/-- What a call gives, and the draft after it. What was done before a failure stays. -/
def Call.perform (c : Call) (d : Draft) : Option Node × Draft :=
  ((c.make.run.run d).1.toOption, (c.make.run.run d).2)

/-- The draft can be made by these calls and builds, all given nodes that are known then. -/
inductive Called (maker : Nat) : List Past → Draft → Prop
  | start : Called maker [] (Draft.start maker)
  | call {past : List Past} {d : Draft} (h : Called maker past d) (c : Call)
      (hc : ∀ n ∈ c.nodes, Known past n) :
      Called maker (past ++ [.call c (c.perform d).1]) (c.perform d).2
  | build {past : List Past} {d : Draft} (h : Called maker past d) (k : Nat) :
      Called maker (past ++ [.build ((d.build k).2.toOption.map Model.program)]) (d.build k).1

variable {past : List Past} {d d' : Draft} {made : Set Node}

structure Recorded (past : List Past) (d : Draft) (made : Set Node) : Prop where
  stock : d.Stock made
  own : ∀ n ∈ made, n.id.maker = d.maker
  given : ∀ p ∈ past, ∀ n, p.given = some n → n ∈ made
  entered : d.declarations = past.filterMap Past.entered?
  names : (d.references.map Reference.name).Perm (past.flatMap Past.names)
  spared : ∀ i, i ∈ d.undeclared ↔ ∃ n, Spared past n ∧ n.id = i
  symbols : ∀ s ∈ d.symbols, ∃ n ∈ d.declarations.flatMap Node.preorder, ∃ name,
    s.name = some name ∧ Names past n name

theorem spared_append_iff {p : Past} {n : Node} :
    Spared (past ++ [p]) n ↔ Spared past n ∨ p.spared? = some n := by
  simp only [Spared, List.mem_append, List.mem_singleton, or_and_right, exists_or,
    exists_eq_left]

theorem recorded_start (maker : Nat) : Recorded [] (Draft.start maker) ∅ where
  stock := Stock.start maker
  own n hn := absurd hn (Set.notMem_empty n)
  given p hp := absurd hp List.not_mem_nil
  entered := rfl
  names := List.Perm.refl _
  spared i := by simp [Draft.start, Spared]
  symbols s hs := absurd hs List.not_mem_nil

namespace Recorded

theorem known (h : Recorded past d made) {n : Node} (hn : Known past n) : n ∈ made := by
  obtain ⟨p, hp, root, hroot, hmem⟩ := hn
  exact h.stock.below (h.given p hp root hroot) hmem

theorem declaration (h : Recorded past d made) {n : Node} (hn : n ∈ d.declarations) :
    n ∈ made := by
  rw [h.entered] at hn
  obtain ⟨p, hp, hentered⟩ := List.mem_filterMap.mp hn
  exact h.given p hp n (Past.given_of_entered? hentered)

theorem below_declaration (h : Recorded past d made) {n : Node}
    (hn : n ∈ d.declarations.flatMap Node.preorder) : n ∈ made := by
  obtain ⟨k, hk, hmem⟩ := List.mem_flatMap.mp hn
  exact h.stock.below (h.declaration hk) hmem

theorem isUndeclared_iff (h : Recorded past d made) {n : Node} (hn : n ∈ made) :
    d.isUndeclared n = true ↔ Spared past n := by
  rw [isUndeclared, List.any_eq_true]
  constructor
  · intro hmarked
    obtain ⟨i, hi, heq⟩ := hmarked
    obtain ⟨k, hk, rfl⟩ := (h.spared i).mp hi
    obtain ⟨p, hp, hspared⟩ := hk
    have hkmem : k ∈ made := h.given p hp k (Past.given_of_spared? hspared)
    rw [← h.stock.distinct k hkmem n hn (h.own k hkmem) (beq_iff_eq.mp heq)]
    exact ⟨p, hp, hspared⟩
  · intro hspared
    exact ⟨n.id, (h.spared n.id).mpr ⟨n, hspared, rfl⟩, beq_self_eq_true n.id⟩

/-- In stock, what is to get a symbol is what names something. -/
theorem isDeclared_iff (h : Recorded past d made) {n : Node} (hn : n ∈ made) :
    d.isDeclared n = true ↔ ∃ name, Names past n name := by
  rw [isDeclared, Bool.and_eq_true, Bool.not_eq_true', ← Bool.not_eq_true, h.isUndeclared_iff hn]
  constructor
  · intro hdeclared
    obtain ⟨name, hname⟩ :=
      Option.isSome_iff_exists.mp (h.stock.labelled n hn (h.own n hn) hdeclared.1)
    exact ⟨name, hdeclared.1, hname, hdeclared.2⟩
  · intro hnames
    obtain ⟨_, hkind, _, hspared⟩ := hnames
    exact ⟨hkind, hspared⟩

end Recorded

/-- All that a call does to a draft: it keeps the stock, and enters and spares what it has given;
a node that it spares is new. -/
theorem Call.performed (c : Call) {p : Past} (hp : p = .call c (c.perform d).1)
    (hs : d.Stock made) (hc : ∀ n ∈ c.nodes, n ∈ made) :
    ∃ d₁ made', Leads d made c.names d₁ made' ∧
      (c.perform d).2 = { d₁ with
        declarations := d₁.declarations ++ p.entered?.toList
        undeclared := p.spared?.toList.map Node.id ++ d₁.undeclared } ∧
      (∀ n, p.given = some n → n ∈ made') ∧ ∀ n, p.spared? = some n → n ∉ made := by
  obtain ⟨d₁, made', hleads, herror, hok⟩ := c.finishes hs hc
  refine ⟨d₁, made', hleads, ?_⟩
  cases houtcome : (c.make.run.run d).1 with
  | error e =>
    have hnone : p = .call c none := by rw [hp, perform, houtcome]; rfl
    have hentered : p.entered? = none := by rw [hnone]; exact ite_self none
    have hspared : p.spared? = none := by rw [hnone]; exact ite_self none
    have hgiven : p.given = none := by rw [hnone]; rfl
    refine ⟨?_, ?_, ?_⟩
    · rw [hentered, hspared, Option.toList_none, List.append_nil]
      exact herror e houtcome
    · exact fun n hn => nomatch hgiven.symm.trans hn
    · exact fun n hn => nomatch hspared.symm.trans hn
  | ok n =>
    obtain ⟨hn, hnew, hstate⟩ := hok n houtcome
    have hsome : p = .call c (some n) := by rw [hp, perform, houtcome]; rfl
    have hgiven : p.given = some n := by rw [hsome]; rfl
    refine ⟨?_, ?_, ?_⟩
    · rw [hsome]
      refine hstate.trans ?_
      cases henters : c.enters <;> cases hspares : c.spares <;>
        simp [finished, Past.entered?, Past.spared?, henters, hspares]
    · intro k hk
      rw [← Option.some.inj (hgiven.symm.trans hk)]
      exact hn
    · intro k hk
      rw [hsome] at hk
      obtain ⟨hspares, heq⟩ := Option.ite_none_right_eq_some.mp hk
      rw [← Option.some.inj heq]
      exact hnew hspares

private theorem filterMap_append_singleton {α β : Type} (f : α → Option β) (l : List α) (a : α) :
    (l ++ [a]).filterMap f = l.filterMap f ++ (f a).toList := by
  rw [List.filterMap_append, List.filterMap_cons, List.filterMap_nil]
  cases f a <;> rfl

/-- What names something still does after a step that spares only new nodes. -/
private theorem names_append {p : Past} {n : Node} {name : String} (h : Names past n name)
    (hn : n ∈ made) (hnew : ∀ k, p.spared? = some k → k ∉ made) : Names (past ++ [p]) n name := by
  refine ⟨h.1, h.2.1, fun hspared => ?_⟩
  rcases spared_append_iff.mp hspared with hold | hlast
  · exact h.2.2 hold
  · exact hnew n hlast hn

theorem Recorded.call (h : Recorded past d made) (c : Call) (hc : ∀ n ∈ c.nodes, Known past n) :
    ∃ made', Recorded (past ++ [.call c (c.perform d).1]) (c.perform d).2 made' := by
  obtain ⟨p, hp⟩ : ∃ p, p = Past.call c (c.perform d).1 := ⟨_, rfl⟩
  obtain ⟨d₁, made', hleads, hstate, hgiven, hspared⟩ :=
    c.performed hp h.stock fun n hn => h.known (hc n hn)
  have hnames : p.names = c.names := by rw [hp]; rfl
  rw [← hp, hstate]
  refine ⟨made', hleads.stock.later rfl le_rfl le_rfl rfl, ?_, ?_, ?_, ?_, ?_, ?_⟩
  · intro n hn
    by_cases hold : n ∈ made
    · exact (h.own n hold).trans hleads.maker.symm
    · exact (hleads.fresh n hn hold).1.trans hleads.maker.symm
  · intro q hq n hn
    rcases List.mem_append.mp hq with hold | hlast
    · exact hleads.kept (h.given q hold n hn)
    · rw [List.mem_singleton.mp hlast] at hn
      exact hgiven n hn
  · show d₁.declarations ++ p.entered?.toList = _
    rw [hleads.declarations, h.entered, filterMap_append_singleton]
  · rw [List.flatMap_append, List.flatMap_singleton, hnames]
    exact hleads.names.trans (h.names.append_right c.names)
  · intro i
    show i ∈ p.spared?.toList.map Node.id ++ d₁.undeclared ↔ _
    rw [hleads.undeclared, List.mem_append, h.spared i]
    simp only [spared_append_iff, List.mem_map, Option.mem_toList, or_and_right, exists_or]
    exact or_comm
  · intro s hs
    have hold : s ∈ d.symbols := by rw [← hleads.symbols]; exact hs
    obtain ⟨n, hn, name, hsymbol, hname⟩ := h.symbols s hold
    refine ⟨n, ?_, name, hsymbol, names_append hname (h.below_declaration hn) hspared⟩
    show n ∈ (d₁.declarations ++ p.entered?.toList).flatMap Node.preorder
    rw [hleads.declarations, List.flatMap_append]
    exact List.mem_append_left _ hn

end Draft

end InfraLint
