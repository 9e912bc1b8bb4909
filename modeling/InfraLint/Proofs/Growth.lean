import InfraLint.Draft.Build
import InfraLint.Proofs.Body
import InfraLint.Proofs.Listing
import Mathlib.Data.List.Range

/-!
What runs of a draft add to it. A run grows some given nodes into new ones: what is below the new
nodes is what was below the given ones and the nodes that the run has made, each once, and the
nodes that it has made have just the identities that it has given out. Growths are put together
one after the other and one beside the other.
-/
namespace InfraLint

namespace Node

def named? : Node → Option String
  | .variableAccess x => x.name.bind Identifier.name
  | _ => none

def label? (n : Node) : Option String := n.declaredName?.bind Identifier.name

/-- What a node mentions: a name by itself, or a name with an index. -/
def mention? : Node → Option (String × Bool)
  | .arrayAccess x => (x.base.bind named?).map fun name => (name, true)
  | n => n.named?.map fun name => (name, false)

/-- The node is no declaration, and it has the parts it must have. -/
def Bare (n : Node) : Prop := n.PartsPresent ∧ n.declares? = none

def Inert (n : Node) : Prop := n.Bare ∧ n.mention? = none

theorem Inert.named? {n : Node} (h : n.Inert) : n.named? = none := by
  obtain ⟨_, hmention⟩ := h
  cases n with
  | variableAccess x => exact Option.map_eq_none_iff.mp hmention
  | _ => rfl

/-- A bare reference as it waits for its symbol. -/
def reference? (n : Node) : Option Reference := n.named?.map fun name => ⟨n, name⟩

end Node

namespace Draft

/-- A run from `d` succeeds with `a` and leads to `d'`. -/
def Yields {α : Type} (c : Drafting α) (d : Draft) (a : α) (d' : Draft) : Prop :=
  c.run.run d = (Except.ok a, d')

namespace Yields

variable {α β : Type} {d d' d'' : Draft}

theorem pure (a : α) (d : Draft) : Yields (Pure.pure a) d a d := rfl

theorem bind {c : Drafting α} {f : α → Drafting β} {a : α} {b : β} (hc : Yields c d a d')
    (hf : Yields (f a) d' b d'') : Yields (c >>= f) d b d'' := by
  unfold Yields at hc hf ⊢
  rw [ExceptT.run_bind, StateT.run_bind, hc]
  exact hf

theorem unique {c : Drafting α} {a a' : α} (h : Yields c d a d') (h' : Yields c d a' d'') :
    a = a' ∧ d' = d'' := by
  have heq : (Except.ok a, d') = ((Except.ok a', d'') : Except Unplaceable α × Draft) :=
    h.symm.trans h'
  obtain ⟨ha, hd⟩ := Prod.mk.inj heq
  exact ⟨Except.ok.inj ha, hd⟩

end Yields

/-- The draft with one more identity given out, for a node that covers `text`. -/
def placed (d : Draft) (text : String) : Draft :=
  { d with issued := d.issued + 1, position := d.position + text.length + 1 }

def nextOrigin (d : Draft) (text : String) : Origin :=
  ⟨⟨d.maker, d.issued⟩, ⟨d.position, text.length⟩⟩

theorem yields_place (d : Draft) (text : String) :
    Yields (place text) d (d.nextOrigin text) (d.placed text) := rfl

theorem yields_digits {i : Int} (h : Text.Spellable i) (d : Draft) :
    Yields (spelled (Text.whole i)) d (toString i) d := by
  rw [Text.whole, if_pos h]
  rfl

/-- Between `d` and `d'` the nodes `parts` have become parts of the nodes `whole`, and the nodes
`fresh` are what else is below those. -/
structure Grows (d d' : Draft) (parts whole fresh : List Node) : Prop where
  nodes : (whole.flatMap Node.preorder).Perm (parts.flatMap Node.preorder ++ fresh)
  ids : (fresh.map Node.id).Perm
    ((List.range' d.issued fresh.length).map (Identity.mk d.maker))
  issued : d'.issued = d.issued + fresh.length
  references : d'.references.Perm (d.references ++ fresh.filterMap Node.reference?)
  maker : d'.maker = d.maker
  declarations : d'.declarations = d.declarations
  symbols : d'.symbols = d.symbols
  undeclared : d'.undeclared = d.undeclared

namespace Grows

variable {d d' d'' : Draft} {parts parts' whole whole' mid fresh fresh' : List Node}

theorem refl (d : Draft) (parts : List Node) : Grows d d parts parts [] where
  nodes := by rw [List.append_nil]
  ids := List.Perm.refl _
  issued := rfl
  references := by rw [List.filterMap_nil, List.append_nil]
  maker := rfl
  declarations := rfl
  symbols := rfl
  undeclared := rfl

private theorem ids_append (h : Grows d d' parts whole fresh)
    (h' : Grows d' d'' parts' whole' fresh') :
    ((fresh ++ fresh').map Node.id).Perm
      ((List.range' d.issued (fresh ++ fresh').length).map (Identity.mk d.maker)) := by
  have hids := h'.ids
  rw [h.maker, h.issued] at hids
  rw [List.map_append, List.length_append, ← List.range'_append_1, List.map_append]
  exact h.ids.append hids

private theorem references_append (h : Grows d d' parts whole fresh)
    (h' : Grows d' d'' parts' whole' fresh') :
    d''.references.Perm (d.references ++ (fresh ++ fresh').filterMap Node.reference?) := by
  rw [List.filterMap_append, ← List.append_assoc]
  exact h'.references.trans (h.references.append_right _)

/-- One growth after the other, side by side. -/
theorem append (h : Grows d d' parts whole fresh) (h' : Grows d' d'' parts' whole' fresh') :
    Grows d d'' (parts ++ parts') (whole ++ whole') (fresh ++ fresh') where
  nodes := by
    rw [List.flatMap_append, List.flatMap_append]
    refine (h.nodes.append h'.nodes).trans ?_
    rw [List.append_assoc, List.append_assoc]
    refine List.Perm.append_left _ ?_
    rw [← List.append_assoc, ← List.append_assoc]
    exact List.Perm.append_right _ List.perm_append_comm
  ids := ids_append h h'
  issued := by rw [h'.issued, h.issued, List.length_append, Nat.add_assoc]
  references := references_append h h'
  maker := h'.maker.trans h.maker
  declarations := h'.declarations.trans h.declarations
  symbols := h'.symbols.trans h.symbols
  undeclared := h'.undeclared.trans h.undeclared

theorem trans (h : Grows d d' parts mid fresh) (h' : Grows d' d'' mid whole fresh') :
    Grows d d'' parts whole (fresh ++ fresh') where
  nodes := by
    rw [← List.append_assoc]
    exact h'.nodes.trans (h.nodes.append_right _)
  ids := ids_append h h'
  issued := by rw [h'.issued, h.issued, List.length_append, Nat.add_assoc]
  references := references_append h h'
  maker := h'.maker.trans h.maker
  declarations := h'.declarations.trans h.declarations
  symbols := h'.symbols.trans h.symbols
  undeclared := h'.undeclared.trans h.undeclared

private theorem reference?_eq_none {n : Node} (hn : n.named? = none) : n.reference? = none := by
  rw [Node.reference?, hn]
  rfl

/-- A node that takes its place behind its children. -/
theorem after (h : Grows d d' parts whole fresh) {n : Node} (hwhole : n.children = whole)
    (text : String) (hid : n.id = (d'.nextOrigin text).id) (hn : n.named? = none) :
    Grows d (d'.placed text) parts [n] (fresh ++ [n]) where
  nodes := by
    rw [List.flatMap_singleton, Node.preorder_eq, hwhole, ← List.append_assoc]
    exact (List.Perm.cons n h.nodes).trans (List.perm_append_singleton n _).symm
  ids := by
    rw [List.map_append, List.length_append, ← List.range'_append_1, List.map_append]
    refine h.ids.append ?_
    rw [List.map_singleton, hid]
    show [Identity.mk d'.maker d'.issued].Perm _
    rw [h.maker, h.issued]
    exact List.Perm.refl _
  issued := by
    rw [List.length_append, ← Nat.add_assoc, ← h.issued]
    rfl
  references := by
    rw [List.filterMap_append, List.filterMap_cons_none (reference?_eq_none hn),
      List.filterMap_nil, List.append_nil]
    exact h.references
  maker := h.maker
  declarations := h.declarations
  symbols := h.symbols
  undeclared := h.undeclared

/-- A node that takes its place in front of its children. -/
theorem before {text : String} (h : Grows (d.placed text) d' parts whole fresh) {n : Node}
    (hwhole : n.children = whole) (hid : n.id = (d.nextOrigin text).id) (hn : n.named? = none) :
    Grows d d' parts [n] (n :: fresh) where
  nodes := by
    rw [List.flatMap_singleton, Node.preorder_eq, hwhole]
    exact (List.Perm.cons n h.nodes).trans List.perm_middle.symm
  ids := by
    rw [List.map_cons, List.length_cons, List.range'_succ, List.map_cons, hid]
    exact List.Perm.cons _ h.ids
  issued := by
    rw [h.issued, List.length_cons]
    show d.issued + 1 + fresh.length = _
    omega
  references := by
    rw [List.filterMap_cons_none (reference?_eq_none hn)]
    exact h.references
  maker := h.maker
  declarations := h.declarations
  symbols := h.symbols
  undeclared := h.undeclared

theorem leaf (d : Draft) (text : String) {n : Node} (hn : n.children = [])
    (hid : n.id = (d.nextOrigin text).id) (hname : n.named? = none) :
    Grows d (d.placed text) [] [n] [n] :=
  before (refl _ []) hn hid hname

end Grows

end Draft

end InfraLint
