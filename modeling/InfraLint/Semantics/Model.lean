import InfraLint.CodedError
import InfraLint.Semantics.Symbol
import InfraLint.Syntax.Traversal

/-!
A document with the symbols its nodes stand for. A node of the document can be bound to a
symbol, and declarations make symbols of their own. A call that fails gives no new model, so
nothing changes by it. Bindings are kept with the latest first: what a node stands for is the
first binding of its identity.
-/
namespace InfraLint

inductive ModelError where
  | fault (f : Fault)
  /-- A node that is not in the document, or no node at all, was to be bound. -/
  | outside (kind : String) (symbol : Option String)
  | notDeclaration (kind : String)
  deriving DecidableEq, Repr

/-- Model errors other than faults have a code. -/
def ModelError.coded : ModelError → Except Fault CodedError
  | .fault f => .error f
  | .outside kind symbol => .ok
    { family := .unboundNode
      text := "Cannot bind a node outside the program"
      context := [("node_kind", .text kind), ("symbol", .ofText symbol)] }
  | .notDeclaration kind => .ok
    { family := .semanticModel
      text := "Not a declaration"
      context := [("node_kind", .text kind)] }

structure Binding where
  node : Identity
  symbol : Symbol

structure Model where
  /-- The number under which this model gives out identities to symbols. -/
  maker : Nat
  program : Node
  bindings : List Binding
  /-- How many symbols the model has made. -/
  issued : Nat

namespace Model

def start (maker : Nat) (program : Node) : Model := ⟨maker, program, [], 0⟩

/-- A document needs a root. -/
def ofRoot (maker : Nat) : Option Node → Except Fault Model
  | some program => .ok (start maker program)
  | none => .error .absentTree

/-- Whether a node is, by identity, one of those that a walk of the document meets. -/
def contains (m : Model) : Option Node → Bool
  | some n => m.program.walk.any fun x => x.id == n.id
  | none => false

/-- What a node stands for. -/
def symbolOf (m : Model) : Option Node → Option Symbol
  | some n => (m.bindings.find? fun b => b.node == n.id).map Binding.symbol
  | none => none

def bind (m : Model) (node : Option Node) (symbol : Symbol) : Except ModelError Model :=
  match node with
  | none => .error (.outside Node.absentName symbol.name)
  | some n =>
    if m.contains node then .ok { m with bindings := ⟨n.id, symbol⟩ :: m.bindings }
    else .error (.outside n.kindName symbol.name)

/-- The identity of the next symbol. -/
def fresh (m : Model) : Identity := ⟨m.maker, m.issued⟩

/-- Makes the symbol of a declaration and binds the declaration to it. -/
def declare (m : Model) (node : Option Node) : Except ModelError (Symbol × Model) :=
  match node with
  | none => .error (.notDeclaration Node.absentName)
  | some n =>
    match n.declares? with
    | none => .error (.notDeclaration n.kindName)
    | some kind =>
      match n.declaredName? with
      | none => .error (.fault .absentName)
      | some name =>
        let symbol : Symbol := ⟨m.fresh, kind, name.name, some n⟩
        (m.bind node symbol).map fun m => (symbol, { m with issued := m.issued + 1 })

/-- All resource declarations in document order, nested ones included. -/
def resources (m : Model) : List Resource :=
  m.program.walk.filterMap fun
    | .resourceDecl x => some x
    | _ => none

theorem bind_of_contains {m : Model} {n : Node} (h : m.contains (some n) = true)
    (symbol : Symbol) :
    m.bind (some n) symbol = .ok { m with bindings := ⟨n.id, symbol⟩ :: m.bindings } := by
  simp [bind, h]

theorem bind_of_not_contains {m : Model} {n : Node} (h : m.contains (some n) = false)
    (symbol : Symbol) :
    m.bind (some n) symbol = .error (.outside n.kindName symbol.name) := by
  simp [bind, h]

/-- After a binding succeeds, its node stands for the symbol. -/
theorem symbolOf_bind_self {m m' : Model} {n : Node} {symbol : Symbol}
    (h : m.bind (some n) symbol = .ok m') : m'.symbolOf (some n) = some symbol := by
  cases hc : m.contains (some n) with
  | false => rw [bind_of_not_contains hc] at h; exact nomatch h
  | true =>
    rw [bind_of_contains hc] at h
    obtain rfl := Except.ok.inj h
    simp [symbolOf]

/-- Nodes of other identities stand for what they stood for. -/
theorem symbolOf_bind_of_ne {m m' : Model} {n other : Node} {symbol : Symbol}
    (h : m.bind (some n) symbol = .ok m') (hne : n.id ≠ other.id) :
    m'.symbolOf (some other) = m.symbolOf (some other) := by
  cases hc : m.contains (some n) with
  | false => rw [bind_of_not_contains hc] at h; exact nomatch h
  | true =>
    rw [bind_of_contains hc] at h
    obtain rfl := Except.ok.inj h
    have hb : (n.id == other.id) = false := by simpa using hne
    simp [symbolOf, hb]

end Model

end InfraLint
