import InfraLint.Draft.Basic

/-!
From a draft to a model. The declarations entered so far become a program; each of them that is
to have a symbol gets one, in document order, so that the last declaration of a name decides
what the name stands for. Then all references are bound. A draft can be built again after
further changes, and keeps the symbols of earlier builds.
-/
namespace InfraLint

namespace Draft

/-- The program of all declarations entered, over everything that has been placed. -/
def program (d : Draft) : Program :=
  ⟨⟨⟨d.maker, d.issued⟩, ⟨0, d.position⟩⟩, d.declarations.map some⟩

def isUndeclared (d : Draft) (n : Node) : Bool := d.undeclared.any fun i => i == n.id

/-- Gives symbols to the declarations among `nodes`. Symbols made before a failure stay. -/
def declareAll (d : Draft) (m : Model) : List Node → Draft × Except ModelError Model
  | [] => (d, .ok m)
  | n :: rest =>
    if n.declares?.isSome && !d.isUndeclared n then
      match m.declare (some n) with
      | .error e => (d, .error e)
      | .ok (symbol, m) =>
        declareAll { d with symbols := symbol :: d.symbols } m rest
    else declareAll d m rest

/-- The latest of some symbols with a name. A declaration whose name lacks a text counts under
the absent name. -/
def latest? (symbols : List Symbol) (name : Option String) : Option Symbol :=
  symbols.find? fun s => s.name == name

/-- Binds the references whose name has a symbol. -/
def bindAll (symbols : List Symbol) (m : Model) : List Reference → Except ModelError Model
  | [] => .ok m
  | r :: rest =>
    match latest? symbols (some r.name) with
    | none => bindAll symbols m rest
    | some symbol =>
      match m.bind (some r.node) symbol with
      | .error e => .error e
      | .ok m => bindAll symbols m rest

def build (d : Draft) (maker : Nat) : Draft × Except ModelError Model :=
  let root := Node.program d.program
  let issued := { d with issued := d.issued + 1 }
  match issued.declareAll (Model.start maker root) root.walk with
  | (d, .error e) => (d, .error e)
  | (d, .ok m) => (d, bindAll d.symbols m d.references)

/-- No declaration of a name has been given a symbol. -/
structure UnknownName where
  name : Option String
  deriving DecidableEq, Repr

def UnknownName.message (e : UnknownName) : String := Text.optional Text.quoted e.name

/-- What a name stood for in the last build in which it was declared. -/
def symbolNamed (d : Draft) (name : Option String) : Except UnknownName Symbol :=
  match latest? d.symbols name with
  | some symbol => .ok symbol
  | none => .error ⟨name⟩

/-- Dependencies of one source by names. -/
def recordsByName (d : Draft) (source : String) : List String → Except UnknownName (List Dependency)
  | [] => .ok []
  | target :: rest => do
    let one ← d.symbolNamed (some source)
    let other ← d.symbolNamed (some target)
    let more ← recordsByName d source rest
    return ⟨one, other, none⟩ :: more

/-- Adds the dependencies of further sources by names. -/
def addByName (d : Draft) (map : DependencyMap) :
    List (String × List String) → Except UnknownName DependencyMap
  | [] => .ok map
  | (source, targets) :: rest => do
    let symbol ← d.symbolNamed (some source)
    let records ← d.recordsByName source targets
    d.addByName (map.put symbol (Dependency.ofList records)) rest

def mapByName (d : Draft) (names : List (String × List String)) :
    Except UnknownName DependencyMap :=
  d.addByName [] names

end Draft

end InfraLint
