import InfraLint.Journal
import InfraLint.Semantics.Dependency
import InfraLint.Semantics.Model

/-!
Explicit dependencies that say nothing new. An entry of a resource's list of dependencies is
redundant when what it refers to is also inferred from the references of that resource. Entries
that refer to a collection are never reported: references to some members do not imply that
the resource depends on the whole. An audit goes through all resources in document order and
notes each question it puts to the model.
-/
namespace InfraLint

/-- A question to the model. -/
inductive Query where
  | resources
  | symbolOf (node : Option Node)
  | isCollection (symbol : Symbol)

/-- What an audit writes down. -/
inductive Note where
  | asked (q : Query)
  /-- No dependency is inferred for the resource, so that each entry says something new. -/
  | skipped (resource : Symbol)

/-- The questions among some notes. -/
def Note.queries (notes : List Note) : List Query :=
  notes.filterMap fun
    | .asked q => some q
    | .skipped _ => none

abbrev Audit := Journal Note Fault

def Audit.ask {α : Type} (q : Query) (answer : α) : Audit α := do
  Journal.note (.asked q)
  return answer

/-- An entry that is already implied. -/
structure Redundancy where
  entry : Item
  source : Symbol
  target : Symbol

namespace Redundancy

def implied (records : List Dependency) (target : Symbol) : Bool :=
  records.any fun d => d.target.is target

def ofItem (m : Model) (source : Symbol) (records : List Dependency) (item : Item) :
    Audit (List Redundancy) := do
  match ← Audit.ask (.symbolOf item.value) (m.symbolOf item.value) with
  | none => return []
  | some target =>
    if !target.isEntity then return []
    else if ← Audit.ask (.isCollection target) target.isCollection then return []
    else if implied records target then return [⟨item, source, target⟩]
    else return []

def ofPlace (m : Model) (source : Symbol) (records : List Dependency) :
    Option Item → Audit (List Redundancy)
  | none => Journal.fail .absentHolder
  | some item => ofItem m source records item

def ofResource (m : Model) (inferred : DependencyMap) (x : Resource) :
    Audit (List Redundancy) := do
  match ← Journal.lift (explicitEntries x.body) with
  | none => return []
  | some entries =>
    let node := Node.resourceDecl x
    match ← Audit.ask (.symbolOf node) (m.symbolOf node) with
    | none => return []
    | some source =>
      match inferred.get? source with
      | none =>
        Journal.note (.skipped source)
        return []
      | some records => Journal.forEach (ofPlace m source records) entries

/-- All redundant entries, in document order. -/
def audit (m : Model) (inferred : DependencyMap) : Audit (List Redundancy) := do
  let resources ← Audit.ask .resources m.resources
  Journal.forEach (ofResource m inferred) resources

/-- What an audit finds, without its notes. -/
def find (m : Model) (inferred : DependencyMap) : Except Fault (List Redundancy) :=
  (audit m inferred).outcome

end Redundancy

end InfraLint
