import InfraLint.Semantics.Symbol
import InfraLint.Syntax.Description

/-!
Inferred dependencies. A record says that a source depends on a target, and which member of a
collection was referred to. Two records of one source and target are the same record, whatever
member they name; of such records a set keeps the first. A map gives each source its set.
-/
namespace InfraLint

structure Dependency where
  source : Symbol
  target : Symbol
  index : Option Node

namespace Dependency

def same (a b : Dependency) : Bool := a.source.is b.source && a.target.is b.target

def describe (d : Dependency) : Except TooLong String := do
  let index ← d.index.elim (.ok Text.absent) Node.describe
  return Text.record "ResourceDependency"
    [("source", d.source.describe), ("target", d.target.describe), ("index_expression", index)]

/-- Adds a record to a set in which no two are the same. -/
def add (set : List Dependency) (d : Dependency) : List Dependency :=
  if set.any fun e => e.same d then set else set ++ [d]

def ofList (records : List Dependency) : List Dependency := records.foldl add []

/-- Whether two sets have the same records. -/
def sameSet (a b : List Dependency) : Bool :=
  a.all (fun d => b.any fun e => e.same d) && b.all fun d => a.any fun e => e.same d

end Dependency

/-- Each source with its set of records, in the order in which the sources came. -/
abbrev DependencyMap := List (Symbol × List Dependency)

namespace DependencyMap

def get? (map : DependencyMap) (source : Symbol) : Option (List Dependency) :=
  (map.find? fun e => e.1.is source).map Prod.snd

/-- A source that is there keeps its place and takes the new set. -/
def put : DependencyMap → Symbol → List Dependency → DependencyMap
  | [], source, set => [(source, set)]
  | (s, old) :: rest, source, set =>
    if s.is source then (s, set) :: rest else (s, old) :: put rest source set

theorem get?_put_self (map : DependencyMap) (source : Symbol) (set : List Dependency) :
    (map.put source set).get? source = some set := by
  induction map with
  | nil => simp [put, get?, Symbol.is]
  | cons e rest ih =>
    obtain ⟨s, old⟩ := e
    by_cases h : s.is source = true
    · simp [put, get?, h]
    · simpa [put, get?, h] using ih

/-- Whether two maps give the same sets to the same sources. -/
def same (a b : DependencyMap) : Bool :=
  a.length == b.length && a.all fun e => (b.get? e.1).any (Dependency.sameSet e.2)

end DependencyMap

end InfraLint
